import DefFlow.Flow.Printer
import DefFlow.Proofs.Runs.Questions
import Mathlib.Data.List.Sort

/-!
# Printed functions

Functions that are alike print alike. Main statement: the order in which questions are
asked shows neither in the joins, nor in what uses observe, nor in the printed text.
-/

set_option autoImplicit false

namespace DefFlow.Flow

open Func

/-- A sound function whose joins are needed and list their nodes in order. -/
structure Func.CanonicalJoins (f : Func) : Prop where
  sound : f.Sound
  thrifty : f.Thrifty
  ordered : f.Ordered

section

variable {f g : Func} {v : VarId} {b : NodeId}

namespace Func

def sightText (f : Func) (v : VarId) : Sight → String
  | .nothing => "undef"
  | .definition i => f.destText i
  | .join b => "phi(" ++ (f.varText v ++ "@" ++ f.label b) ++ ")"
  | .unbuilt b => "unresolved(" ++ f.label b ++ ")"

theorem reachingText_eq {r : Reaching} (hr : ∀ t, r = .join t → (f.timelineAt t).var = v) :
    f.reachingText r = f.sightText v (f.sightOf r) := by
  cases r with
  | undefined => rfl
  | defined i => rfl
  | join t => rw [reachingText, timelineText, hr t rfl, sightOf, sightText]

theorem leaving_join {t u : TimelineId} (h : Edit.leaving f t = .join u) : u = t := by
  rw [Edit.leaving] at h
  split at h
  · cases h
  · exact (Reaching.join.inj h).symm

theorem resolvedText_eq {r : Resolution}
    (hr : ∀ t, r.timeline? = some t → (f.timelineAt t).var = v) :
    f.resolvedText r = f.sightText v (f.sight r) := by
  cases r with
  | undefined => rfl
  | join b => rfl
  | top t =>
    have hvar : ∀ u, Reaching.join t = .join u → (f.timelineAt u).var = v := by
      intro u hu
      cases hu
      exact hr t rfl
    exact reachingText_eq hvar
  | timeline t => exact reachingText_eq fun u hu => leaving_join hu ▸ hr t rfl

def feedsText (f : Func) (b : NodeId) (v : VarId) : String :=
  " ".intercalate ((f.feedBlocks b v).map fun e =>
    "[" ++ f.label e.1 ++ ": " ++ f.sightText v (f.sightFrom v e.2) ++ "]")

def nodeText (f : Func) (n : IncomingId) : String :=
  let x := f.incomingAt n
  let value := match x.target with
    | none => "undef"
    | some t => f.reachingText (Edit.leaving f t)
  "[" ++ f.label x.pred ++ ": " ++ value ++ "]"

def nodesText (f : Func) (t : TimelineId) : String :=
  " ".intercalate ((f.timelineAt t).incoming.map f.nodeText)

theorem Sound.probe_ok (h : f.Sound) (hb : b ∈ f.blocks) (v : VarId) :
    ∃ s r, Solution f v b s ∧ s.resolution f = .ok r ∧ f.probe b v = .ok r ∧
      f.resolvedText r = f.sightText v (f.sight r) := by
  have hw := h.nodesFresh.searchable
  obtain ⟨G⟩ := hw.graph
  obtain ⟨s, hs, hsol⟩ := solve_ok (v := v) G hb
  obtain ⟨r, hr, -⟩ := hsol.sight G hw.tables hb
  refine ⟨s, r, hsol, hr, ?_, resolvedText_eq fun t ht => hsol.var_of_timeline G hw.tables hb hr ht⟩
  rw [probe, probeStack, hw.resolvable hb]
  show (do let s ← f.solve b v; s.resolution f) = _
  rw [hs]
  exact hr

/-- The nodes of a join are bound to timelines that decide their blocks. -/
theorem Sound.node_target (h : f.Sound) {n : IncomingId} (hn : n ∈ f.joinNodes b v) {u : TimelineId}
    (hu : (f.incomingAt n).target = some u) :
    ∃ c x, f.explicit? c v = some u ∧ f.timelines.get? u = some x ∧
      (f.timelineAt u).explicit = true := by
  have he : ((f.incomingAt n).pred, (f.incomingAt n).target) ∈ f.feeds b v :=
    List.mem_map_of_mem hn
  have hfresh := h.nodesFresh.fresh _ he _ (h.nodesFresh.departs_target he)
  simp only [hu, Option.map_some, Option.bind_some] at hfresh
  have hexp := hfresh.symm
  obtain ⟨x, hx, -, -⟩ := h.nodesFresh.searchable.tables.placed (timelineId?_of_explicit? hexp)
  rw [explicit?, Option.filter_eq_some_iff] at hexp
  exact ⟨_, x, hfresh.symm, hx, hexp.2⟩

/-- A join lists its nodes in their order, each with what leaves its target. -/
theorem Sound.incomingValues_ok (h : f.Sound) {t : TimelineId} (hid : f.timelineId? b v = some t) :
    f.incomingValues t = .ok (f.nodesText t) := by
  have ht := h.nodesFresh.searchable.tables
  rw [incomingValues, mapM_ok (G := f.nodeText)]
  · rfl
  · intro n hn
    rw [← ht.joinNodes_eq hid] at hn
    dsimp only
    cases htarget : (f.incomingAt n).target with
    | none =>
      rw [nodeText, htarget]
      rfl
    | some u =>
      obtain ⟨-, x, -, hx, hexplicit⟩ := h.node_target hn htarget
      have hlive : (some u).filter (fun t => (f.timelines.get? t).isSome) = some u := by
        simp [hx]
      have hvalue : f.outgoingText u = .ok (f.reachingText (Edit.leaving f u)) := by
        simp only [outgoingText, hexplicit, if_true]
        rfl
      simp only [nodeText, htarget, hlive, hvalue]
      rfl

/-- What the nodes are bound to shows what leaves their predecessors. -/
theorem Sound.nodesText_eq (h : f.Sound) {t : TimelineId} (hid : f.timelineId? b v = some t) :
    f.nodesText t = f.feedsText b v := by
  have ht := h.nodesFresh.searchable.tables
  rw [nodesText, feedsText, feedBlocks, feeds, ht.joinNodes_eq hid, List.map_map, List.map_map]
  refine congrArg _ (List.map_congr_left fun n hn => ?_)
  rw [← ht.joinNodes_eq hid] at hn
  dsimp only [Function.comp_apply]
  cases htarget : (f.incomingAt n).target with
  | none =>
    rw [nodeText, htarget]
    rfl
  | some u =>
    obtain ⟨c, -, hexp, -, -⟩ := h.node_target hn htarget
    have huid := timelineId?_of_explicit? hexp
    rw [nodeText, htarget, Option.map_some, ht.block_eq huid, ← ht.sightOf_leaving huid,
      ← reachingText_eq fun w hw => leaving_join hw ▸ ht.var_eq huid]

theorem Sound.incomingValues_eq (h : f.Sound) {t : TimelineId} (hid : f.timelineId? b v = some t) :
    f.incomingValues t = .ok (f.feedsText b v) := by
  rw [h.incomingValues_ok hid, h.nodesText_eq hid]

def plainVars (f : Func) (b : NodeId) : List VarId :=
  ((f.blockAt b).timelines.filter fun e => !(f.timelineAt e.2).incoming.isEmpty &&
    !(((f.code b).take (f.blockAt b).phiCount).filterMap
      fun i => (f.inst i).dest.map Def.var).contains e.1).map Prod.fst

theorem Tables.plainVars_sorted (h : f.Tables) (b : NodeId) :
    (f.plainVars b).Pairwise (· < ·) :=
  (h.sorted b).sublist (List.filter_sublist.map Prod.fst)

theorem Tables.mem_plainVars (h : f.Tables) : v ∈ f.plainVars b ↔ f.joinNodes b v ≠ [] ∧
    v ∉ ((f.code b).take (f.blockAt b).phiCount).filterMap fun i =>
        (f.inst i).dest.map Def.var := by
  rw [plainVars, List.mem_map]
  constructor
  · rintro ⟨e, he, rfl⟩
    rw [List.mem_filter, Bool.and_eq_true] at he
    have hid := lookup_of_mem (h.keys b) he.1
    rw [h.joinNodes_eq hid]
    exact ⟨by simpa using he.2.1, by simpa using he.2.2⟩
  · rintro ⟨hne, hphi⟩
    obtain ⟨t, hid⟩ := timelineId?_of_joinNodes hne
    rw [h.joinNodes_eq hid] at hne
    exact ⟨(v, t), List.mem_filter.mpr ⟨mem_of_lookup hid, by simpa [hne] using hphi⟩, rfl⟩

theorem Sound.plainJoins_text (h : f.Sound) (level : Nat) (b : NodeId) :
    ((f.plainJoins b).mapM fun t => do
      return printLine (level + 1)
        (f.reachingText (.join t) ++ " = join " ++ (← f.incomingValues t))) =
    .ok ((f.plainVars b).map fun v => printLine (level + 1)
      (f.sightText v (.join b) ++ " = join " ++ f.feedsText b v)) := by
  have ht := h.nodesFresh.searchable.tables
  rw [plainJoins, plainVars, List.mapM_map, List.map_map]
  refine mapM_ok fun e he => ?_
  have hid := lookup_of_mem (ht.keys b) (List.mem_filter.mp he).1
  have htext : f.reachingText (.join e.2) = f.sightText e.1 (.join b) := by
    rw [reachingText_eq (v := e.1) fun u hu => Reaching.join.inj hu ▸ ht.var_eq hid, sightOf,
      ht.block_eq hid]
  simp only [Function.comp_apply, h.incomingValues_eq hid, htext]
  rfl

/-! ## Every sound function can be printed -/

theorem Sound.operandText_ok (h : f.Sound) (hb : b ∈ f.blocks) (i : InstId) (slot : Nat)
    (o : Operand) : ∃ text, f.operandText b i slot o = .ok text := by
  cases o with
  | constant c => exact ⟨_, rfl⟩
  | use v =>
    obtain ⟨-, r, -, -, hprobe, -⟩ := h.probe_ok hb v
    simp only [operandText, hprobe]
    cases f.observed? ⟨i, slot⟩ with
    | some d => exact ⟨_, rfl⟩
    | none => exact ⟨_, rfl⟩

theorem Sound.printedInst_ok (h : f.Sound) (hb : b ∈ f.blocks) (i : InstId) :
    ∃ text, f.printedInst b i = .ok text := by
  obtain ⟨ops, hops⟩ : ∃ ops, (f.inst i).operands.zipIdx.mapM
      (fun e => f.operandText b i e.2 e.1) = .ok ops :=
    exists_mapM fun e _ => h.operandText_ok hb i e.2 e.1
  simp only [printedInst, hops]
  cases (f.inst i).dest with
  | none => cases (f.inst i).op <;> exact ⟨_, rfl⟩
  | some d =>
    rw [Option.bind_some]
    cases hid : f.timelineId? b d.var with
    | none => cases (f.inst i).op <;> exact ⟨_, rfl⟩
    | some t =>
      cases (f.inst i).op with
      | phi =>
        simp only [h.incomingValues_eq hid]
        exact ⟨_, rfl⟩
      | _ => exact ⟨_, rfl⟩

theorem Sound.printBlock_ok (h : f.Sound) (hb : b ∈ f.blocks) (level : Nat) (title : String) :
    ∃ text, f.printBlock level title b = .ok text := by
  obtain ⟨insts, hinsts⟩ : ∃ insts, (f.blockAt b).instructions.mapM (fun i => do
      return printLine (level + 1) (← f.printedInst b i)) = .ok insts := by
    refine exists_mapM fun i _ => ?_
    obtain ⟨text, htext⟩ := h.printedInst_ok hb i
    exact ⟨_, by rw [htext]; rfl⟩
  rw [printBlock, h.plainJoins_text, hinsts]
  exact ⟨_, rfl⟩

end Func

mutual
theorem printComponent_ok (level : Nat) : (c : Component) →
    (∀ b ∈ c.blocks, ∀ level title, ∃ text, f.printBlock level title b = .ok text) →
      ∃ text, f.printComponent level c = .ok text
  | .block b, h => h b (by simp [Component.blocks]) level ""
  | .seq _ elements, h => by
    obtain ⟨x, hx⟩ := printElements_ok (level + 1) elements
      fun b hb => h b (by simpa [Component.blocks] using hb)
    exact ⟨_, by rw [printComponent, hx]; rfl⟩
  | .fork _ cond cases, h => by
    obtain ⟨x, hx⟩ := h cond (by simp [Component.blocks]) (level + 1) "cond "
    obtain ⟨y, hy⟩ := printCases_ok (level + 1) 0 cases
      fun b hb => h b (by simp [Component.blocks, hb])
    exact ⟨_, by rw [printComponent, hx, hy]; rfl⟩
  | .loop _ start cond body update after, h => by
    obtain ⟨s, hs⟩ := printComponent_ok (level + 2) start
      fun b hb => h b (by simp [Component.blocks, hb])
    obtain ⟨c, hc⟩ := h cond (by simp [Component.blocks]) (level + 1) "cond "
    obtain ⟨x, hx⟩ := printComponent_ok (level + 2) body
      fun b hb => h b (by simp [Component.blocks, hb])
    obtain ⟨u, hu⟩ := printComponent_ok (level + 2) update
      fun b hb => h b (by simp [Component.blocks, hb])
    obtain ⟨a, ha⟩ := h after (by simp [Component.blocks]) (level + 1) "after "
    exact ⟨_, by rw [printComponent, hs, hc, hx, hu, ha]; rfl⟩

theorem printElements_ok (level : Nat) : (cs : List Component) →
    (∀ b ∈ Component.blocksAll cs, ∀ level title, ∃ text, f.printBlock level title b = .ok text) →
      ∃ text, f.printElements level cs = .ok text
  | [], _ => ⟨_, rfl⟩
  | c :: cs, h => by
    obtain ⟨x, hx⟩ := printComponent_ok level c
      fun b hb => h b (by simp [Component.blocksAll, hb])
    obtain ⟨y, hy⟩ := printElements_ok level cs
      fun b hb => h b (by simp [Component.blocksAll, hb])
    exact ⟨_, by rw [printElements, hx, hy]; rfl⟩

theorem printCases_ok (level index : Nat) : (cs : List Component) →
    (∀ b ∈ Component.blocksAll cs, ∀ level title, ∃ text, f.printBlock level title b = .ok text) →
      ∃ text, f.printCases level index cs = .ok text
  | [], _ => ⟨_, rfl⟩
  | c :: cs, h => by
    obtain ⟨x, hx⟩ := printComponent_ok (level + 1) c
      fun b hb => h b (by simp [Component.blocksAll, hb])
    obtain ⟨y, hy⟩ := printCases_ok level (index + 1) cs
      fun b hb => h b (by simp [Component.blocksAll, hb])
    exact ⟨_, by rw [printCases, hx, hy]; rfl⟩
end

theorem Func.Sound.print_ok (h : f.Sound) : ∃ text, f.print = .ok text := by
  obtain ⟨x, hx⟩ :=
      printComponent_ok 1 f.body fun b hb level title => h.printBlock_ok hb level title
  exact ⟨_, by rw [Func.print, hx]; rfl⟩

theorem Func.CanonicalJoins.print_ok (h : f.CanonicalJoins) : ∃ text, f.print =
    .ok text := h.sound.print_ok

/-! ## Names -/

namespace Func.Keeps

theorem varAt (h : Keeps f g) (v : VarId) : g.varAt v = f.varAt v := by
  rw [Func.varAt, Func.varAt, var?.eq_def, var?.eq_def, h.vars]

theorem varText (h : Keeps f g) (v : VarId) : g.varText v = f.varText v := by
  rw [Func.varText, Func.varText, h.varAt]

theorem defText (h : Keeps f g) (d : Def) : g.defText d = f.defText d := by
  rw [Func.defText, Func.defText, h.varText]

theorem destText (h : Keeps f g) (i : InstId) : g.destText i = f.destText i := by
  rw [Func.destText, Func.destText, h.inst]
  cases (f.inst i).dest with
  | none => rfl
  | some d => exact h.defText d

theorem sightText (h : Keeps f g) (x : Sight) : g.sightText v x = f.sightText v x := by
  cases x with
  | nothing => rfl
  | definition i => exact h.destText i
  | join b => rw [Func.sightText, Func.sightText, h.varText, Func.label, Func.label, h.label]
  | unbuilt b => rw [Func.sightText, Func.sightText, Func.label, Func.label, h.label]

end Func.Keeps

/-! ## Alike functions print alike -/

namespace Alike

variable (h : Alike f g)

include h

theorem label (b : NodeId) : g.label b = f.label b := h.keeps.label b

theorem varText (v : VarId) : g.varText v = f.varText v := h.keeps.varText v

theorem destText (i : InstId) : g.destText i = f.destText i := h.keeps.destText i

theorem sightText (x : Sight) : g.sightText v x = f.sightText v x := h.keeps.sightText x

theorem feedsText (hf : f.CanonicalJoins) (hg : g.CanonicalJoins) (b : NodeId) (v : VarId) :
    g.feedsText b v = f.feedsText b v := by
  rw [Func.feedsText, Func.feedsText,
    h.feedBlocks hf.sound.nodesFresh hg.sound.nodesFresh hf.ordered hg.ordered]
  simp only [h.label, h.sightText, h.sightFrom]

theorem plainVars (hf : f.CanonicalJoins) (hg : g.CanonicalJoins) (b : NodeId) : g.plainVars b =
    f.plainVars b := by
  have hft := hf.sound.nodesFresh.searchable.tables
  have hgt := hg.sound.nodesFresh.searchable.tables
  have hcode : g.code b = f.code b := h.keeps.instructions b
  refine List.Perm.eq_of_pairwise (fun _ _ _ _ h1 h2 => absurd h1 (Nat.lt_asymm h2))
    (hgt.plainVars_sorted b) (hft.plainVars_sorted b) ?_
  rw [List.perm_ext_iff_of_nodup ((hgt.plainVars_sorted b).imp Nat.ne_of_lt)
    ((hft.plainVars_sorted b).imp Nat.ne_of_lt)]
  intro v
  rw [hft.mem_plainVars, hgt.mem_plainVars, ne_eq, ne_eq, h.joined, hcode, h.keeps.phiCount]
  simp only [h.keeps.inst]

theorem operandText (hf : f.CanonicalJoins) (hg : g.CanonicalJoins) (hb : b ∈ f.blocks)
    (i : InstId) (slot : Nat)
    (o : Operand) : g.operandText b i slot o = f.operandText b i slot o := by
  cases o with
  | constant c => rfl
  | use v =>
    obtain ⟨s, r, hs, hr, hprobe, htext⟩ := hf.sound.probe_ok hb v
    obtain ⟨s', r', hs', hr', hprobe', htext'⟩ := hg.sound.probe_ok (h.keeps.blocks ▸ hb) v
    obtain ⟨q, q', hq, hq', hsight⟩ := h.sight_of_solution hf.sound.nodesFresh hg.sound.nodesFresh
      hf.thrifty hg.thrifty hb hs hs'
    cases hr.symm.trans hq
    cases hr'.symm.trans hq'
    simp only [Func.operandText, h.keeps.observed? h.held, h.destText, hprobe, hprobe']
    cases f.observed? ⟨i, slot⟩ with
    | some d => rfl
    | none =>
      show Except.ok (g.resolvedText r') = Except.ok (f.resolvedText r)
      rw [htext, htext', h.sightText, hsight]

/-- A phi defines its variable, so its block has a timeline for it. -/
theorem printedInst (hf : f.CanonicalJoins) (hg : g.CanonicalJoins) (hb : b ∈ f.blocks) {i : InstId}
    (hi : i ∈ f.code b) : g.printedInst b i = f.printedInst b i := by
  have hops : (f.inst i).operands.zipIdx.mapM (fun e => g.operandText b i e.2 e.1) =
      (f.inst i).operands.zipIdx.mapM (fun e => f.operandText b i e.2 e.1) :=
    mapM_congr fun e _ => h.operandText hf hg hb i e.2 e.1
  have htext : g.instText i = f.instText i := by
    simp only [instText, h.keeps.inst, defText, h.varText]
  simp only [Func.printedInst, h.keeps.inst, hops, htext]
  cases hd : (f.inst i).dest with
  | none => cases (f.inst i).op <;> rfl
  | some d =>
    have hdef : ∀ {k : Func}, k.Scheduled → k.code b = f.code b → k.inst i = f.inst i →
        ∃ t, k.timelineId? b d.var = some t := by
      intro k hk hcode hinst
      have hmem : i ∈ k.locals b d.var := by
        rw [hk.locals, hcode, List.mem_filter, defines, hinst, hd]
        exact ⟨hi, by simp⟩
      cases hid : k.timelineId? b d.var with
      | none =>
        rw [locals_of_none hid] at hmem
        cases hmem
      | some t => exact ⟨t, rfl⟩
    obtain ⟨t, hid⟩ := hdef hf.sound.scheduled rfl rfl
    obtain ⟨t', hid'⟩ := hdef hg.sound.scheduled (h.keeps.instructions b) (h.keeps.inst i)
    simp only [Option.bind_some, hid, hid']
    cases (f.inst i).op with
    | phi =>
      simp only [hf.sound.incomingValues_eq hid, hg.sound.incomingValues_eq hid', h.feedsText hf hg]
    | _ => rfl

theorem printBlock (hf : f.CanonicalJoins) (hg : g.CanonicalJoins) (hb : b ∈ f.blocks) (level : Nat)
    (title : String) : g.printBlock level title b = f.printBlock level title b := by
  have hinsts : (f.blockAt b).instructions.mapM (fun i => do
        return printLine (level + 1) (← g.printedInst b i)) =
      (f.blockAt b).instructions.mapM (fun i => do
        return printLine (level + 1) (← f.printedInst b i)) := by
    refine mapM_congr fun i hi => ?_
    rw [h.printedInst hf hg hb hi]
  rw [Func.printBlock, Func.printBlock, hf.sound.plainJoins_text, hg.sound.plainJoins_text,
    h.plainVars hf hg, h.keeps.instructions, hinsts, h.label]
  simp only [h.sightText, h.feedsText hf hg]

end Alike

/-! ## Trees -/

mutual
theorem printComponent_congr (level : Nat) : (c : Component) →
    (∀ b ∈ c.blocks, ∀ level title, g.printBlock level title b = f.printBlock level title b) →
      g.printComponent level c = f.printComponent level c
  | .block b, h => h b (by simp [Component.blocks]) level ""
  | .seq _ elements, h => by
    simp only [printComponent,
      printElements_congr (level + 1) elements fun b hb => h b
          (by simpa [Component.blocks] using hb)]
  | .fork _ cond cases, h => by
    simp only [printComponent, h cond (by simp [Component.blocks]),
      printCases_congr (level + 1) 0 cases fun b hb => h b (by simp [Component.blocks, hb])]
  | .loop _ start cond body update after, h => by
    simp only [printComponent, h cond (by simp [Component.blocks]),
      h after (by simp [Component.blocks]),
      printComponent_congr (level + 2) start fun b hb => h b (by simp [Component.blocks, hb]),
      printComponent_congr (level + 2) body fun b hb => h b (by simp [Component.blocks, hb]),
      printComponent_congr (level + 2) update fun b hb => h b (by simp [Component.blocks, hb])]

theorem printElements_congr (level : Nat) : (cs : List Component) →
    (∀ b ∈ Component.blocksAll cs, ∀ level title,
      g.printBlock level title b = f.printBlock level title b) →
      g.printElements level cs = f.printElements level cs
  | [], _ => rfl
  | c :: cs, h => by
    simp only [printElements,
      printComponent_congr level c fun b hb => h b (by simp [Component.blocksAll, hb]),
      printElements_congr level cs fun b hb => h b (by simp [Component.blocksAll, hb])]

theorem printCases_congr (level index : Nat) : (cs : List Component) →
    (∀ b ∈ Component.blocksAll cs, ∀ level title,
      g.printBlock level title b = f.printBlock level title b) →
      g.printCases level index cs = f.printCases level index cs
  | [], _ => rfl
  | c :: cs, h => by
    simp only [printCases,
      printComponent_congr (level + 1) c fun b hb => h b (by simp [Component.blocksAll, hb]),
      printCases_congr level (index + 1) cs fun b hb => h b (by simp [Component.blocksAll, hb])]
end

theorem Alike.print (h : Alike f g) (hf : f.CanonicalJoins) (hg : g.CanonicalJoins) :
    g.print = f.print := by
  have hsig : ∀ vars, g.signatureText vars = f.signatureText vars := by
    intro vars
    simp only [signatureText, h.keeps.varAt]
  rw [Func.print, Func.print, h.keeps.name, h.keeps.args, h.keeps.returns, hsig, hsig, h.keeps.body,
    printComponent_congr 1 f.body fun b hb level title => h.printBlock hf hg hb level title]

/-! ## The order of questions -/

theorem Asked.canonicalJoins {Q : NodeId → VarId → Prop} (h : Asked f Q g) (ht : f.Tables)
    (ho : f.Ordered) : g.CanonicalJoins :=
  ⟨h.sound, h.thrifty, h.refines.ordered ht ho⟩

/-- Asking the same questions in any order and however often leads to the same joins, with
the same values from the same predecessors, to the same observed definitions and to the same
text. After every waiting use has been resolved no use makes a node. -/
theorem questions_in_any_order (hf : f.Unjoined) (hl : f.Listed)
    {qs qs' : List (ComponentRef × Variable)}
    (hown : ∀ q ∈ qs ++ qs', q.1.owner = f.handle ∧ q.2.owner = f.handle ∧ q.1.id ∈ f.blocks)
    (hsame : ∀ b v, Asks qs b v ↔ Asks qs' b v) :
    ∃ rs g rs' g', Edit.resolveEach qs f = .ok rs g ∧ Edit.resolveEach qs' f = .ok rs' g' ∧
      (∀ b v, g'.feedBlocks b v = g.feedBlocks b v) ∧
      (∀ b ∈ f.blocks, ∀ v u, f.UsedAt b v u → ∃ r k r' k', Edit.reachingDef u g = .ok r k ∧
        Edit.reachingDef u g' = .ok r' k' ∧ k'.sightOf r' = k.sightOf r) ∧
      (∃ text, g.print = .ok text ∧ g'.print = .ok text) ∧
      ∃ n k, Edit.resolveAll g = .ok n k ∧ ∀ b ∈ f.blocks, ∀ v u, f.UsedAt b v u →
        ∃ r k', Edit.reachingDef u k = .ok r k' ∧ k'.incoming = k.incoming := by
  have hnone : ∀ b v, f.joinNodes b v = [] := hf.tables.joinNodes_of_no_nodes hf.nodes
  have start := Asked.nothing hf.sound fun {b v} hne => absurd (hnone b v) hne
  have hordered : f.Ordered := fun {b v} hne => absurd (hnone b v) hne
  obtain ⟨rs, g, hrun, hg⟩ := start.resolveEach hf.forest qs
    fun q hq => hown q (List.mem_append_left _ hq)
  obtain ⟨rs', g', hrun', hg'⟩ := start.resolveEach hf.forest qs'
    fun q hq => hown q (List.mem_append_right _ hq)
  have hg' := hg'.congr fun b v => or_congr_right (hsame b v).symm
  have halike := hg.alike hg'
  have hcanonical := hg.canonicalJoins hf.tables hordered
  have hcanonical' := hg'.canonicalJoins hf.tables hordered
  refine ⟨rs, g, rs', g', hrun, hrun', fun b v => ?_, fun b hb v u hu => ?_, ?_, ?_⟩
  · exact halike.feedBlocks hg.sound.nodesFresh hg'.sound.nodesFresh hcanonical.ordered
        hcanonical'.ordered
  · exact hg.reachingDef hg' hf.forest hb hu
  · obtain ⟨text, htext⟩ := hcanonical.print_ok
    exact ⟨text, htext, (halike.print hcanonical hcanonical').trans htext⟩
  · obtain ⟨n, k, P, hall, hk, hP⟩ := hg.resolveAll hf.forest
    refine ⟨n, k, hall, fun b hb v u hu => ?_⟩
    obtain ⟨r, m, hr⟩ := hk.reachingDef_again hb hu fun hn =>
      hP b hb v (List.ne_nil_of_mem (hl hu hn))
    exact ⟨r, _, hr, rfl⟩

/-- Asking behind a fork with a definition in one branch, and in that branch, in either order. -/
theorem questions_in_any_order_behind_fork : ∃ i f rs g rs' g',
    Edit.appendInst 5 .undef (some ⟨0, 1, "x", .bool, 0⟩) [] diamond = .ok i f ∧
    Edit.resolveEach [(⟨0, 7, .block, "end"⟩, ⟨0, 1, "x", .bool, 0⟩),
      (⟨0, 6, .block, "right"⟩, ⟨0, 1, "x", .bool, 0⟩)] f = .ok rs g ∧
    Edit.resolveEach [(⟨0, 6, .block, "right"⟩, ⟨0, 1, "x", .bool, 0⟩),
      (⟨0, 7, .block, "end"⟩, ⟨0, 1, "x", .bool, 0⟩),
      (⟨0, 6, .block, "right"⟩, ⟨0, 1, "x", .bool, 0⟩)] f = .ok rs' g' ∧
    (∀ b v, g'.feedBlocks b v = g.feedBlocks b v) ∧
    ∃ text, g.print = .ok text ∧ g'.print = .ok text := by
  obtain ⟨i, f, happend, hnodes, hinsts⟩ : ∃ i f,
    Edit.appendInst 5 .undef (some ⟨0, 1, "x", .bool, 0⟩) [] diamond = .ok i f ∧
      f.incoming = .empty ∧ f.insts = Arena.empty.push ⟨.undef, some 5, 0, [], some ⟨1, 1⟩⟩ :=
    ⟨_, _, rfl, rfl, rfl⟩
  have hin : 5 ∈ diamond.blocks := by decide
  obtain ⟨hsound, hsame⟩ := appendInst_ok diamond_unjoined.sound hin happend
  have hf : f.Unjoined := {
    forest := hsound.nodesFresh.searchable.forest
    enters := hsound.nodesFresh.searchable.enters
    tables := hsound.nodesFresh.searchable.tables
    scheduled := hsound.scheduled
    unfrozen := hsound.nodesFresh.searchable.unfrozen
    memo := hsound.nodesFresh.searchable.memo
    nodes := fun n => by rw [hnodes, Arena.get?_empty] }
  have hl : f.Listed := by
    intro b v u hu _
    have hop := hu.operand
    rw [Func.inst, hinsts, Arena.get?_push, Arena.get?_empty] at hop
    split at hop <;> cases hop
  obtain ⟨rs, g, rs', g', hrun, hrun', hfeeds, -, hprint, -⟩ := @questions_in_any_order _ hf hl
    [(⟨0, 7, .block, "end"⟩, ⟨0, 1, "x", .bool, 0⟩),
      (⟨0, 6, .block, "right"⟩, ⟨0, 1, "x", .bool, 0⟩)]
    [(⟨0, 6, .block, "right"⟩, ⟨0, 1, "x", .bool, 0⟩),
      (⟨0, 7, .block, "end"⟩, ⟨0, 1, "x", .bool, 0⟩),
      (⟨0, 6, .block, "right"⟩, ⟨0, 1, "x", .bool, 0⟩)]
    (by rw [hsame.handle, hsame.blocks]; decide)
    (fun b v => by simp only [Asks, List.mem_cons, List.not_mem_nil, or_false]; aesop)
  exact ⟨i, f, rs, g, rs', g', happend, hrun, hrun', hfeeds, hprint⟩

end

end DefFlow.Flow
