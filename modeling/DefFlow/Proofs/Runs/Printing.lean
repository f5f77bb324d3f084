import DefFlow.Proofs.Runs.Observers
import DefFlow.Proofs.Runs.Printed

/-!
# What has been resolved is printed

Printing asks by probes and builds nothing. Main statement: after every waiting use has been
resolved, each use is printed as the definition that it observes, and each join and phi with what
leaves the timelines that its nodes are bound to.
-/

set_option autoImplicit false

namespace DefFlow.Flow

open Func

section

variable {f g k : Func} {b c : NodeId} {v : VarId} {r : Resolution} {t : TimelineId} {u : UseSite}
  {Q : NodeId → VarId → Prop}

/-! ## Joins that are seen and there -/

namespace Func

def SeesBuilt (f : Func) (v : VarId) (b : NodeId) : Prop :=
  ∀ c, f.view v b = .join c → f.joinNodes c v ≠ []

theorem Tells.join (h : f.Tells v b r) (ht : f.Tables) (hr : Edit.reachingOf f r = .join t) :
    ∃ c, f.timelineId? c v = some t ∧ f.joinNodes c v ≠ [] := by
  cases r with
  | undefined => cases hr
  | join j => exact h.names.elim
  | top s =>
    obtain ⟨c, hc⟩ := h.names
    cases hr
    exact ⟨c, (ht.joinNodes_of_joined? hc).symm⟩
  | timeline s =>
    obtain ⟨-, c, hc⟩ := h.names
    have hid := timelineId?_of_explicit? hc
    obtain rfl := leaving_join hr
    refine ⟨c, hid, fun hnil => ?_⟩
    have hlocals : f.locals c v = [] := by
      have hleaving : Edit.leaving f t = .join t := hr
      rw [ht.locals_eq hid, List.map_eq_nil_iff, ← List.getLast?_eq_none_iff]
      rw [Edit.leaving] at hleaving
      split at hleaving
      · cases hleaving
      · assumption
    rw [ht.explicit?_eq, if_pos ⟨hlocals, hnil⟩] at hc
    cases hc

theorem Tells.seesBuilt (h : f.Tells v b r) (ht : f.Tables) : f.SeesBuilt v b := by
  intro c hc
  have hsight := h.sight.trans hc
  cases hr : Edit.reachingOf f r with
  | undefined =>
    rw [hr] at hsight
    cases hsight
  | defined i =>
    rw [hr] at hsight
    cases hsight
  | join t =>
    obtain ⟨d, hid, hne⟩ := h.join ht hr
    rw [hr, sightOf, ht.block_eq hid] at hsight
    cases hsight
    exact hne

/-- What is printed for an answer is what the block sees. -/
theorem Tells.reachingText (h : f.Tells v b r) (ht : f.Tables) :
    f.reachingText (Edit.reachingOf f r) = f.sightText v (f.view v b) := by
  rw [← h.sight]
  refine reachingText_eq fun t hr => ?_
  obtain ⟨c, hid, -⟩ := h.join ht hr
  exact ht.var_eq hid

/-- A use that no definition of its block answers waits there. -/
theorem WellFormed.listed (h : f.WellFormed) : f.Listed := by
  intro b v u hu hn
  have hmem := h.mem_uses hu
  rw [← h.observed? hu, hn] at hmem
  exact hmem

end Func

theorem Refines.joined (h : Refines f g) (hne : f.joinNodes b v ≠ []) : g.joinNodes b v ≠ [] := by
  rcases h.joins b v with he | hnew
  · rwa [he]
  · exact hnew.some_after

theorem Func.SeesBuilt.later (h : f.SeesBuilt v b) (hr : Refines f g) (ha : Answers f g)
    (hb : b ∈ f.blocks) : g.SeesBuilt v b := by
  intro c hc
  rw [ha.view v hb] at hc
  exact hr.joined (h c hc)

/-! ## Asking for every use -/

structure Met (f : Func) (Q : NodeId → VarId → Prop) (g : Func) : Prop where
  sound : g.Sound
  refines : Refines f g
  answers : Answers f g
  seen : ∀ {b v}, b ∈ f.blocks → Q b v → g.SeesBuilt v b

theorem Met.tracks (hf : f.Forest) : Tracks f (Met f) where
  refines h := h.refines
  congr h hQ := ⟨h.sound, h.refines, h.answers, fun hb hq => h.seen hb ((hQ _ _).mpr hq)⟩
  ask := by
    intro Q g b h hb v
    have hblocks := h.answers.keeps.blocks
    have hb' : b ∈ g.blocks := hblocks.symm ▸ hb
    obtain ⟨s, g', hrun, ha, r, -, htells⟩ := h.answers.ready.stackAt hb' v
    obtain ⟨hsound, hr⟩ := stackAt_sound h.sound hb' hrun
    refine ⟨s, g', hrun, ⟨hsound, h.refines.trans hf hr, h.answers.trans ha, ?_⟩, hr⟩
    rintro c w hc (hq | ⟨rfl, rfl⟩)
    · exact (h.seen hc hq).later hr ha (hblocks.symm ▸ hc)
    · exact htells.seesBuilt hr.tables

/-- After every waiting use has been resolved, the joins that uses see are there. -/
theorem Func.Sound.resolveAll (h : f.Sound) (hr : f.Ready) : ∃ n g,
    Edit.resolveAll f = .ok n g ∧ Met f (fun b v => b ∈ f.blocks ∧ f.waiting b v ≠ []) g := by
  have htracks := Met.tracks hr.forest
  have hstart : Met f (fun _ _ => False) f :=
    ⟨h, .refl hr.tables, .refl hr, fun _ hq => hq.elim⟩
  obtain ⟨n, g, hrun, hg⟩ := htracks.askEverywhere hstart hr.forest
  exact ⟨n, g, hrun, htracks.congr hg fun _ _ => iff_of_eq (false_or _)⟩

/-! ## What is printed -/

namespace Func

/-- A probe names the join that its block sees, if that is there. -/
theorem Ready.probe (h : f.Ready) (hb : b ∈ f.blocks) (hseen : f.SeesBuilt v b) :
    ∃ r, f.probe b v = .ok r ∧ f.resolvedText r = f.sightText v (f.view v b) := by
  obtain ⟨s, hs, hsol, hfine⟩ := solve_finest h.forest.net (Solution.placed h.tables) (v := v) hb
  obtain ⟨r, hr, htells | ⟨c, -, hview, hnone⟩⟩ := hsol.tells_or_unbuilt h.forest h.tables hb hfine
  · refine ⟨r, ?_, ?_⟩
    · rw [Func.probe, probeStack, h.resolvable hb]
      show (do let s ← f.solve b v; s.resolution f) = _
      rw [hs]
      exact hr
    · rw [← htells.reachingText h.tables]
      cases r with
      | join c => exact htells.names.elim
      | _ => rfl
  · exact absurd (h.tables.joined?_eq_none.mp hnone) (hseen c hview)

/-- A use whose block sees no join but one that is there is printed as what it observes. -/
theorem Ready.operandText (h : f.Ready) (hb : b ∈ f.blocks) (hu : f.UsedAt b v u)
    (hseen : f.observed? u = none → f.SeesBuilt v b) : ∃ r g, Edit.reachingDef u f = .ok r g ∧
      f.operandText b u.inst u.slot (.use v) = .ok (g.reachingText r) := by
  cases hi : f.observed? u with
  | some i =>
    refine ⟨.defined i, f, reachingDef_of_observed hu hi, ?_⟩
    simp only [Func.operandText, hi]
    rfl
  | none =>
    obtain ⟨q, hprobe, htext⟩ := h.probe hb (hseen hi)
    obtain ⟨r, g, hrun, ha, htells⟩ := h.resolveAt hb v
    refine ⟨_, g, reachingDef_eq hu hrun hi, ?_⟩
    rw [htells.reachingText ha.ready.tables, ha.view v hb, ha.keeps.sightText, ← htext]
    simp only [Func.operandText, hi, hprobe]
    rfl

def observedText (f : Func) (u : UseSite) : String :=
  match Edit.reachingDef u f with
  | .ok r g => g.reachingText r
  | .error _ _ => ""

def shownOperand (f : Func) (i : InstId) : Operand × Nat → String
  | (.constant c, _) => c.text
  | (.use _, slot) => f.observedText ⟨i, slot⟩

/-- An instruction, its uses shown as the definitions that they observe. -/
def shownInst (f : Func) (b : NodeId) (i : InstId) : String :=
  let x := f.inst i
  let incoming := match x.op, x.dest.bind fun d => f.timelineId? b d.var with
    | .phi, some t => " " ++ f.nodesText t
    | _, _ => ""
  let operands := x.operands.zipIdx.map (f.shownOperand i)
  let operands := if operands.isEmpty then "" else " " ++ ", ".intercalate operands
  f.instText i ++ incoming ++ operands

def shownBlock (f : Func) (level : Nat) (title : String) (b : NodeId) : String :=
  let joins := (f.plainJoins b).map fun t =>
    printLine (level + 1) (f.reachingText (.join t) ++ " = join " ++ f.nodesText t)
  let insts := (f.blockAt b).instructions.map fun i => printLine (level + 1) (f.shownInst b i)
  printLine level (title ++ "block " ++ f.label b ++ " \x7b") ++ String.join joins ++
    String.join insts ++ printLine level "\x7d"

end Func

def Func.ShowsUses (f : Func) (b : NodeId) : Prop :=
  ∀ v u, f.UsedAt b v u → ∃ r g, Edit.reachingDef u f = .ok r g ∧
    f.operandText b u.inst u.slot (.use v) = .ok (g.reachingText r)

theorem printedInst_shown (h : f.Sound) (huses : f.ShowsUses b) {i : InstId}
    (hi : (f.inst i).block = some b) : f.printedInst b i = .ok (f.shownInst b i) := by
  have hops : (f.inst i).operands.zipIdx.mapM (fun e => f.operandText b i e.2 e.1) =
      .ok ((f.inst i).operands.zipIdx.map (f.shownOperand i)) := by
    refine mapM_ok fun e he => ?_
    obtain ⟨o, slot⟩ := e
    cases o with
    | constant c => rfl
    | use v =>
      have hslot := (List.mem_zipIdx_iff_getElem?.mp he)
      obtain ⟨r, g, hrun, htext⟩ := huses v ⟨i, slot⟩ ⟨hi, hslot⟩
      rw [shownOperand, observedText, hrun]
      exact htext
  simp only [printedInst, hops, shownInst]
  cases hd : (f.inst i).dest.bind fun d => f.timelineId? b d.var with
  | none => cases (f.inst i).op <;> rfl
  | some t =>
    cases (f.inst i).op with
    | phi =>
      obtain ⟨d, -, hid⟩ := Option.bind_eq_some_iff.mp hd
      simp only [h.incomingValues_ok hid]
      rfl
    | _ => rfl

theorem printBlock_shown (h : f.Sound) (huses : f.ShowsUses b) (level : Nat) (title : String) :
    f.printBlock level title b = .ok (f.shownBlock level title b) := by
  have hjoins : ((f.plainJoins b).mapM fun t => do
      return printLine (level + 1)
        (f.reachingText (.join t) ++ " = join " ++ (← f.incomingValues t))) =
      .ok ((f.plainJoins b).map fun t =>
        printLine (level + 1) (f.reachingText (.join t) ++ " = join " ++ f.nodesText t)) := by
    refine mapM_ok fun t ht => ?_
    obtain ⟨e, he, rfl⟩ := List.mem_map.mp ht
    have hid := lookup_of_mem (h.nodesFresh.searchable.tables.keys b) (List.mem_filter.mp he).1
    rw [h.incomingValues_ok hid]
    rfl
  have hinsts : (f.blockAt b).instructions.mapM (fun i => do
        return printLine (level + 1) (← f.printedInst b i)) =
      .ok ((f.blockAt b).instructions.map fun i => printLine (level + 1) (f.shownInst b i)) := by
    refine mapM_ok fun i hi => ?_
    obtain ⟨n, hn⟩ := List.mem_iff_getElem?.mp hi
    obtain ⟨x, hx, hblock, -⟩ := h.scheduled.place hn
    rw [printedInst_shown h huses (by rw [Func.inst, hx]; exact hblock)]
    rfl
  rw [printBlock, hjoins, hinsts]
  rfl

/-! ## Where a block is printed -/

def Contains (text part : String) : Prop := ∃ before after, text = before ++ part ++ after

section

variable {part inner x y : String}

theorem Contains.refl (x : String) : Contains x x := ⟨"", "", by simp⟩

theorem Contains.trans (h : Contains x y) (h' : Contains y part) : Contains x part := by
  obtain ⟨s, t, rfl⟩ := h
  obtain ⟨s', t', rfl⟩ := h'
  exact ⟨s ++ s', t' ++ t, by simp only [String.append_assoc]⟩

theorem Contains.append_right (h : Contains x part) (y : String) : Contains (x ++ y) part :=
  .trans ⟨"", y, by simp⟩ h

theorem Contains.append_left (h : Contains y part) (x : String) : Contains (x ++ y) part :=
  .trans ⟨x, "", by simp⟩ h

theorem Contains.nested (h : Contains inner part) (level : Nat) (title : String) :
    Contains (printNested level title inner) part :=
  (h.append_left _).append_right _

end

def Func.BlockIn (f : Func) (b : NodeId) (text : String) : Prop :=
  ∃ level title part, f.printBlock level title b = .ok part ∧ Contains text part

theorem Func.BlockIn.within {text part : String} (h : f.BlockIn b part) (ht : Contains text part) :
    f.BlockIn b text := by
  obtain ⟨level, title, block, hblock, hpart⟩ := h
  exact ⟨level, title, block, hblock, ht.trans hpart⟩

mutual
theorem printComponent_blocks (level : Nat) : (c : Component) → {text : String} →
    f.printComponent level c = .ok text → ∀ b ∈ c.blocks, f.BlockIn b text
  | .block b, text, h, b', hb' => by
    obtain rfl : b' = b := by simpa [Component.blocks] using hb'
    exact ⟨level, "", text, h, .refl text⟩
  | .seq _ elements, text, h, b, hb => by
    rw [printComponent] at h
    obtain ⟨x, hx, h⟩ := of_bind_ok h
    cases h
    have hin := printElements_blocks (level + 1) elements hx b
        (by simpa [Component.blocks] using hb)
    exact hin.within ((Contains.refl x).nested level "seq")
  | .fork _ cond cases, text, h, b, hb => by
    rw [printComponent] at h
    obtain ⟨x, hx, h⟩ := of_bind_ok h
    obtain ⟨y, hy, h⟩ := of_bind_ok h
    cases h
    rcases List.mem_cons.mp (by simpa [Component.blocks] using hb) with rfl | hb
    · exact ⟨level + 1, "cond ", x, hx, ((Contains.refl x).append_right y).nested level "fork"⟩
    · have hin := printCases_blocks (level + 1) 0 cases hy b hb
      exact hin.within (((Contains.refl y).append_left x).nested level "fork")
  | .loop _ start cond body update after, text, h, b, hb => by
    rw [printComponent] at h
    obtain ⟨s, hs, h⟩ := of_bind_ok h
    obtain ⟨c, hc, h⟩ := of_bind_ok h
    obtain ⟨x, hx, h⟩ := of_bind_ok h
    obtain ⟨u, hu, h⟩ := of_bind_ok h
    obtain ⟨a, ha, h⟩ := of_bind_ok h
    cases h
    have hs' := (Contains.refl s).nested (level + 1) "start"
    have hx' := (Contains.refl x).nested (level + 1) "body"
    have hu' := (Contains.refl u).nested (level + 1) "update"
    simp only [Component.blocks, List.mem_append, List.mem_cons, List.not_mem_nil, or_false] at hb
    rcases hb with ((hb | rfl | hb) | hb) | rfl
    · exact (printComponent_blocks (level + 2) start hs b hb).within <|
        ((((hs'.append_right c).append_right _).append_right _).append_right a).nested level "loop"
    · exact ⟨level + 1, "cond ", c, hc, (((((Contains.refl c).append_left _).append_right
        _).append_right _).append_right a).nested level "loop"⟩
    · exact (printComponent_blocks (level + 2) body hx b hb).within <|
        (((hx'.append_left _).append_right _).append_right a).nested level "loop"
    · exact (printComponent_blocks (level + 2) update hu b hb).within <|
        ((hu'.append_left _).append_right a).nested level "loop"
    · exact ⟨level + 1, "after ", a, ha, ((Contains.refl a).append_left _).nested level "loop"⟩

theorem printElements_blocks (level : Nat) : (cs : List Component) → {text : String} →
    f.printElements level cs = .ok text → ∀ b ∈ Component.blocksAll cs, f.BlockIn b text
  | [], text, h, b, hb => by simp [Component.blocksAll] at hb
  | c :: cs, text, h, b, hb => by
    rw [printElements] at h
    obtain ⟨x, hx, h⟩ := of_bind_ok h
    obtain ⟨y, hy, h⟩ := of_bind_ok h
    cases h
    rcases List.mem_append.mp (by simpa [Component.blocksAll] using hb) with hb | hb
    · exact (printComponent_blocks level c hx b hb).within ((Contains.refl x).append_right y)
    · exact (printElements_blocks level cs hy b hb).within ((Contains.refl y).append_left x)

theorem printCases_blocks (level index : Nat) : (cs : List Component) → {text : String} →
    f.printCases level index cs = .ok text → ∀ b ∈ Component.blocksAll cs, f.BlockIn b text
  | [], text, h, b, hb => by simp [Component.blocksAll] at hb
  | c :: cs, text, h, b, hb => by
    rw [printCases] at h
    obtain ⟨x, hx, h⟩ := of_bind_ok h
    obtain ⟨y, hy, h⟩ := of_bind_ok h
    cases h
    rcases List.mem_append.mp (by simpa [Component.blocksAll] using hb) with hb | hb
    · exact (printComponent_blocks (level + 1) c hx b hb).within
        (((Contains.refl x).nested level _).append_right y)
    · exact (printCases_blocks level (index + 1) cs hy b hb).within
        ((Contains.refl y).append_left _)
end

/-! ## After every waiting use has been resolved -/

theorem Met.showsUses (h : Met g (fun b v => b ∈ g.blocks ∧ g.waiting b v ≠ []) k)
    (hl : g.Listed) (hb : b ∈ k.blocks) : k.ShowsUses b := by
  have hkeeps := h.refines.keeps
  have hb' : b ∈ g.blocks := hkeeps.blocks ▸ hb
  intro v u hu
  have hu' : g.UsedAt b v u :=
    ⟨by rw [← hkeeps.inst]; exact hu.block, by rw [← hkeeps.inst]; exact hu.operand⟩
  refine h.answers.ready.operandText hb hu fun hnone => h.seen hb' ⟨hb', ?_⟩
  rw [hkeeps.observed? h.refines.held] at hnone
  exact List.ne_nil_of_mem (hl hu' hnone)

/-- Printing leaves a function as it is. After every waiting use has been resolved, each use is
printed as the definition that it observes, and the joins and phis of each block with what leaves
the timelines that their nodes are bound to, in the order of the nodes. -/
theorem printing_observes (hf : Reached f) (hu : f.Unjoined) (hrun : Runs f g) :
    (∃ text, g.print = .ok text) ∧ Request.print.run g = .ok () g ∧
      ∃ n k text, Edit.resolveAll g = .ok n k ∧ k.print = .ok text ∧ ∀ b ∈ k.blocks,
        k.ShowsUses b ∧
        (∀ v, ∀ n ∈ k.joinNodes b v, ∀ t, (k.incomingAt n).target = some t →
          (k.timelineAt t).explicit = true) ∧
        ∃ level title, Contains text (k.shownBlock level title b) := by
  have hs := hrun.sound hu.sound
  have hg := hrun.reached hf
  obtain ⟨before, hbefore⟩ := hs.print_ok
  obtain ⟨n, k, hall, hk⟩ := hs.resolveAll (hg.ready hs.nodesFresh.searchable.unfrozen)
  obtain ⟨text, htext⟩ := hk.sound.print_ok
  refine ⟨⟨before, hbefore⟩, Edit.silent_eq (Edit.ask_eq hbefore), n, k, text, hall, htext,
    fun b hb => ?_⟩
  have huses := hk.showsUses hg.wellFormed.listed hb
  refine ⟨huses, fun v n hn t ht => ?_, ?_⟩
  · obtain ⟨-, -, -, -, hexplicit⟩ := hk.sound.node_target hn ht
    exact hexplicit
  · obtain ⟨tree, htree, hprint⟩ := of_bind_ok htext
    cases hprint
    obtain ⟨level, title, part, hpart, hin⟩ := printComponent_blocks 1 k.body htree b hb
    rw [printBlock_shown hk.sound huses] at hpart
    cases hpart
    exact ⟨level, title, hin.nested 0 _⟩

def printedBranches : List Request :=
  [.addVariable "x" (.int 64), .newBlock "left", .newBlock "right",
    .newFork none [⟨0, 3, .block, "left"⟩, ⟨0, 4, .block, "right"⟩], .newBlock "join",
    .appendElement 2 ⟨0, 6, .fork, ""⟩, .appendElement 2 ⟨0, 7, .block, "join"⟩,
    .appendInst 3 .undef (some ⟨0, 1, "x", .int 64, 0⟩) [],
    .appendInst 4 .print none [.var ⟨0, 1, "x", .int 64, 0⟩],
    .appendInst 7 .print none [.var ⟨0, 1, "x", .int 64, 0⟩]]

theorem printing_observes_phi : ∃ f i g, Reached f ∧ f.Unjoined ∧
    Edit.createPhi 7 ⟨0, 1, "x", .int 64, 0⟩ f = .ok i g ∧ Request.print.run g = .ok () g ∧
    ∃ n k text, Edit.resolveAll g = .ok n k ∧ k.print = .ok text ∧
      k.shownInst 7 i = "%x.2 = phi [left_0: %x.1] [right_1: undef]" ∧
      (∃ level title, Contains text (k.shownBlock level title 7)) := by
  obtain ⟨f, hf, hpass⟩ := Reached.exists_of_requests 0 "f" printedBranches
    (fun f => decide (f.frozen = false ∧ f.incoming.live = [] ∧
      (∀ b ∈ f.entry, f.preds b = []) ∧ 7 ∈ f.blocks) &&
      Edit.passes (Edit.createPhi 7 ⟨0, 1, "x", .int 64, 0⟩) (fun i g =>
        Edit.passes Edit.resolveAll (fun _ k => decide (7 ∈ k.blocks ∧
          k.shownInst 7 i = "%x.2 = phi [left_0: %x.1] [right_1: undef]")) g) f)
    (by decide +kernel)
  rw [Bool.and_eq_true, decide_eq_true_eq] at hpass
  obtain ⟨⟨hu, hn, he, hb⟩, hpass⟩ := hpass
  obtain ⟨i, g, hphi, hpass⟩ := Edit.of_passes hpass
  obtain ⟨n, k, hall, hpass⟩ := Edit.of_passes hpass
  obtain ⟨hb', hshown⟩ := of_decide_eq_true hpass
  have hunjoined := hf.unjoined he hu hn
  obtain ⟨-, hprint, n', k', text, hall', htext, hblocks⟩ :=
    printing_observes hf hunjoined (.single (.createPhi hb hphi))
  cases hall.symm.trans hall'
  obtain ⟨-, -, hin⟩ := hblocks 7 hb'
  exact ⟨f, i, g, hf, hunjoined, hphi, hprint, n, k, text, hall, htext, hshown, hin⟩

end

end DefFlow.Flow
