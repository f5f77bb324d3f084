import DefFlow.Compile
import DefFlow.Proofs.Edits.Flatten
import DefFlow.Proofs.Runs.Printed
import DefFlow.Proofs.Verification.Complete

/-!
# Completing a function

Resolving the waiting uses of a function builds the joins that they want, flattened or not. So
all completions of a function report the same uses, with the same undefined paths.
-/

set_option autoImplicit false

namespace DefFlow.Flow

open Func

def Func.Wanted (f : Func) (v : VarId) (b : NodeId) : Prop :=
  f.Needed v b ∧ ∃ c ∈ f.blocks, f.waiting c v ≠ [] ∧ Sees f.preds (f.Defining v) c b

structure Resembles (f g : Func) : Prop extends SameEdges f g where
  vars : g.vars = f.vars
  label : ∀ b, g.label b = f.label b
  locals : ∀ b v, g.locals b v = f.locals b v
  waiting : ∀ b v, g.waiting b v = f.waiting b v

structure Completes (f g : Func) : Prop extends Resembles f g where
  canonicalJoins : g.CanonicalJoins
  joined : ∀ {b v}, g.joinNodes b v ≠ [] ↔ f.Wanted v b

section

variable {f g g' h : Func} {v : VarId} {b : NodeId}

/-! ## Building what is wanted -/

namespace Resembles

theorem refl (f : Func) : Resembles f f :=
  ⟨⟨rfl, fun _ => rfl⟩, rfl, fun _ => rfl, fun _ _ => rfl, fun _ _ => rfl⟩

theorem trans (r : Resembles f g) (r' : Resembles g h) : Resembles f h where
  toSameEdges := r.toSameEdges.trans r'.toSameEdges
  vars := r'.vars.trans r.vars
  label b := (r'.label b).trans (r.label b)
  locals b v := (r'.locals b v).trans (r.locals b v)
  waiting b v := (r'.waiting b v).trans (r.waiting b v)

theorem defining (r : Resembles f g) : g.Defining v = f.Defining v := by
  funext c
  rw [Defining, Defining, r.locals]

theorem wanted_iff (r : Resembles f g) (hf : f.Forest) (hg : g.Forest) :
    g.Wanted v b ↔ f.Wanted v b := by
  have hsees : ∀ {c}, c ∈ f.blocks →
      (Sees g.preds (g.Defining v) c b ↔ Sees f.preds (f.Defining v) c b) := by
    intro c hc
    rw [r.defining]
    exact r.sees_iff hf hg hc
  have hneeded : b ∈ f.blocks → (g.Needed v b ↔ f.Needed v b) := by
    intro hb
    rw [Needed, Needed, r.defining]
    exact r.meets_iff hf hg hb
  constructor
  · rintro ⟨hn, c, hc, hw, hs⟩
    rw [r.blocks] at hc
    have hb := (r.sees hf hc hs).1
    exact ⟨(hneeded hb).mp hn, c, hc, r.waiting c v ▸ hw, (hsees hc).mp hs⟩
  · rintro ⟨hn, c, hc, hw, hs⟩
    have hs' := (hsees hc).mpr hs
    exact ⟨(hneeded (r.sees hf hc hs').1).mpr hn, c, r.blocks ▸ hc, (r.waiting c v).symm ▸ hw, hs'⟩

end Resembles

theorem Mirrors.resembles (m : Mirrors f g) : Resembles f g where
  toSameEdges := m.toSameEdges
  vars := m.vars
  label b := by rw [Func.label, Func.label, m.blockAt]
  locals := m.sameRecords.locals
  waiting b v := by
    rw [Func.waiting, Func.waiting, m.sameRecords.timeline?]

theorem Refines.resembles (r : Refines f g) : Resembles f g where
  blocks := r.keeps.blocks
  preds _ := congrFun r.keeps.preds _
  vars := r.keeps.vars
  label := r.keeps.label
  locals b v := locals_of_held (r.held b v)
  waiting := r.waiting

/-- Asking the questions of all waiting uses completes a function with no other joins. -/
theorem Resembles.complete (r : Resembles f h) (hf : f.Forest) (hh : h.CanonicalJoins)
    (hj : ∀ {b v}, h.joinNodes b v ≠ [] → f.Wanted v b) :
    ∃ n g, Edit.resolveAll h = .ok n g ∧ Completes f g := by
  have hforest := hh.sound.nodesFresh.searchable.forest
  obtain ⟨n, g, hrun, hg⟩ := (Asked.nothing hh.sound hh.thrifty).askEverywhere hforest
  refine ⟨n, g, hrun, r.trans hg.refines.resembles, ⟨hg.sound, hg.thrifty,
    hg.refines.ordered hh.sound.nodesFresh.searchable.tables hh.ordered⟩, fun {b v} => ?_⟩
  have hiff : g.joinNodes b v ≠ [] ↔ h.joinNodes b v ≠ [] ∨ h.Wanted v b := by
    rw [hg.joined, Wanted]
    simp only [false_or, and_assoc]
  rw [hiff, r.wanted_iff hf hforest]
  exact or_iff_right_of_imp hj

theorem Mirrors.unjoined (m : Mirrors f g) (hg : g.Sound) (hf : f.Unjoined) : g.Unjoined where
  forest := hg.nodesFresh.searchable.forest
  enters := hg.nodesFresh.searchable.enters
  tables := hg.nodesFresh.searchable.tables
  scheduled := hg.scheduled
  unfrozen := hg.nodesFresh.searchable.unfrozen
  memo := hg.nodesFresh.searchable.memo
  nodes n := by rw [m.incoming, hf.nodes]

theorem Func.Unjoined.canonicalJoins (hf : f.Unjoined) : f.CanonicalJoins where
  sound := hf.sound
  thrifty hne := absurd (hf.tables.joinNodes_of_no_nodes hf.nodes _ _) hne
  ordered hne := absurd (hf.tables.joinNodes_of_no_nodes hf.nodes _ _) hne

/-- Resolving once more changes nothing of what is wanted. -/
theorem Completes.again (c : Completes f g) (hf : f.Forest) :
    ∃ n g', Edit.resolveAll g = .ok n g' ∧ Completes f g' :=
  c.toResembles.complete hf c.canonicalJoins c.joined.mp

/-! ## All completions report alike -/

theorem Completes.akin (c : Completes f g) (c' : Completes f g') : Akin g g' where
  toSameEdges := c.toSameEdges.symm.trans c'.toSameEdges
  locals b v := (c'.locals b v).trans (c.locals b v).symm
  waiting b v := (c'.waiting b v).trans (c.waiting b v).symm
  joined b v := by
    rw [← not_iff_not]
    exact c'.joined.trans c.joined.symm

/-- A waiting use sees no needed join that has not been built. -/
theorem Completes.furnished (c : Completes f g) (hf : f.Forest) (hb : b ∈ f.blocks)
    (hw : f.waiting b v ≠ []) : g.Furnished v b := by
  intro y hs hn
  refine c.joined.mpr ((c.wanted_iff hf c.canonicalJoins.sound.nodesFresh.searchable.forest).mp
      ⟨hn, b, ?_, ?_, hs⟩)
  · exact c.blocks ▸ hb
  · rwa [c.waiting]

theorem Akin.undefinedAt (h : Akin f g) (hf : f.CanonicalJoins) (hg : g.CanonicalJoins)
    (hb : b ∈ f.blocks)
    (hff : f.Furnished v b) (hgf : g.Furnished v b) : g.undefinedAt b v = f.undefinedAt b v := by
  have hforest := hf.sound.nodesFresh.searchable.forest
  have hforest' := hg.sound.nodesFresh.searchable.forest
  obtain ⟨r, hr, hfalse, htrue⟩ := hf.sound.nodesFresh.undefinedAt_iff hf.thrifty hb hff
  obtain ⟨r', hr', hfalse', htrue'⟩ :=
    hg.sound.nodesFresh.undefinedAt_iff hg.thrifty (h.blocks ▸ hb) hgf
  simp only [h.defining, h.arrives_iff hforest hforest' hb, ← hfalse] at hfalse'
  simp only [h.defining, h.arrives_iff hforest hforest' hb, h.needed_iff hforest hforest' hb,
    ← htrue] at htrue'
  have hrr : r' = r := by
    match r, r' with
    | none, none => rfl
    | some true, _ => exact htrue'.mpr rfl
    | some false, _ => exact hfalse'.mpr rfl
    | none, some true => exact (htrue'.mp rfl).symm
    | none, some false => exact (hfalse'.mp rfl).symm
  rw [hr, hr', hrr]

def Func.gaps (f : Func) (v : VarId) : Option NodeId → List String
  | none => []
  | some c => ((f.feedBlocks c v).filter fun e => e.2.isNone).map fun e => f.label e.1

theorem gaps_eq (ht : f.Tables) {c : NodeId} {t : TimelineId} (hid : f.timelineId? c v = some t) :
    ((f.timelineAt t).incoming.filter fun n => (f.incomingAt n).target.isNone).map
      (fun n => f.label (f.incomingAt n).pred) = f.gaps v (some c) := by
  rw [gaps, feedBlocks, feeds, ht.joinNodes_eq hid]
  simp only [List.filter_map, List.map_map, Function.comp_def, Option.isNone_map]

/-- The undefined paths that are told are those to the join that the value comes from. -/
theorem Solution.undefinedPaths_eq {s : Stack} (h : f.NodesFresh) (hb : b ∈ f.blocks)
    (hs : Solution f v b s) (hsolve : f.solve b v = .ok s) (hnone : s.surviving = []) :
    Compile.undefinedPaths f b v = .ok (f.gaps v (f.source s.root)) := by
  have ht := h.searchable.tables
  obtain ⟨G⟩ := h.searchable.graph
  have hcanon : s.canon f s.root = .ok s.root := by
    rw [hs.readable.canon f s.root, hs.rep_root G (Solution.placed ht) hb]
  have hprobe : f.probe b v = .ok (f.meaning v s.root) := by
    rw [probe, probeStack, h.searchable.resolvable hb]
    show (do let s ← f.solve b v; s.resolution f) = _
    rw [hsolve]
    exact hs.var_eq ▸ resolutionOf_eq hcanon
  rw [Compile.undefinedPaths, hprobe, ok_bind]
  have htraced := hs.root_traced G ht hb
  cases hr : s.root with
  | undefined => rfl
  | pending k =>
    rw [hr] at htraced
    exact htraced.elim
  | timeline t =>
    rw [hr] at htraced
    obtain ⟨c, -, hexp⟩ := htraced
    have hid := timelineId?_of_explicit? hexp
    rw [source, ht.block_eq hid, ← gaps_eq ht hid]
    rfl
  | join k =>
    rw [hr] at htraced
    obtain ⟨-, hjoined⟩ := htraced
    rw [hnone] at hjoined
    obtain ⟨t, hj⟩ := Option.isSome_iff_exists.mp (hjoined.resolve_right List.not_mem_nil)
    rw [source, ← gaps_eq ht (ht.joinNodes_of_joined? hj).2, meaning, hj]
    rfl

/-- Where no join is missing a value comes from the block itself or is the only one to arrive. -/
theorem Solution.source_cases {s : Stack} (h : f.NodesFresh) (hb : b ∈ f.blocks)
    (hs : Solution f v b s) (hnone : s.surviving = []) :
    (f.joinNodes b v ≠ [] ∧ f.source s.root = some b) ∨ (f.joinNodes b v = [] ∧
      ∀ a, Arrives f.preds (f.Decides v) b a ↔ a = f.source s.root) := by
  have ht := h.searchable.tables
  obtain ⟨G⟩ := h.searchable.graph
  have hdecided : s.Decided f v = f.Decides v := by
    funext x
    rw [Stack.Decided, hnone]
    simp
  rcases hs.root_cases G (Solution.placed ht) hb with ⟨hroot, hj⟩ | ⟨hj, -, -, harr⟩
  · refine Or.inl ⟨fun hnil => ?_, by rw [hroot, source]⟩
    rw [ht.joined?_eq_none.mpr hnil, hnone] at hj
    exact hj.elim Bool.false_ne_true List.not_mem_nil
  · exact Or.inr ⟨ht.joined?_eq_none.mp hj, hdecided ▸ harr⟩

theorem Akin.undefinedPaths (h : Akin f g) (hlabel : ∀ b, g.label b = f.label b)
    (hf : f.CanonicalJoins)
    (hg : g.CanonicalJoins) (hb : b ∈ f.blocks) (hff : f.Furnished v b) (hgf : g.Furnished v b) :
    Compile.undefinedPaths g b v = Compile.undefinedPaths f b v := by
  have hs := hf.sound.nodesFresh
  have hs' := hg.sound.nodesFresh
  have hb' : b ∈ g.blocks := h.blocks ▸ hb
  obtain ⟨G⟩ := hs.searchable.graph
  obtain ⟨G'⟩ := hs'.searchable.graph
  obtain ⟨s, hsolve, hsol⟩ := solve_ok (v := v) G hb
  obtain ⟨s', hsolve', hsol'⟩ := solve_ok (v := v) G' hb'
  have hnone := hff.surviving hs hf.thrifty hb hsol
  have hnone' := hgf.surviving hs' hg.thrifty hb' hsol'
  have hsource : g.source s'.root = f.source s.root := by
    rcases hsol.source_cases hs hb hnone with ⟨hj, he⟩ | ⟨hj, harr⟩
    · rcases hsol'.source_cases hs' hb' hnone' with ⟨-, he'⟩ | ⟨hj', -⟩
      · rw [he, he']
      · exact absurd ((h.joined b v).mp hj') hj
    · rcases hsol'.source_cases hs' hb' hnone' with ⟨hj', -⟩ | ⟨-, harr'⟩
      · exact absurd ((h.joined b v).mpr hj) hj'
      · rw [h.decides hs.searchable.tables hs'.searchable.tables] at harr'
        exact (harr _).mp ((h.arrives_iff hs.searchable.forest hs'.searchable.forest hb).mp
          ((harr' _).mpr rfl))
  rw [hsol.undefinedPaths_eq hs hb hsolve hnone, hsol'.undefinedPaths_eq hs' hb' hsolve' hnone',
    hsource]
  cases f.source s.root with
  | none => rfl
  | some c =>
    rw [gaps, gaps, h.feedBlocks hs hs' hf.ordered hg.ordered]
    simp only [hlabel]

def Func.waitingVars (f : Func) (b : NodeId) : List VarId :=
  ((f.blockAt b).timelines.map Prod.fst).filter fun v => !(f.waiting b v).isEmpty

theorem mem_waitingVars : v ∈ f.waitingVars b ↔ f.waiting b v ≠ [] := by
  rw [waitingVars, List.mem_filter, Bool.not_eq_true', List.isEmpty_eq_false_iff]
  refine and_iff_right_of_imp fun hne => ?_
  cases hid : f.timelineId? b v with
  | none => exact absurd (waiting_of_none hid) hne
  | some t => exact List.mem_map_of_mem (mem_of_lookup hid)

theorem Akin.waitingVars (h : Akin f g) (hf : f.Tables) (hg : g.Tables) :
    g.waitingVars b = f.waitingVars b := by
  have hfs : (f.waitingVars b).Pairwise (· < ·) := (hf.sorted b).sublist List.filter_sublist
  have hgs : (g.waitingVars b).Pairwise (· < ·) := (hg.sorted b).sublist List.filter_sublist
  refine List.Perm.eq_of_pairwise (fun _ _ _ _ h1 h2 => absurd h1 (Nat.lt_asymm h2)) hgs hfs ?_
  rw [List.perm_ext_iff_of_nodup (hgs.imp Nat.ne_of_lt) (hfs.imp Nat.ne_of_lt)]
  intro v
  rw [mem_waitingVars, mem_waitingVars, h.waiting]

theorem flatMap_reports (f : Func) (b : NodeId) :
    ((f.blockAt b).timelines.flatMap fun e => f.reports b e.1) =
      (f.waitingVars b).flatMap (f.reports b) := by
  rw [waitingVars]
  induction (f.blockAt b).timelines with
  | nil => rfl
  | cons e l ih =>
    rw [List.flatMap_cons, List.map_cons, List.filter_cons, ih]
    split
    · rw [List.flatMap_cons]
    · next hw =>
      have hnil : f.waiting b e.1 = [] := by simpa using hw
      have hrep : f.reports b e.1 = [] := by
        rw [reports, hnil]
        split <;> rfl
      rw [hrep, List.nil_append]

theorem Completes.verify (c : Completes f g) (c' : Completes f g') (hf : f.Forest) :
    g'.verify = g.verify := by
  have h := c.akin c'
  have hs := c.canonicalJoins.sound.nodesFresh
  have hs' := c'.canonicalJoins.sound.nodesFresh
  rw [hs.verify_eq, hs'.verify_eq, h.blocks]
  refine congrArg Except.ok (List.flatMap_congr fun b hb => ?_)
  rw [flatMap_reports, flatMap_reports, h.waitingVars hs.searchable.tables hs'.searchable.tables]
  refine List.flatMap_congr fun v hv => ?_
  have hw := mem_waitingVars.mp hv
  rw [c.waiting] at hw
  have hbf : b ∈ f.blocks := c.blocks ▸ hb
  rw [reports, reports, h.undefinedAt c.canonicalJoins c'.canonicalJoins hb (c.furnished hf hbf hw)
    (c'.furnished hf hbf hw), h.waiting]

/-- The undefined paths of a reported use do not depend on the completion either. -/
theorem Completes.undefinedPaths (c : Completes f g) (c' : Completes f g') (hf : f.Forest)
    (hb : b ∈ f.blocks) (hw : f.waiting b v ≠ []) :
    Compile.undefinedPaths g' b v = Compile.undefinedPaths g b v :=
  (c.akin c').undefinedPaths (fun b => (c'.label b).trans (c.label b).symm)
      c.canonicalJoins c'.canonicalJoins
    (c.blocks ▸ hb) (c.furnished hf hb hw) (c'.furnished hf hb hw)

theorem Completes.freeze (c : Completes f g) (hf : f.Forest) (hv : g.verify = .ok []) :
    ∃ g', Edit.freeze g = .ok ⟨⟩ g' ∧ g'.frozen = true := by
  obtain ⟨n, g', hrun, c'⟩ := c.again hf
  refine ⟨{ g' with frozen := true }, ?_, rfl⟩
  rw [Edit.freeze, Edit.bind_eq
      (Edit.unfrozen_eq c.canonicalJoins.sound.nodesFresh.searchable.unfrozen _),
    Edit.bind_eq hrun, Edit.bind_eq (Edit.ask_eq ((c.verify c' hf).trans hv))]
  rfl

end

end DefFlow.Flow
