import DefFlow.Proofs.Reaching.Expansion

/-!
# Needed joins

A join is needed where different values meet. Resolutions build no other joins, and a
resolution builds every needed join that its block sees, whatever joins it finds built.
So which joins exist depends only on the questions that have been asked.
-/

set_option autoImplicit false

namespace DefFlow.Flow

open Func

section

variable {f f' : Func} {v w : VarId} {leaf b : NodeId} {s : Stack}

/-- Different values meet at the joins that a resolution leaves. -/
theorem Solution.meets (G : f.Graph) (hf : f.Placed v) (h : Solution f v leaf s) {j : NodeId}
    (hj : j ∈ s.surviving) : Meets f.preds (f.Decides v) j := by
  have hopens := h.search.block (h.phi_of_surviving hj)
  obtain ⟨p, hp, q, hq, hne, -⟩ := h.differ G hf hj
  refine (h.labelling G hf).meets_of_ne G.toReducible (fun r hr => ?_) hp hq hne
  obtain ⟨w, -, hc⟩ := forall₂_left (h.values_of_mem (h.phi_of_surviving hj)) hr
  exact h.visited_of_carries (G.mem hopens.block hr) hc

namespace Func

def Needed (f : Func) (v : VarId) (b : NodeId) : Prop := Meets f.preds (f.Defining v) b

def Thrifty (f : Func) : Prop := ∀ {b v}, f.joinNodes b v ≠ [] → f.Needed v b

/-- What meets at the blocks that decide `v` or that only join it comes from definitions. -/
theorem Thrifty.needed (h : f.Thrifty) (ht : f.Tables)
    (hm : Meets f.preds (f.Decides v) b) : f.Needed v b :=
  hm.of_wide fun hd hnot => h ((ht.decides_iff.mp hd).resolve_left hnot)

end Func

theorem Refines.needed (h : Refines f f') : f'.Needed v b ↔ f.Needed v b := by
  rw [Needed, Needed, h.defining, h.keeps.preds]

/-- A resolution adds the nodes of needed joins that its block sees. -/
theorem Resolves.needed (hw : f.Searchable) (hthrift : f.Thrifty) (h : Resolves v leaf f f')
    (hb : f'.joinNodes b w ≠ []) :
    f.joinNodes b w ≠ [] ∨
      (w = v ∧ f.Needed v b ∧ Sees f.preds (f.Defining v) leaf b) := by
  rcases h with rfl | ⟨s, f₁, m, hs, hbuilt, rfl⟩
  · exact Or.inl hb
  obtain ⟨G⟩ := hw.graph
  obtain ⟨l, hl, -, hnew⟩ := hbuilt.extended.joinNodes b w
  by_cases hnil : l = []
  · rw [hnil, List.append_nil] at hl
    exact Or.inl (hl ▸ hb)
  obtain ⟨rfl, hj⟩ := hnew hnil
  refine Or.inr ⟨rfl, hthrift.needed hw.tables (hs.meets G (Solution.placed hw.tables) hj), ?_⟩
  have hseen := hs.search.seen (hs.phi_of_surviving hj)
  rw [hs.leaf_eq] at hseen
  exact hseen.mono fun hd => hw.tables.decides_iff.mpr (Or.inl hd)

theorem Resolves.thrifty (hw : f.Searchable) (hthrift : f.Thrifty) (h : Resolves v leaf f f') :
    f'.Thrifty := by
  intro b w hb
  rw [(h.refines hw).needed]
  rcases h.needed hw hthrift hb with hold | ⟨rfl, hn, -⟩
  · exact hthrift hold
  · exact hn

/-! ## All needed joins are built -/

/-- The question for `v` at the top of `b` needs no further join: one has been built there,
or a single value arrives. -/
def Func.Answered (f : Func) (v : VarId) (b : NodeId) : Prop :=
  f.joinNodes b v ≠ [] ∨ ∃ a, ∀ c, Arrives f.preds (f.Decides v) b c → c = a

theorem Func.Tables.answered (ht : f.Tables) {r : Resolution} (h : f.Shows v b r) :
    f.Answered v b := by
  have joined : ∀ {t}, f.joined? b v = some t → f.joinNodes b v ≠ [] := by
    intro t hj hnil
    rw [ht.joined?_eq, if_pos hnil] at hj
    cases hj
  cases r with
  | undefined => exact Or.inr ⟨none, fun c hc => (h.2 c).mp hc⟩
  | timeline t =>
    obtain ⟨-, c, -, honly⟩ := h
    exact Or.inr ⟨some c, fun a ha => (honly a).mp ha⟩
  | top t =>
    rcases h with hj | ⟨-, c, -, -, honly⟩
    · exact Or.inl (joined hj)
    · exact Or.inr ⟨some c, fun a ha => (honly a).mp ha⟩
  | join _ => exact h.elim

/-- A block without a definition that an answered block reads from is answered. -/
theorem Func.NodesFresh.answered_pred (h : f.NodesFresh) (hb : b ∈ f.blocks) (hans : f.Answered v b)
    {p : NodeId} (hp : p ∈ f.preds b) (hd : ¬ f.Defining v p) : f.Answered v p := by
  by_cases hdec : f.Decides v p
  · exact Or.inl ((h.searchable.tables.decides_iff.mp hdec).resolve_left hd)
  rcases hans with hj | ⟨a, ha⟩
  · obtain ⟨e, he, rfl⟩ : ∃ e ∈ f.feeds b v, e.1 = p := by
      have := (h.complete hb hj).mem_iff.mpr hp
      simpa using this
    obtain ⟨G⟩ := h.searchable.graph
    obtain ⟨c, hc⟩ : ∃ c, Arrives f.preds (f.Decides v) e.1 c :=
      G.exists_arrives (h.searchable.forest.pred_mem hb hp)
    exact Or.inr ⟨c, fun a ha => (h.fresh e he).unique h.searchable.tables (Or.inr ⟨hdec, ha⟩)
      (Or.inr ⟨hdec, hc⟩)⟩
  · exact Or.inr ⟨a, fun c hc => ha c (.passes hp hdec hc)⟩

theorem Func.NodesFresh.answered_of_sees (h : f.NodesFresh) (hb : b ∈ f.blocks)
    (hans : f.Answered v b) {y : NodeId} (hs : Sees f.preds (f.Defining v) b y) :
    y ∈ f.blocks ∧ f.Answered v y := by
  induction hs with
  | refl => exact ⟨hb, hans⟩
  | step _ hp hd ih => exact ⟨h.searchable.forest.pred_mem ih.1 hp, h.answered_pred ih.1 ih.2 hp hd⟩

/-- The needed joins that an answered block sees have been built. -/
theorem Func.NodesFresh.joinNodes_of_needed (h : f.NodesFresh) (hb : b ∈ f.blocks)
    (hans : f.Answered v b) {y : NodeId} (hs : Sees f.preds (f.Defining v) b y)
    (hn : f.Needed v y) : f.joinNodes y v ≠ [] := by
  rcases (h.answered_of_sees hb hans hs).2 with hj | ⟨a, ha⟩
  · exact hj
  · obtain ⟨t, hne, ht⟩ := hn _ h.defining_decides a
    exact absurd (ha t ht) hne

/-- After a resolution exactly the needed joins that its block sees exist besides those that
there were before. -/
theorem Resolves.joinNodes_iff (h : f.NodesFresh) (hthrift : f.Thrifty) (hw : f'.Searchable)
    (hres : Resolves v leaf f f') (hl : leaf ∈ f.blocks) (hans : f'.Answered v leaf) :
    f'.joinNodes b w ≠ [] ↔ f.joinNodes b w ≠ [] ∨
      (w = v ∧ f.Needed v b ∧ Sees f.preds (f.Defining v) leaf b) := by
  have hr := hres.refines h.searchable
  constructor
  · exact hres.needed h.searchable hthrift
  · rintro (hold | ⟨rfl, hn, hs⟩)
    · rcases hr.joins b w with heq | hnew
      · rwa [heq]
      · exact hnew.some_after
    · refine (h.refines hw hr).joinNodes_of_needed (hr.keeps.blocks ▸ hl) hans ?_
        (hr.needed.mpr hn)
      rwa [hr.keeps.preds, hr.defining]

end

end DefFlow.Flow
