import DefFlow.Proofs.Resolution.Search
import DefFlow.Proofs.Tree.Order
import DefFlow.Proofs.Tree.Place

/-!
# The trees of a function

The components of all trees have different numbers, and every block is stored. Then
the edges between the blocks of the body are those of its tree, and if none leads to
the entry the blocks are in an order that every resolution can rely on.
-/

set_option autoImplicit false

namespace DefFlow.Flow.Func

open Component

structure Forest (f : Func) : Prop where
  held : f.bodyHeld = true
  nodup : (idsAll f.trees).Nodup
  bounded : ∀ i : Nat, i ∈ idsAll f.trees → 1 < i ∧ i ≤ f.nodes.size
  stored : ∀ b ∈ blocksAll f.trees, (f.nodes.get? b).isSome

def Enters (f : Func) : Prop := ∀ b, f.entry = some b → f.preds b = []

variable {f : Func}

namespace Forest

theorem body_nodup (h : f.Forest) : f.body.ids.Nodup := by
  have := h.nodup
  rw [trees, idsAll, List.nodup_append] at this
  exact this.1

theorem mem_trees {b : NodeId} (hb : b ∈ f.blocks) : b ∈ blocksAll f.trees := by
  rw [trees, blocksAll]
  exact List.mem_append_left _ hb

theorem blocks_nodup (h : f.Forest) : f.blocks.Nodup :=
  (blocks_sublist f.body).nodup h.body_nodup

theorem block_le (h : f.Forest) {b : Nat} (hb : b ∈ f.blocks) : 1 < b ∧ b ≤ f.nodes.size := by
  refine h.bounded b ?_
  exact mem_idsAll_of_mem_blocksAll (mem_trees hb)

theorem stored_block (h : f.Forest) {b : NodeId} (hb : b ∈ f.blocks) :
    ∃ x, f.nodes.get? b = some x :=
  Option.isSome_iff_exists.mp (h.stored b (mem_trees hb))

theorem preds_eq (h : f.Forest) {b : NodeId} (hb : b ∈ f.blocks) :
    ∃ l, f.body.predsIn b [] = some l ∧ f.preds b = l := by
  obtain ⟨l, hl, _⟩ := predsIn_answer f.body [] h.body_nodup hb
  refine ⟨l, hl, ?_⟩
  rw [preds, trees, List.findSome?_cons, hl]
  rfl

theorem succs_eq (h : f.Forest) {b : NodeId} (hb : b ∈ f.blocks) :
    ∃ l, f.body.succsIn b [] = some l ∧ f.succs b = l := by
  obtain ⟨l, hl, _⟩ := succsIn_answer f.body [] h.body_nodup hb
  refine ⟨l, hl, ?_⟩
  rw [succs, trees, List.findSome?_cons, hl]
  rfl

theorem mem_preds (h : f.Forest) {b p : NodeId} (hb : b ∈ f.blocks) :
    p ∈ f.preds b ↔ f.body.Edge p b := by
  obtain ⟨l, hl, hm⟩ := predsIn_answer f.body [] h.body_nodup hb
  obtain ⟨k, hk, he⟩ := h.preds_eq hb
  rw [hl, Option.some.injEq] at hk
  rw [he, ← hk, hm]
  simp

theorem mem_succs (h : f.Forest) {b s : NodeId} (hb : b ∈ f.blocks) :
    s ∈ f.succs b ↔ f.body.Edge b s := by
  obtain ⟨l, hl, hm⟩ := succsIn_answer f.body [] h.body_nodup hb
  obtain ⟨k, hk, he⟩ := h.succs_eq hb
  rw [hl, Option.some.injEq] at hk
  rw [he, ← hk, hm]
  simp

theorem preds_nodup (h : f.Forest) {b : NodeId} (hb : b ∈ f.blocks) : (f.preds b).Nodup := by
  obtain ⟨l, hl, he⟩ := h.preds_eq hb
  rw [he]
  exact predsIn_nodup f.body [] List.nodup_nil hl

theorem succs_nodup (h : f.Forest) {b : NodeId} (hb : b ∈ f.blocks) : (f.succs b).Nodup := by
  obtain ⟨l, hl, he⟩ := h.succs_eq hb
  rw [he]
  exact succsIn_nodup f.body [] List.nodup_nil hl

theorem pred_mem (h : f.Forest) {b p : NodeId} (hb : b ∈ f.blocks) (hp : p ∈ f.preds b) :
    p ∈ f.blocks :=
  (Edge.mem f.body ((h.mem_preds hb).mp hp)).1

theorem succ_mem (h : f.Forest) {b s : NodeId} (hb : b ∈ f.blocks) (hs : s ∈ f.succs b) :
    s ∈ f.blocks :=
  (Edge.mem f.body ((h.mem_succs hb).mp hs)).2

theorem mem_preds_iff_mem_succs (h : f.Forest) {p s : NodeId} (hp : p ∈ f.blocks)
    (hs : s ∈ f.blocks) : p ∈ f.preds s ↔ s ∈ f.succs p := by
  rw [h.mem_preds hs, h.mem_succs hp]

theorem hasParent_of_mem (h : f.Forest) {i : NodeId} (hi : i ∈ f.body.ids) :
    f.hasParent i = true := by
  obtain ⟨l, hl, hroot⟩ := pathIn_of_mem f.body hi
  have hp : f.path i = l := by
    rw [path, trees, List.findSome?_cons, hl]
    rfl
  rw [Func.hasParent, parent?, hp]
  cases l with
  | cons p ps => rfl
  | nil =>
    simp only [isBody, hroot rfl, h.held, decide_true, Bool.and_true, if_true]
    rfl

theorem hasParent (h : f.Forest) {b : NodeId} (hb : b ∈ f.blocks) : f.hasParent b = true :=
  h.hasParent_of_mem (mem_ids_of_mem_blocks hb)

theorem blocks_length (h : f.Forest) : f.blocks.length ≤ f.nodes.size := by
  have hsub : f.blocks ⊆ (List.range f.nodes.size).map (· + 1) := by
    intro (b : Nat) hb
    obtain ⟨h1, h2⟩ := h.block_le hb
    exact List.mem_map.mpr ⟨b - 1, List.mem_range.mpr (by omega), Nat.sub_add_cancel (by omega)⟩
  have := (h.blocks_nodup.subperm hsub).length_le
  rwa [List.length_map, List.length_range] at this

theorem eq_entry_or_forward (h : f.Forest) {b : NodeId} (hb : b ∈ f.blocks) :
    f.entry = some b ∨ ∃ p ∈ f.preds b, f.blocks.idxOf p < f.blocks.idxOf b := by
  refine (entry_or_forward f.body hb).imp id fun ⟨p, he, hbefore⟩ => ?_
  exact ⟨p, (h.mem_preds hb).mpr he, idxOf_lt_of_before h.blocks_nodup hbefore⟩

theorem net (h : f.Forest) : f.Net := ⟨h.pred_mem, h.blocks_length⟩

def graph (h : f.Forest) (he : f.Enters) : f.Graph where
  rank := f.blocks.idxOf
  bound := f.blocks.length
  region := fun h x => ∃ r, (h, r) ∈ f.body.loops ∧ x ∈ r
  mem := h.pred_mem
  bounded := List.idxOf_lt_length_of_mem
  forward := fun hx hp => (h.eq_entry_or_forward hx).resolve_left fun hn => hp (he _ hn)
  edge := fun hx hp => by
    refine (forward_or_back f.body ((h.mem_preds hx).mp hp)).imp_left fun hb => ?_
    exact idxOf_lt_of_before h.blocks_nodup hb
  closed := fun hx ⟨r, hr, hm⟩ hne hp =>
    ⟨r, hr, edge_in_loop f.body h.body_nodup hr hm hne ((h.mem_preds hx).mp hp)⟩
  reached := fun {k x} hx ⟨r, hr, hm⟩ hne hp => by
    rcases h.eq_entry_or_forward hx with hn | ⟨p, hpm, _⟩
    · exact hne (eq_of_entry_in_loop f.body h.body_nodup hr hm hn)
    · rw [hp] at hpm
      cases hpm
  above := fun _ ⟨r, hr, hm⟩ => by
    refine (loop_before f.body hr hm).2.imp_right fun hb => ?_
    exact idxOf_lt_of_before h.blocks_nodup hb
  fits := h.blocks_length
  count := h.blocks_length

end Forest

end DefFlow.Flow.Func

namespace DefFlow.Flow

/-! ## Functions with the same edges -/

structure SameEdges (f g : Func) : Prop where
  blocks : g.blocks = f.blocks
  preds : ∀ {b}, b ∈ f.blocks → g.preds b = f.preds b

namespace SameEdges

variable {f g h : Func} {opq : NodeId → Prop} {b y : NodeId} {a : Option NodeId}

theorem symm (e : SameEdges f g) : SameEdges g f :=
  ⟨e.blocks.symm, fun hb => (e.preds (e.blocks ▸ hb)).symm⟩

theorem trans (e : SameEdges f g) (e' : SameEdges g h) : SameEdges f h :=
  ⟨e'.blocks.trans e.blocks, fun hb => (e'.preds (e.blocks ▸ hb)).trans (e.preds hb)⟩

theorem arrives (e : SameEdges f g) (hf : f.Forest) (hb : b ∈ f.blocks)
    (ha : Arrives g.preds opq b a) : Arrives f.preds opq b a :=
  arrives_of_mem (· ∈ f.blocks) (fun hx hp => hf.pred_mem hx (e.preds hx ▸ hp))
    (fun hx => by rw [e.preds hx]) hb ha

theorem arrives_iff (e : SameEdges f g) (hf : f.Forest) (hg : g.Forest) (hb : b ∈ f.blocks) :
    Arrives g.preds opq b a ↔ Arrives f.preds opq b a :=
  ⟨e.arrives hf hb, e.symm.arrives hg (e.blocks ▸ hb)⟩

theorem departs_iff (e : SameEdges f g) (hf : f.Forest) (hg : g.Forest) (hb : b ∈ f.blocks) :
    Departs g.preds opq b a ↔ Departs f.preds opq b a :=
  or_congr_right (and_congr_right fun _ => e.arrives_iff hf hg hb)

theorem meets_iff (e : SameEdges f g) (hf : f.Forest) (hg : g.Forest) (hb : b ∈ f.blocks) :
    Meets g.preds opq b ↔ Meets f.preds opq b :=
  forall_congr' fun _ => imp_congr_right fun _ => forall_congr' fun _ => exists_congr fun _ =>
    and_congr_right fun _ => e.arrives_iff hf hg hb

theorem sees (e : SameEdges f g) (hf : f.Forest) (hb : b ∈ f.blocks) (hs : Sees g.preds opq b y) :
    y ∈ f.blocks ∧ Sees f.preds opq b y := by
  induction hs with
  | refl => exact ⟨hb, .refl⟩
  | step _ hp ho ih =>
    rw [e.preds ih.1] at hp
    exact ⟨hf.pred_mem ih.1 hp, ih.2.step hp ho⟩

theorem sees_iff (e : SameEdges f g) (hf : f.Forest) (hg : g.Forest) (hb : b ∈ f.blocks) :
    Sees g.preds opq b y ↔ Sees f.preds opq b y :=
  ⟨fun hs => (e.sees hf hb hs).2, fun hs => (e.symm.sees hg (e.blocks ▸ hb) hs).2⟩

end SameEdges
end DefFlow.Flow
