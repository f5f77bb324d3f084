import DefFlow.Proofs.Edits.Insert
import DefFlow.Proofs.Tree.Flatten

/-!
# Changing the trees

The trees of a function are replaced by trees with the same blocks, some of which are
followed by a new one. Where no block is, the flow of values stays as it was.
-/

set_option autoImplicit false

namespace DefFlow.Flow

open Func Component

structure Reshapes (tail : NodeId → Option NodeId) (f f' : Func) : Prop where
  held : f'.bodyHeld = f.bodyHeld
  trees : ∃ extra, GrowsEach tail extra f.trees f'.trees ∧ extra.Nodup ∧
    ∀ i ∈ extra, f.nodes.size < i ∧ i ≤ f'.nodes.size
  size : f.nodes.size ≤ f'.nodes.size
  stored : ∀ b, (f.nodes.get? b).isSome → (f'.nodes.get? b).isSome
  tails : ∀ {b b'}, tail b = some b' → (f'.nodes.get? b').isSome

section

variable {tail : NodeId → Option NodeId} {f f' : Func}

/-- Trees with old numbers, each used once, and some new ones. -/
theorem Func.Forest.renumbered {extra : List NodeId} (hf : f.Forest)
    (hheld : f'.bodyHeld = f.bodyHeld) (hids : (idsAll f'.trees).Subperm (idsAll f.trees ++ extra))
    (hextra : extra.Nodup) (hnew : ∀ i ∈ extra, f.nodes.size < i ∧ i ≤ f'.nodes.size)
    (hsize : f.nodes.size ≤ f'.nodes.size)
    (hstored : ∀ b ∈ blocksAll f'.trees, (f'.nodes.get? b).isSome) : f'.Forest := by
  have hnodup : (idsAll f.trees ++ extra).Nodup := by
    refine List.nodup_append.mpr ⟨hf.nodup, hextra, fun i hi j hj he => ?_⟩
    exact absurd (hf.bounded i hi).2 (Nat.not_le.mpr (he ▸ (hnew j hj).1))
  have hsome : 0 < f.nodes.size := by
    have := (hf.bounded f.body.id (by
      rw [Func.trees, idsAll]
      exact List.mem_append_left _ (id_mem_ids _)))
    omega
  exact {
    held := hheld.trans hf.held
    nodup := by
      obtain ⟨l, hperm, hsub⟩ := hids
      exact hperm.nodup_iff.mp (hnodup.sublist hsub)
    bounded := fun i hi => by
      rcases List.mem_append.mp (hids.subset hi) with hi | hi
      · exact ⟨(hf.bounded i hi).1, Nat.le_trans (hf.bounded i hi).2 hsize⟩
      · exact ⟨Nat.lt_of_le_of_lt hsome (hnew i hi).1, (hnew i hi).2⟩
    stored := hstored }

namespace Reshapes

theorem body (h : Reshapes tail f f') : ∃ extra, Grows tail extra [f.body] [f'.body] := by
  obtain ⟨extra, htrees, _, _⟩ := h.trees
  rw [Func.trees, Func.trees] at htrees
  cases htrees with
  | cons hbody _ => exact ⟨_, hbody⟩

theorem blocks (h : Reshapes tail f f') : f'.blocks = f.blocks.flatMap (grown tail) := by
  obtain ⟨extra, hbody⟩ := h.body
  exact hbody.blocks_one

theorem entry (h : Reshapes tail f f') : f'.entry = f.entry := by
  obtain ⟨extra, hbody⟩ := h.body
  exact hbody.entry_one

theorem forest (h : Reshapes tail f f') (hf : f.Forest) : f'.Forest := by
  obtain ⟨extra, htrees, hextra, hnew⟩ := h.trees
  refine hf.renumbered h.held htrees.grows.ids hextra hnew h.size fun b hb => ?_
  rw [htrees.grows.blocks, List.mem_flatMap] at hb
  obtain ⟨x, hx, hb⟩ := hb
  rw [grown, List.mem_cons, Option.mem_toList] at hb
  rcases hb with rfl | hb
  · exact h.stored b (hf.stored b hx)
  · exact h.tails hb

theorem mem_preds (h : Reshapes tail f f') (hf : f.Forest) {p s : NodeId} (hs : s ∈ f'.blocks) :
    p ∈ f'.preds s ↔ (∃ q, f.body.Edge q s ∧ p = lastOf tail q) ∨
      (p ∈ f.blocks ∧ tail p = some s) := by
  obtain ⟨extra, hbody⟩ := h.body
  rw [(h.forest hf).mem_preds hs, hbody.edge_one]
  rfl

theorem enters (h : Reshapes tail f f') (hf : f.Forest) (he : f.Enters)
    (hnew : ∀ {b b'}, tail b = some b' → b' ∉ f.blocks) : f'.Enters := by
  intro b hb
  rw [h.entry] at hb
  have hmem : b ∈ f.blocks := mem_blocks_of_entry hb
  have hmem' : b ∈ f'.blocks := mem_blocks_of_entry (h.entry.trans hb)
  refine List.eq_nil_iff_forall_not_mem.mpr fun p hp => ?_
  rcases (h.mem_preds hf hmem').mp hp with ⟨q, hq, _⟩ | ⟨_, hp⟩
  · have := (hf.mem_preds hmem).mpr hq
    rw [he b hb] at this
    cases this
  · exact hnew hp hmem

end Reshapes

/-! ## Trees with the same flow -/

structure Reroots (f f' : Func) : Prop where
  handle : f'.handle = f.handle
  frozen : f'.frozen = f.frozen
  block : ∀ b, f'.nodes.get? b = f.nodes.get? b
  insts : f'.insts = f.insts
  timelines : f'.timelines = f.timelines
  incoming : f'.incoming = f.incoming

namespace Reroots

variable {f'' : Func}

theorem refl (f : Func) : Reroots f f := ⟨rfl, rfl, fun _ => rfl, rfl, rfl, rfl⟩

theorem trans (h : Reroots f f') (h' : Reroots f' f'') : Reroots f f'' where
  handle := h'.handle.trans h.handle
  frozen := h'.frozen.trans h.frozen
  block b := (h'.block b).trans (h.block b)
  insts := h'.insts.trans h.insts
  timelines := h'.timelines.trans h.timelines
  incoming := h'.incoming.trans h.incoming

theorem blockAt (h : Reroots f f') (b : NodeId) : f'.blockAt b = f.blockAt b := by
  rw [Func.blockAt, Func.blockAt, h.block]

theorem sameRecords (h : Reroots f f') : SameRecords f f' :=
  ⟨fun b => by rw [h.blockAt], h.timelines, h.incoming⟩

theorem scheduled (h : Reroots f f') (hs : f.Scheduled) : f'.Scheduled :=
  hs.congr (fun b => by rw [Func.code, Func.code, h.blockAt])
    (fun b => by rw [h.blockAt]) h.sameRecords.locals fun i => by rw [h.insts]

end Reroots

theorem Func.Calm.reshape (h : f.Calm) (hr : Reshapes (fun _ => none) f f') (hs : Reroots f f') :
    f'.Calm := by
  have hforest := hr.forest h.forest
  have hrec := hs.sameRecords
  have hblocks : f'.blocks = f.blocks := by rw [hr.blocks, flatMap_grown_none]
  have hpreds : ∀ {x p}, x ∈ f.blocks → (p ∈ f'.preds x ↔ p ∈ f.preds x) := by
    intro x p hx
    rw [hr.mem_preds h.forest (hblocks ▸ hx), h.forest.mem_preds hx]
    simp [lastOf_none]
  refine {
    forest := hforest
    enters := hr.enters h.forest h.enters fun hb => by cases hb
    tables := hrec.tables h.tables
    unfrozen := hs.frozen.trans h.unfrozen
    complete := fun {b v} hne => ?_
    fresh := fun {b v} e he a ha => ?_ }
  · rw [hrec.joinNodes] at hne
    obtain ⟨hb, hperm⟩ := h.complete hne
    rw [hrec.feeds, hblocks]
    refine ⟨hb, hperm.trans ?_⟩
    exact (List.perm_ext_iff_of_nodup (h.forest.preds_nodup hb)
      (hforest.preds_nodup (hblocks ▸ hb))).mpr fun p => (hpreds hb).symm
  · rw [hrec.feeds] at he
    have hmem : e.1 ∈ f.blocks := by
      obtain ⟨hb, hperm⟩ := h.complete (ne_nil_of_mem_feeds he)
      exact h.forest.pred_mem hb (hperm.mem_iff.mp (List.mem_map_of_mem he))
    rw [decides_congr fun b => hrec.explicit? b v] at ha
    have hold : Departs f.preds (f.Decides v) e.1 a := by
      refine ha.imp_right fun ha => ⟨ha.1, arrives_of_mem (· ∈ f.blocks) ?_ hpreds hmem ha.2⟩
      exact fun hx hp => hblocks ▸ hforest.pred_mem (hblocks ▸ hx) hp
    rw [h.fresh e he a hold]
    cases a with
    | none => rfl
    | some c => rw [Option.bind_some, Option.bind_some, hrec.explicit?]

end

end DefFlow.Flow
