import DefFlow.Flow.Flatten
import DefFlow.Proofs.Tree.Grow

/-!
# Flattening a tree

Every structure that is dissolved has the control flow of what it leaves behind.
-/

set_option autoImplicit false

namespace DefFlow.Flow.Component

def Alike (extra : List NodeId) (cs cs' : List Component) : Prop :=
  Grows (fun _ => none) extra cs cs'

section

variable {tail : NodeId → Option NodeId} {extra extra' : List NodeId}
variable {cs ds es : List Component} {c : Component}

theorem lastOf_none (x : NodeId) : lastOf (fun _ => none) x = x := rfl

theorem flatMap_grown_none (l : List NodeId) : l.flatMap (grown fun _ => none) = l :=
  flatMap_grown fun _ _ => rfl

namespace Alike

theorem blocks (h : Alike extra cs ds) : blocksAll ds = blocksAll cs := by
  rw [Grows.blocks h, flatMap_grown_none]

theorem leaves (h : Alike extra cs ds) (x : NodeId) : x ∈ leavesLast ds ↔ x ∈ leavesLast cs := by
  rw [Grows.leaves h]
  simp [lastOf_none]

theorem edge (h : Alike extra cs ds) (p s : NodeId) :
    EdgeElements p s ds ↔ EdgeElements p s cs := by
  rw [Grows.edge h]
  simp [lastOf_none]

theorem of (hblocks : blocksAll ds = blocksAll cs)
    (hleaves : ∀ x, x ∈ leavesLast ds ↔ x ∈ leavesLast cs)
    (hedge : ∀ p s, EdgeElements p s ds ↔ EdgeElements p s cs)
    (hids : (idsAll ds).Subperm (idsAll cs ++ extra)) : Alike extra cs ds where
  blocks := by rw [hblocks, flatMap_grown_none]
  leaves x := by
    rw [hleaves]
    simp [lastOf_none]
  edge p s := by
    rw [hedge]
    simp [lastOf_none]
  ids := hids

theorem refl (cs : List Component) : Alike [] cs cs := Grows.refl fun _ _ => rfl

end Alike

/-- A replacement may be followed by one that changes nothing. -/
theorem Grows.alike (h : Grows tail extra cs ds) (h' : Alike extra' ds es) :
    Grows tail (extra ++ extra') cs es where
  blocks := by rw [h'.blocks, h.blocks]
  leaves x := by rw [h'.leaves, h.leaves]
  edge p s := by rw [h'.edge, h.edge]
  ids := by
    rw [← List.append_assoc]
    exact h'.ids.trans (h.ids.append (.refl extra'))

theorem Alike.trans (h : Alike extra cs ds) (h' : Alike extra' ds es) :
    Alike (extra ++ extra') cs es :=
  Grows.alike h h'

/-! ## The structures that are dissolved -/

theorem alike_spliced (c : Component) : Alike [] [c] c.spliced := by
  cases c with
  | seq i elements =>
    refine .of ?_ (fun x => ?_) (fun p s => ?_) ?_
    · rw [blocksAll_singleton]
      rfl
    · rw [leavesLast_singleton]
      rfl
    · rw [edgeElements_singleton]
      rfl
    · rw [idsAll_singleton, List.append_nil, ids]
      exact (List.sublist_cons_self _ _).subperm
  | block => exact .refl _
  | fork => exact .refl _
  | loop => exact .refl _

theorem alike_flatMap_spliced (cs : List Component) : Alike [] cs (cs.flatMap spliced) := by
  induction cs with
  | nil => exact .refl []
  | cons c cs ih => exact (alike_spliced c).append ih

/-- A held sequence with a single element is no more than that. -/
theorem alike_collapse (h : Alike extra cs ds) (held : Bool) (i : NodeId) :
    Alike extra [.seq i cs] [collapse held i ds] := by
  have hseq : Alike extra [.seq i cs] [.seq i ds] := Grows.seq h i
  unfold collapse
  split
  · refine .of (by rw [h.blocks, blocksAll_singleton, Component.blocks])
      (fun x => by rw [h.leaves, leavesLast_singleton, Component.leaves])
      (fun p s => by rw [h.edge, edgeElements_singleton, Component.Edge]) ?_
    rw [idsAll_singleton (.seq i cs), Component.ids]
    exact h.ids.trans (List.sublist_cons_self _ _).subperm
  · exact hseq

/-- A sequence with a new number stands for its elements. -/
theorem alike_collapse_new (h : Alike extra cs ds) (held : Bool) (i : NodeId) :
    Alike (extra ++ [i]) cs [collapse held i ds] := by
  unfold collapse
  split
  · refine .of h.blocks h.leaves h.edge (h.ids.trans ?_)
    rw [← List.append_assoc]
    exact (List.sublist_append_left _ _).subperm
  · refine .of ?_ (fun x => ?_) (fun p s => ?_) ?_
    · rw [blocksAll_singleton, Component.blocks, h.blocks]
    · rw [leavesLast_singleton, Component.leaves, h.leaves]
    · rw [edgeElements_singleton, Component.Edge, h.edge]
    · rw [idsAll_singleton, Component.ids, ← List.append_assoc]
      refine List.Subperm.trans ?_ (List.perm_append_singleton i _).symm.subperm
      exact (List.subperm_cons i).mpr h.ids

theorem alike_fork_nil (i cond : NodeId) : Alike [] [.fork i cond []] [.block cond] := by
  refine .of ?_ (fun x => ?_) (fun p s => ?_) ?_
  · rw [blocksAll_singleton, blocksAll_singleton]
    rfl
  · simp [leavesLast_singleton, Component.leaves, leavesCases]
  · simp [edgeElements_singleton, Component.Edge, EdgeCases]
  · rw [idsAll_singleton, idsAll_singleton, Component.ids, Component.ids]
    simp [idsAll]

theorem alike_fork_one (i cond : NodeId) (c : Component) :
    Alike [] [.fork i cond [c]] [.block cond, c] := by
  refine .of ?_ (fun x => ?_) (fun p s => ?_) ?_
  · rw [blocksAll_singleton, Component.blocks, blocksAll, Component.blocks]
    rfl
  · rw [leavesLast_singleton, Component.leaves, List.mem_eraseDups, mem_leavesCases, leavesLast,
      leavesLast_singleton, mem_orElse, leaves_eq_nil_iff, Component.leaves]
    simp [and_comm]
  · rw [edgeElements_singleton, Component.Edge, edgeCases_iff, EdgeElements,
      edgeElements_singleton, Component.Edge, Component.leaves]
    simp [entryAll]
  · rw [idsAll_singleton, Component.ids, idsAll, Component.ids, List.append_nil]
    exact (List.sublist_cons_self _ _).subperm

/-! ## Whole trees -/

structure Numbers (next next' : Nat) (extra : List Nat) : Prop where
  le : next ≤ next'
  nodup : extra.Nodup
  between : ∀ i : Nat, i ∈ extra → next ≤ i ∧ i < next'

theorem Numbers.nil (next : NodeId) : Numbers next next [] :=
  ⟨Nat.le_refl _, List.nodup_nil, fun i hi => by cases hi⟩

theorem Numbers.append {n n' n'' : NodeId} (h : Numbers n n' extra) (h' : Numbers n' n'' extra') :
    Numbers n n'' (extra ++ extra') where
  le := Nat.le_trans h.le h'.le
  nodup := by
    refine List.nodup_append.mpr ⟨h.nodup, h'.nodup, fun i hi j hj he => ?_⟩
    exact absurd (h.between i hi).2 (Nat.not_lt.mpr (he ▸ (h'.between j hj).1))
  between i hi := by
    rcases List.mem_append.mp hi with hi | hi
    · exact ⟨(h.between i hi).1, Nat.lt_of_lt_of_le (h.between i hi).2 h'.le⟩
    · exact ⟨Nat.le_trans h.le (h'.between i hi).1, (h'.between i hi).2⟩

theorem Numbers.singleton (n : NodeId) : Numbers n (n + 1) [n] :=
  ⟨Nat.le_succ n, List.nodup_singleton n, fun i hi => by
    rw [List.mem_singleton.mp hi]
    exact ⟨Nat.le_refl n, Nat.lt_succ_self n⟩⟩

mutual
theorem flatten_alike (held : Bool) (next : NodeId) : (c : Component) →
    ∃ extra, Alike extra [c] [(c.flatten held next).1] ∧
      Numbers next (c.flatten held next).2 extra
  | .block i => ⟨[], .refl _, .nil next⟩
  | .seq i elements => by
    obtain ⟨extra, h, hn⟩ := flattenAll_alike next elements
    refine ⟨extra, ?_, hn⟩
    have hflat := h.grows.alike (alike_flatMap_spliced (flattenAll next elements).1)
    rw [List.append_nil] at hflat
    exact alike_collapse hflat held i
  | .fork i cond cases => by
    obtain ⟨extra, h, hn⟩ := flattenAll_alike next cases
    have hfork : Alike extra [.fork i cond cases] [.fork i cond (flattenAll next cases).1] :=
      Grows.fork h rfl i
    rw [flatten]
    generalize flattenAll next cases = r at hfork hn
    obtain ⟨ds, n⟩ := r
    dsimp only
    split
    · refine ⟨extra, ?_, hn⟩
      rw [← List.append_nil extra]
      exact hfork.trans (alike_fork_nil i cond)
    · next c =>
      refine ⟨extra ++ [n], ?_, hn.append (.singleton n)⟩
      have hone := hfork.trans (alike_fork_one i cond c)
      rw [List.append_nil] at hone
      have hflat := hone.trans ((Alike.refl [.block cond]).append (alike_spliced c))
      rw [List.append_nil, List.append_nil] at hflat
      exact alike_collapse_new hflat true n
    · exact ⟨extra, hfork, hn⟩
  | .loop i start cond body update after => by
    obtain ⟨e₁, h₁, n₁⟩ := flatten_alike true next start
    obtain ⟨e₂, h₂, n₂⟩ := flatten_alike true _ body
    obtain ⟨e₃, h₃, n₃⟩ := flatten_alike true _ update
    exact ⟨e₁ ++ e₂ ++ e₃, Grows.loop h₁ h₂ h₃ rfl rfl i, (n₁.append n₂).append n₃⟩

theorem flattenAll_alike (next : NodeId) : (cs : List Component) →
    ∃ extra, GrowsEach (fun _ => none) extra cs (flattenAll next cs).1 ∧
      Numbers next (flattenAll next cs).2 extra
  | [] => ⟨[], .nil, .nil next⟩
  | c :: cs => by
    obtain ⟨extra, h, hn⟩ := flatten_alike true next c
    obtain ⟨extra', h', hn'⟩ := flattenAll_alike (c.flatten true next).2 cs
    exact ⟨extra ++ extra', .cons h h', hn.append hn'⟩
end

end

end DefFlow.Flow.Component
