import DefFlow.Flow.Leaves
import DefFlow.Proofs.Tree.Parts

/-!
# Remembered leaves

Records are right for some trees if none is younger than the trees and those of the same age are
about parts of them. Main statement: with such records a part is answered for by its leaves, and the
records stay right, so nothing has to be asked about which structures have been asked before.
-/

set_option autoImplicit false

namespace DefFlow.Flow

open Component

section

variable {ts : List Component} {age : Nat} {c : NodeId} {d : Component} {l l' : List NodeId}
  {m : LeafRecords} {x : StateM LeafRecords (List NodeId)}

def LeafRecords.Right (ts : List Component) (age : Nat) (m : LeafRecords) : Prop :=
  ∀ {c stamp leaves}, m.lookup c = some (stamp, leaves) →
    stamp ≤ age ∧ (stamp = age → ∃ d : Component, d.PartOf ts ∧ d.id = c ∧ d.leaves = leaves)

theorem LeafRecords.Right.find? (h : m.Right ts age) (hn : (idsAll ts).Nodup) (hd : d.PartOf ts)
    (hl : m.find? age d.id = some l) : l = d.leaves := by
  rw [LeafRecords.find?] at hl
  split at hl
  · next stamp leaves hm =>
    split at hl
    · next hage =>
      obtain ⟨e, he, hid, hleaves⟩ := (h hm).2 hage
      rw [← Option.some.inj hl, ← hleaves, he.unique hd hn hid]
    · cases hl
  · cases hl

theorem LeafRecords.Right.cons (h : m.Right ts age) (hd : d.PartOf ts) :
    LeafRecords.Right ts age ((d.id, (age, d.leaves)) :: m) := by
  intro c stamp leaves hm
  rcases of_lookup_cons hm with ⟨rfl, hsame⟩ | ⟨-, hm⟩
  · cases hsame
    exact ⟨Nat.le_refl _, fun _ => ⟨d, hd, rfl, rfl⟩⟩
  · exact h hm

/-- Records stay right when the trees grow older, and when only new trees are added. -/
theorem LeafRecords.Right.older {ts' : List Component} {age' : Nat} (h : m.Right ts age)
    (hage : age < age' ∨ (age' = age ∧ ts <+: ts')) : m.Right ts' age' := by
  intro c stamp leaves hm
  obtain ⟨hle, hnow⟩ := h hm
  rcases hage with hlt | ⟨rfl, l, rfl⟩
  · exact ⟨by omega, fun he => by omega⟩
  · refine ⟨hle, fun he => ?_⟩
    obtain ⟨d, ⟨e, he, hw⟩, hid, hleaves⟩ := hnow he
    exact ⟨d, ⟨e, List.mem_append_left l he, hw⟩, hid, hleaves⟩

def Recalls (ts : List Component) (age : Nat) (x : StateM LeafRecords (List NodeId))
    (l : List NodeId) : Prop :=
  ∀ m : LeafRecords, m.Right ts age → (x.run m).1 = l ∧ LeafRecords.Right ts age (x.run m).2

namespace Recalls

theorem pure (l : List NodeId) : Recalls ts age (Pure.pure l) l := fun _ hm => ⟨rfl, hm⟩

theorem bind {g : List NodeId → StateM LeafRecords (List NodeId)} (hx : Recalls ts age x l)
    (hg : Recalls ts age (g l) l') : Recalls ts age (x >>= g) l' := by
  intro m hm
  obtain ⟨hl, hm'⟩ := hx m hm
  have hrun : (x >>= g).run m = (g (x.run m).1).run (x.run m).2 := rfl
  rw [hrun, hl]
  exact hg _ hm'

/-- What is remembered of a part is what would be computed. -/
theorem remembering (hn : (idsAll ts).Nodup) (hd : d.PartOf ts) (hx : Recalls ts age x d.leaves) :
    Recalls ts age (Component.remembering age d.id x) d.leaves := by
  intro m hm
  rw [Component.remembering, StateT.run_bind, StateT.run_get, pure_bind]
  cases hl : m.find? age d.id with
  | some l => exact ⟨hm.find? hn hd hl, hm⟩
  | none =>
    obtain ⟨hl, hm'⟩ := hx m hm
    have hcons : LeafRecords.Right ts age ((d.id, (age, d.leaves)) :: (x.run m).2) := hm'.cons hd
    rw [← hl] at hcons
    exact ⟨hl, hcons⟩

end Recalls

mutual
theorem recallLeaves_recalls (hn : (idsAll ts).Nodup) : (d : Component) → d.PartOf ts →
    Recalls ts age (d.recallLeaves age) d.leaves
  | .block b, _ => .pure [b]
  | .seq s es, hd => by
    refine .remembering hn hd (recallLast_recalls hn es fun e he => ?_)
    exact hd.trans (.of_mem_seq he .here)
  | .fork s cond cases, hd => by
    refine .remembering hn hd (.bind (recallCases_recalls hn cond cases fun e he => ?_) (.pure _))
    exact hd.trans (.of_mem_fork he .here)
  | .loop _ _ _ _ _ after, _ => .pure [after]

theorem recallLast_recalls (hn : (idsAll ts).Nodup) : (es : List Component) →
    (∀ e ∈ es, e.PartOf ts) → Recalls ts age (recallLast age es) (leavesLast es)
  | [], _ => .pure []
  | e :: es, he => by
    have hlater := recallLast_recalls hn es fun x hx => he x (List.mem_cons_of_mem _ hx)
    refine .bind hlater ?_
    rw [leavesLast, orElse]
    split
    · exact recallLeaves_recalls hn e (he e List.mem_cons_self)
    · exact .pure _

theorem recallCases_recalls (hn : (idsAll ts).Nodup) (cond : NodeId) : (cs : List Component) →
    (∀ c ∈ cs, c.PartOf ts) → Recalls ts age (recallCases age cond cs) (leavesCases cond cs)
  | [], _ => .pure [cond]
  | [c], hc => .bind (recallLeaves_recalls hn c (hc c List.mem_cons_self)) (.pure _)
  | c :: c' :: cs, hc =>
    .bind (recallLeaves_recalls hn c (hc c List.mem_cons_self))
      (.bind (recallCases_recalls hn cond (c' :: cs) fun x hx => hc x (List.mem_cons_of_mem _ hx))
        (.pure _))
end

theorem recallLeaves_find? (hn : (idsAll ts).Nodup) (hd : findAll? c ts = some d) :
    Recalls ts age (d.recallLeaves age) d.leaves := by
  rcases within_of_findAll? ts hd with ⟨b, rfl⟩ | ⟨e, he, hw, -⟩
  · exact .pure [b]
  · exact recallLeaves_recalls hn d ⟨e, he, hw⟩

end

end DefFlow.Flow
