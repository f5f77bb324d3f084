import DefFlow.Proofs.Edits.Stock
import DefFlow.Proofs.Resolution.Endless

/-!
# Searches in every tree

A search reads the tree of its block and no other. Seen from the root of that tree a function is
one whose body it is, so what holds of the blocks of the body holds in every tree. Main statement:
the search ends for every block that is part of a tree, and the joins that it finds can be built.
-/

set_option autoImplicit false

namespace DefFlow.Flow

open Func Component

section

variable {f g : Func} {b : NodeId} {v : VarId}

/-! ## What a search reads -/

theorem walkUp_congr (hp : g.preds = f.preds) (he : ∀ b v, g.explicit? b v = f.explicit? b v)
    (v : VarId) (active : List NodeId) (tops : List (NodeId × Reach)) (n : Nat) (x : NodeId) :
    g.walkUp v active tops n x = f.walkUp v active tops n x := by
  induction n generalizing x with
  | zero => rfl
  | succ n ih => simp only [walkUp, hp, he, ih]

theorem canon_congr (hv : g.vars = f.vars) (s : Stack) (r : Reach) : s.canon g r = s.canon f r := by
  rw [Stack.canon, Stack.canon, varAt, varAt, var?.eq_def, var?.eq_def, hv]

theorem distinct_congr (hv : g.vars = f.vars) (s : Stack) (j : NodeId) (values : List Reach) :
    s.distinct g j values = s.distinct f j values := by
  rw [Stack.distinct, Stack.distinct, funext (canon_congr hv s)]

theorem searchJoin_congr (hp : g.preds = f.preds) (he : ∀ b v, g.explicit? b v = f.explicit? b v)
    (hj : ∀ b v, g.joined? b v = f.joined? b v) (hn : g.nodes.size = f.nodes.size)
    (hv : g.vars = f.vars) (v : VarId) (n : Nat) (active : List NodeId) (j : NodeId) (s : Stack) :
    g.searchJoin v n active j s = f.searchJoin v n active j s := by
  induction n generalizing active j s with
  | zero => rfl
  | succ n ih =>
    simp only [searchJoin, walk, walkUp_congr hp he, hp, he, hj, hn, distinct_congr hv, ih]

theorem eliminateOnce_congr (hv : g.vars = f.vars) (s : Stack) :
    s.eliminateOnce g = s.eliminateOnce f := by
  simp only [Stack.eliminateOnce, distinct_congr hv]

theorem eliminate_congr (hv : g.vars = f.vars) (n : Nat) (s : Stack) :
    Stack.eliminate g n s = Stack.eliminate f n s := by
  induction n generalizing s with
  | zero => rfl
  | succ n ih => simp only [Stack.eliminate, eliminateOnce_congr hv, ih]

theorem solve_congr (hp : g.preds = f.preds) (he : ∀ b v, g.explicit? b v = f.explicit? b v)
    (hj : ∀ b v, g.joined? b v = f.joined? b v) (hn : g.nodes.size = f.nodes.size)
    (hv : g.vars = f.vars) (b : NodeId) (v : VarId) : g.solve b v = f.solve b v := by
  simp only [solve, walk, walkUp_congr hp he, hj, hn, searchJoin_congr hp he hj hn hv,
    canon_congr hv, eliminate_congr hv]

theorem solve_memo (f : Func) (m : List (Question × Stack)) (b : NodeId) (v : VarId) :
    ({ f with memo := m } : Func).solve b v = f.solve b v := by
  refine solve_congr ?_ ?_ ?_ ?_ ?_ b v <;> intros <;> rfl

/-! ## Steps that read the same -/

theorem Func.Walks.congr (hp : g.preds = f.preds) (he : ∀ b v, g.explicit? b v = f.explicit? b v)
    {active seen : List NodeId} {tops : List (NodeId × Reach)} {x : NodeId} {e : WalkEnd}
    (h : f.Walks v active tops seen x e) : g.Walks v active tops seen x e := by
  induction h with
  | start hx => exact .start (hp ▸ hx)
  | decided hx ht => exact .decided (hp ▸ hx) (he _ _ ▸ ht)
  | again hx ht hs => exact .again (hp ▸ hx) (he _ _ ▸ ht) hs
  | pass hx ht hs _ ih => exact .pass (hp ▸ hx) (he _ _ ▸ ht) hs ih
  | active hx ha => exact .active (hp ▸ hx) ha
  | known hx ha ht => exact .known (hp ▸ hx) ha ht
  | opens hx ha ht => exact .opens (hp ▸ hx) ha ht

mutual
theorem Func.Explores.congr (hp : g.preds = f.preds)
    (he : ∀ b v, g.explicit? b v = f.explicit? b v) (hv : g.vars = f.vars) {active : List NodeId}
    {j : NodeId} {s s' : Stack} {r : Reach} :
    f.Explores v active j s r s' → g.Explores v active j s r s'
  | .close hpaths hvalues => by
    have h := hpaths.congr hp he hv
    rw [← hp] at h ⊢
    exact .close h (distinct_congr hv _ _ _ ▸ hvalues)

theorem Func.ExploresAll.congr (hp : g.preds = f.preds)
    (he : ∀ b v, g.explicit? b v = f.explicit? b v) (hv : g.vars = f.vars)
    {active ps : List NodeId} {acc acc' : List Reach × Stack} :
    f.ExploresAll v active ps acc acc' → g.ExploresAll v active ps acc acc'
  | .done => .done
  | .decided ht h => .decided (he _ _ ▸ ht) (h.congr hp he hv)
  | .known ht hw h => .known (he _ _ ▸ ht) (hw.congr hp he) (h.congr hp he hv)
  | .opens ht hw hj h =>
    .opens (he _ _ ▸ ht) (hw.congr hp he) (hj.congr hp he hv) (h.congr hp he hv)
end

theorem Stack.Drops.congr (hv : g.vars = f.vars) {s s' : Stack} (h : s.Drops f s') :
    s.Drops g s' := by
  induction h with
  | last h hn => exact .last (eliminateOnce_congr hv _ ▸ h) hn
  | again h hn _ ih => exact .again (eliminateOnce_congr hv _ ▸ h) hn ih

theorem Func.Gathers.congr (hp : g.preds = f.preds)
    (he : ∀ b v, g.explicit? b v = f.explicit? b v) (hj : ∀ b v, g.joined? b v = f.joined? b v)
    (hv : g.vars = f.vars) {s : Stack} (h : f.Gathers v b s) : g.Gathers v b s := by
  cases h with
  | joined h => exact .joined (hj _ _ ▸ h)
  | known h hw => exact .known (hj _ _ ▸ h) (hw.congr hp he)
  | opens h hw hx hc =>
    exact .opens (hj _ _ ▸ h) (hw.congr hp he) (hx.congr hp he hv) (canon_congr hv _ _ ▸ hc)

theorem Func.Ends.congr (hp : g.preds = f.preds)
    (he : ∀ b v, g.explicit? b v = f.explicit? b v) (hj : ∀ b v, g.joined? b v = f.joined? b v)
    (hv : g.vars = f.vars) {s : Stack} (h : f.Ends v b s) : g.Ends v b s := by
  obtain ⟨s₁, s₂, r, hg, hd, hc, rfl⟩ := h
  exact ⟨s₁, s₂, r, hg.congr hp he hj hv, hd.congr hv, canon_congr hv _ _ ▸ hc, rfl⟩

/-! ## Another root -/

def Func.rooted (f : Func) (root : Component) (rest : List Component) : Func :=
  { f with body := root, bodyHeld := true, detached := rest }

theorem pairwise_disjoint {cs : List Component} (h : (idsAll cs).Nodup) :
    cs.Pairwise fun c d => c.ids.Disjoint d.ids := by
  induction cs with
  | nil => exact .nil
  | cons c cs ih =>
    rw [idsAll, List.nodup_append] at h
    refine List.pairwise_cons.mpr ⟨fun d hd i hc hi => ?_, ih h.2.1⟩
    exact h.2.2 i hc i (PartOf.mem_ids ⟨d, hd, .here⟩ hi) rfl

/-- What at most one element knows is found in any order. -/
theorem findSome?_perm {α β : Type} {F : α → Option β} {l l' : List α} (h : l.Perm l')
    (hone : l.Pairwise fun a b => F a = none ∨ F b = none) : l.findSome? F = l'.findSome? F := by
  induction h with
  | nil => rfl
  | cons a _ ih =>
    rw [List.findSome?_cons, List.findSome?_cons, ih (List.pairwise_cons.mp hone).2]
  | swap a b l =>
    have := (List.pairwise_cons.mp hone).1 a List.mem_cons_self
    simp only [List.findSome?_cons]
    rcases this with hb | ha
    · rw [hb]
    · rw [ha]
  | trans h _ ih ih' =>
    refine (ih hone).trans (ih' ?_)
    exact (h.pairwise_iff fun {a b} hab => Or.symm hab).mp hone

variable {root : Component} {rest : List Component}

theorem preds_rooted (h : (idsAll f.trees).Nodup) (hp : (root :: rest).Perm f.trees) :
    (f.rooted root rest).preds = f.preds := by
  funext x
  have hone : f.trees.Pairwise fun c d => c.predsIn x [] = none ∨ d.predsIn x [] = none := by
    refine (pairwise_disjoint h).imp fun {c d} hdis => ?_
    by_cases hx : x ∈ c.ids
    · exact Or.inr (predsIn_eq_none d [] fun hd => hdis hx hd)
    · exact Or.inl (predsIn_eq_none c [] hx)
  show ((root :: rest).findSome? fun c => c.predsIn x []).getD [] = _
  rw [← findSome?_perm hp.symm hone]
  rfl

theorem succs_rooted (h : (idsAll f.trees).Nodup) (hp : (root :: rest).Perm f.trees) :
    (f.rooted root rest).succs = f.succs := by
  funext x
  have hone : f.trees.Pairwise fun c d => c.succsIn x [] = none ∨ d.succsIn x [] = none := by
    refine (pairwise_disjoint h).imp fun {c d} hdis => ?_
    by_cases hx : x ∈ c.ids
    · exact Or.inr (succsIn_eq_none d [] fun hd => hdis hx hd)
    · exact Or.inl (succsIn_eq_none c [] hx)
  show ((root :: rest).findSome? fun c => c.succsIn x []).getD [] = _
  rw [← findSome?_perm hp.symm hone]
  rfl

theorem forest_rooted (h : f.Forest) (hp : (root :: rest).Perm f.trees) :
    (f.rooted root rest).Forest where
  held := rfl
  nodup := (idsAll_perm hp).nodup_iff.mpr h.nodup
  bounded i hi := h.bounded i ((idsAll_perm hp).mem_iff.mp hi)
  stored b hb := h.stored b ((blocksAll_perm hp).mem_iff.mp hb)

theorem tables_rooted (h : f.Tables) : (f.rooted root rest).Tables :=
  ⟨h.placed, h.listed, h.sorted, h.owner, h.node, h.nodes_nodup, h.target, h.referrer,
    h.referrers_nodup⟩

theorem exists_rest (hroot : root ∈ f.trees) : ∃ rest, (root :: rest).Perm f.trees := by
  obtain ⟨l, r, hlr⟩ := List.append_of_mem hroot
  exact ⟨l ++ r, hlr ▸ List.perm_middle.symm⟩

theorem exists_root (hb : b ∈ blocksAll f.trees) :
    ∃ root rest, (root :: rest).Perm f.trees ∧ b ∈ root.blocks := by
  obtain ⟨root, hroot, hb⟩ := mem_blocksAll.mp hb
  obtain ⟨rest, hp⟩ := exists_rest hroot
  exact ⟨root, rest, hp, hb⟩

/-! ## Every tree -/

/-- A search that has ended well: every join that it has opened is a block that it has opened
once, every chain of its values comes to an end in time, and no value of a join that is left is
still open. -/
structure Func.Completed (f : Func) (v : VarId) (b : NodeId) (s : Stack) : Prop where
  solved : f.solve b v = .ok s
  ends : f.Ends v b s
  once : s.joins.Nodup
  settles : ∀ r, ∃ c, s.follow (2 * s.frames.length + 2) r = some c
  closed : ∀ j ∈ s.surviving, ∀ r ∈ (s.frame j).values, ∀ k, s.canon f r ≠ .ok (.pending k)

theorem completed_of_solution {s : Stack} (hf : f.Forest) (hs : f.solve b v = .ok s)
    (h : Solution f v b s) (he : f.Ends v b s) : f.Completed v b s where
  solved := hs
  ends := he
  once := h.search.nodup
  settles r := by
    have hc := h.readable.canon f r
    rw [Stack.canon] at hc
    cases hr : s.follow (2 * s.frames.length + 2) r with
    | some c => exact ⟨c, rfl⟩
    | none =>
      rw [hr] at hc
      cases hc
  closed j hj r hr k hk := by
    have hopens := h.search.block (h.phi_of_surviving hj)
    obtain ⟨p, hp, hc⟩ := forall₂_right (h.values_of_mem (h.phi_of_surviving hj)) hr
    have hground := h.search.grounded_carried hf.net (hf.net.mem hopens.block hp) hc
    rw [h.readable.canon, Except.ok.injEq] at hk
    rw [hk] at hground
    exact hground

/-- The search ends for a block of any tree, and the joins that it leaves can be built. -/
theorem solve_anywhere (hf : f.Forest) (ht : f.Tables) (hb : b ∈ blocksAll f.trees) (v : VarId) :
    ∃ s, f.Completed v b s ∧
      ∃ c f', Edit.buildJoins s f = .ok { s with created := c } f' := by
  obtain ⟨root, rest, hp, hbr⟩ := exists_root hb
  have hforest := forest_rooted hf hp
  have hpreds := preds_rooted hf.nodup hp
  have hsolve := solve_congr (f := f) hpreds (fun _ _ => rfl) (fun _ _ => rfl) rfl rfl b v
  obtain ⟨s, hs, hsol, hends⟩ := solve_ends hforest.net hbr v
  obtain ⟨c, f', hrun, -⟩ := hsol.buildJoins_beside (g := f) hforest (tables_rooted ht) ht rfl rfl
    rfl
  have hdone := completed_of_solution hforest hs hsol hends
  refine ⟨s, ⟨hsolve ▸ hs, ?_, hdone.once, hdone.settles, fun j hj r hr k => ?_⟩, c, f', hrun⟩
  · exact hends.congr hpreds.symm (fun _ _ => rfl) (fun _ _ => rfl) rfl
  · rw [canon_congr (g := f) (f := f.rooted root rest) rfl]
    exact hdone.closed j hj r hr k

end

end DefFlow.Flow
