import DefFlow.Proofs.Tree.Parts
import DefFlow.Proofs.Tree.Region
import Mathlib.Data.List.Chain
import Mathlib.Order.WellFounded

/-!
# Cycles of a component tree

A loop is entered through its condition only, and an edge that does not lead forward leads to
the condition of a loop around it. Main statement: every block is reached from the entry, and a
cycle passes through the condition of a loop that holds all of its blocks.
-/

set_option autoImplicit false

namespace DefFlow.Flow.Component

variable {c : Component} {h : NodeId} {r r' : List NodeId}

mutual
/-- What is listed as a loop is one of the tree, with the blocks that one round passes. -/
theorem within_of_mem_loops : (c : Component) → (h, r) ∈ c.loops →
    ∃ i start body update after, Within (.loop i start h body update after) c ∧
      r = h :: (body.blocks ++ update.blocks)
  | .block _ => by simp [loops]
  | .seq i elements => by
    intro hl
    obtain ⟨e, he, i', start, body, update, after, hw, hr⟩ := within_of_mem_loopsAll elements hl
    exact ⟨i', start, body, update, after, .of_mem_seq he hw, hr⟩
  | .fork i cond cases => by
    intro hl
    obtain ⟨e, he, i', start, body, update, after, hw, hr⟩ := within_of_mem_loopsAll cases hl
    exact ⟨i', start, body, update, after, .of_mem_fork he hw, hr⟩
  | .loop i start cond body update after => by
    simp only [loops, List.mem_cons, List.mem_append, Prod.mk.injEq]
    rintro (⟨rfl, rfl⟩ | (hl | hl) | hl)
    · exact ⟨i, start, body, update, after, .here, rfl⟩
    · obtain ⟨i', s, b, u, a, hw, hr⟩ := within_of_mem_loops start hl
      exact ⟨i', s, b, u, a, .start hw, hr⟩
    · obtain ⟨i', s, b, u, a, hw, hr⟩ := within_of_mem_loops body hl
      exact ⟨i', s, b, u, a, .body hw, hr⟩
    · obtain ⟨i', s, b, u, a, hw, hr⟩ := within_of_mem_loops update hl
      exact ⟨i', s, b, u, a, .update hw, hr⟩

theorem within_of_mem_loopsAll : (cs : List Component) → (h, r) ∈ loopsAll cs →
    ∃ c ∈ cs, ∃ i start body update after, Within (.loop i start h body update after) c ∧
      r = h :: (body.blocks ++ update.blocks)
  | [] => by simp [loopsAll]
  | c :: cs => by
    rw [loopsAll, List.mem_append]
    rintro (hl | hl)
    · exact ⟨c, List.mem_cons_self, within_of_mem_loops c hl⟩
    · obtain ⟨d, hd, hw⟩ := within_of_mem_loopsAll cs hl
      exact ⟨d, List.mem_cons_of_mem _ hd, hw⟩
end

theorem loops_unique (hn : c.ids.Nodup) (hr : (h, r) ∈ c.loops) (hr' : (h, r') ∈ c.loops) :
    r = r' := by
  obtain ⟨i, start, body, update, after, hw, rfl⟩ := within_of_mem_loops c hr
  obtain ⟨i', start', body', update', after', hw', rfl⟩ := within_of_mem_loops c hr'
  obtain ⟨role, rest, hp⟩ := hw.pathIn_child hn (t := h) (by simp [children, Component.id])
  obtain ⟨role', rest', hp'⟩ := hw'.pathIn_child hn (t := h) (by simp [children, Component.id])
  rw [hp, Option.some.injEq, List.cons.injEq, Prod.mk.injEq] at hp'
  cases hw.unique hw' hn hp'.1.1
  rfl

end DefFlow.Flow.Component

namespace DefFlow.Flow.Func

open Component Relation

variable {f : Func} {p s x cond : NodeId} {round : List NodeId}

/-- The body has a loop with this condition. The blocks of a round are its condition and those of
its body and its update. -/
def LoopsAt (f : Func) (cond : NodeId) (round : List NodeId) : Prop :=
  ∃ i start body update after, f.body.find? i = some (.loop i start cond body update after) ∧
    round = cond :: (body.blocks ++ update.blocks)

theorem loopsAt_of_mem (hn : f.body.ids.Nodup) (hl : (cond, round) ∈ f.body.loops) :
    f.LoopsAt cond round := by
  obtain ⟨i, start, body, update, after, hw, hr⟩ := within_of_mem_loops f.body hl
  exact ⟨i, start, body, update, after, hw.find? hn, hr⟩

theorem mem_succs_iff_edge (hn : f.body.ids.Nodup) (hp : p ∈ f.blocks) :
    s ∈ f.succs p ↔ f.body.Edge p s := by
  obtain ⟨l, hl, hmem⟩ := succsIn_answer f.body [] hn hp
  rw [succs_of_body hl, hmem]
  simp

theorem blocks_nodup_of_body (hn : f.body.ids.Nodup) : f.blocks.Nodup :=
  (blocks_sublist f.body).nodup hn

/-- An edge leads forward, or back to the condition of a loop from within a round of it. -/
theorem forward_or_loops (hn : f.body.ids.Nodup) (hp : p ∈ f.blocks) (hs : s ∈ f.succs p) :
    f.blocks.idxOf p < f.blocks.idxOf s ∨ ∃ round, (s, round) ∈ f.body.loops ∧ p ∈ round :=
  (forward_or_back f.body ((mem_succs_iff_edge hn hp).mp hs)).imp_left
    (idxOf_lt_of_before (blocks_nodup_of_body hn))

/-- Each block but the entry has a predecessor in front of it, and so on up to the entry. -/
theorem reached_from_entry (hn : f.body.ids.Nodup) {b : NodeId} (hb : b ∈ f.blocks) :
    ∃ e, f.entry = some e ∧ ReflTransGen (fun p s => s ∈ f.succs p) e b := by
  induction hk : f.blocks.idxOf b using Nat.strong_induction_on generalizing b with
  | _ n ih =>
    rcases entry_or_forward f.body hb with he | ⟨p, hedge, hbefore⟩
    · exact ⟨b, he, .refl⟩
    · have hp : p ∈ f.blocks := (Edge.mem f.body hedge).1
      have hlt := idxOf_lt_of_before (blocks_nodup_of_body hn) hbefore
      obtain ⟨e, he, hreach⟩ := ih _ (hk ▸ hlt) hp rfl
      exact ⟨e, he, hreach.tail ((mem_succs_iff_edge hn hp).mpr hedge)⟩

section

variable {R : NodeId → NodeId → Prop} {P : NodeId → Prop} {w : List NodeId}

/-- In a chain that ends where it starts every block follows another one. -/
theorem exists_before_of_closed_chain (hw : (x :: w ++ [x]).IsChain R) (hs : s ∈ x :: w) :
    ∃ p ∈ x :: w, R p s := by
  obtain ⟨l, k, hl⟩ := List.append_of_mem hs
  rcases List.eq_nil_or_concat l with rfl | ⟨l, p, rfl⟩
  · -- The chain starts with the block, so the last one leads to it.
    obtain rfl : x = s := (List.cons.inj hl).1
    obtain ⟨l, p, hp⟩ := (List.eq_nil_or_concat (x :: w)).resolve_left (List.cons_ne_nil _ _)
    rw [List.concat_eq_append] at hp
    rw [hp, List.append_assoc] at hw
    exact ⟨p, by simp [hp], List.isChain_pair.mp hw.right_of_append⟩
  · rw [List.concat_eq_append, List.append_assoc] at hl
    rw [hl, List.append_assoc] at hw
    exact ⟨p, by simp [hl], (List.isChain_cons_cons.mp hw.right_of_append).1⟩

/-- A property that goes over from each block to the one before it holds of all blocks of such a
chain if it holds of one of them. -/
theorem of_closed_chain (hw : (x :: w ++ [x]).IsChain R) (hback : ∀ ⦃p s⦄, R p s → P s → P p)
    (hp : p ∈ x :: w) (hP : P p) : ∀ y ∈ x :: w, P y := by
  obtain ⟨l, k, hl⟩ := List.append_of_mem hp
  have hfront : (l ++ [p]).IsChain R := by
    rw [hl, List.append_assoc, List.cons_append, List.append_cons] at hw
    exact hw.left_of_append
  have hx : P x := by
    cases l with
    | nil => exact (List.cons.inj hl).1 ▸ hP
    | cons y l =>
      rw [(List.cons.inj hl).1]
      exact hfront.backwards_concat_induction P (y :: l) hback hP y List.mem_cons_self
  exact hw.backwards_concat_induction P (x :: w) hback hx

end

/-- The first block of a cycle, in the order of the blocks, is the condition of a loop that the
cycle does not leave. -/
theorem cycle_in_loop (hn : f.body.ids.Nodup) {w : List NodeId} (hin : ∀ y ∈ x :: w, y ∈ f.blocks)
    (hw : (x :: w ++ [x]).IsChain fun p s => s ∈ f.succs p) :
    ∃ cond round, f.LoopsAt cond round ∧ cond ∈ x :: w ∧ ∀ y ∈ x :: w, y ∈ round := by
  have hmem : ∀ y ∈ x :: w ++ [x], y ∈ x :: w := fun y hy => by
    rcases List.mem_append.mp hy with hy | hy
    · exact hy
    · exact List.mem_singleton.mp hy ▸ List.mem_cons_self
  -- The edges of the cycle, with both ends on it.
  have hwhole : (x :: w ++ [x]).IsChain fun p s => p ∈ x :: w ∧ s ∈ x :: w ∧ s ∈ f.succs p :=
    hw.imp_of_mem_imp fun p s hp hs he => ⟨hmem p hp, hmem s hs, he⟩
  obtain ⟨cond, hcond, hfirst⟩ : ∃ cond ∈ x :: w, ∀ y ∈ x :: w,
      f.blocks.idxOf cond ≤ f.blocks.idxOf y := by
    obtain ⟨cond, hc, hmin⟩ := (measure f.blocks.idxOf).wf.has_min {y | y ∈ x :: w}
      ⟨x, List.mem_cons_self⟩
    exact ⟨cond, hc, fun y hy => Nat.le_of_not_lt (hmin y hy)⟩
  have hback : ∀ {p}, p ∈ x :: w → cond ∈ f.succs p →
      ∃ round, (cond, round) ∈ f.body.loops ∧ p ∈ round := fun hp he =>
    (forward_or_loops hn (hin _ hp) he).resolve_left (Nat.not_lt.mpr (hfirst _ hp))
  obtain ⟨p, hp, hpe⟩ := exists_before_of_closed_chain hw hcond
  obtain ⟨round, hround, hpr⟩ := hback hp hpe
  refine ⟨cond, round, loopsAt_of_mem hn hround, hcond, of_closed_chain hwhole ?_ hp hpr⟩
  rintro q y ⟨hq, -, he⟩ hy
  by_cases hyc : y = cond
  · subst hyc
    obtain ⟨round', hround', hq'⟩ := hback hq he
    exact loops_unique hn hround' hround ▸ hq'
  · exact edge_in_loop f.body hn hround hy hyc ((mem_succs_iff_edge hn (hin q hq)).mp he)

/-- Control can come from the entry to every block. An edge leads forward in the order of the
blocks or comes back to the condition of a loop, from the condition itself or from its body or
update. So whoever goes round in a circle passes the condition of a loop and stays in that loop. -/
theorem control_flow_is_reducible (hn : f.body.ids.Nodup) :
    (∀ b ∈ f.blocks, ∃ e, f.entry = some e ∧ ReflTransGen (fun p s => s ∈ f.succs p) e b) ∧
    (∀ p ∈ f.blocks, ∀ s ∈ f.succs p, f.blocks.idxOf p < f.blocks.idxOf s ∨
      ∃ round, f.LoopsAt s round ∧ p ∈ round) ∧
    ∀ x w, (∀ y ∈ x :: w, y ∈ f.blocks) → (x :: w ++ [x]).IsChain (fun p s => s ∈ f.succs p) →
      ∃ cond round, f.LoopsAt cond round ∧ cond ∈ x :: w ∧ ∀ y ∈ x :: w, y ∈ round := by
  refine ⟨fun b hb => reached_from_entry hn hb, fun p hp s hs => ?_, fun x w hin hw =>
    cycle_in_loop hn hin hw⟩
  exact (forward_or_loops hn hp hs).imp_right fun ⟨round, hr, hpr⟩ =>
    ⟨round, loopsAt_of_mem hn hr, hpr⟩

/-- The way through the empty case of the fork and back is a round of the loop around it. -/
theorem control_flow_is_reducible_around_fork :
    [6, 9, 6].IsChain (fun p s => s ∈ loopAroundFork.succs p) ∧
      ∃ cond round, loopAroundFork.LoopsAt cond round ∧ cond ∈ [6, 9] ∧
          ∀ y ∈ [6, 9], y ∈ round := by
  have hround : [6, 9, 6].IsChain (fun p s => s ∈ loopAroundFork.succs p) := by decide
  exact ⟨hround, (control_flow_is_reducible (f := loopAroundFork) (by decide)).2.2 6 [9]
    (by decide) hround⟩

end DefFlow.Flow.Func
