import DefFlow.Proofs.Graph.Confluence
import Mathlib.Logic.Equiv.Basic
import Mathlib.Logic.Relation

/-!
# Marks

A mark names the block that the value leaving a block comes from: an opaque block, or a join
where different marks meet. Marks need no order of the blocks, and there may be cycles that
nothing enters. A graph can be marked in several ways that join more or less; marks that each
follow from the other are the same.
-/

set_option autoImplicit false

namespace DefFlow.Flow

/-- Marks of the blocks of a region. An opaque block marks what leaves it by itself. Every other
block passes the one mark of its predecessors on, unless two of them besides its own meet there. -/
structure Marks (preds : NodeId → List NodeId) (opq region : NodeId → Prop)
    (out : NodeId → Option NodeId) : Prop where
  clear : ∀ {x}, region x → ¬ opq x
  closed : ∀ {x p}, region x → p ∈ preds x → opq p ∨ region p
  opaque_out : ∀ {x}, opq x → out x = some x
  start_out : ∀ {x}, region x → preds x = [] → out x = none
  pass_out : ∀ {x p}, region x → out x ≠ some x → p ∈ preds x → out p = out x
  differ : ∀ {x}, region x → out x = some x →
    ∃ p ∈ preds x, ∃ q ∈ preds x, out p ≠ out q ∧ out p ≠ some x ∧ out q ≠ some x
  /-- A mark is that of a block which the value really comes from. -/
  traced : ∀ {x y}, region x → out x = some y → y ≠ x →
    Arrives preds (fun z => out z = some z) x (some y)

section

variable {preds : NodeId → List NodeId} {opq region region' : NodeId → Prop}
variable {out out' : NodeId → Option NodeId} {x y p : NodeId}

/-- A mark that is passed on from each block to the next is traced along any path. -/
theorem arrives_of_path (hclosed : ∀ {x p}, region x → p ∈ preds x → opq p ∨ region p)
    (hopq : ∀ {x}, opq x → out x = some x)
    (hpass : ∀ {x p}, region x → out x ≠ some x → p ∈ preds x → out p = out x)
    (h : Relation.ReflTransGen (fun a b => b ∈ preds a) x y) (hx : region x)
    (ho : out x = some y) (hne : y ≠ x) : Arrives preds (fun z => out z = some z) x (some y) := by
  induction h using Relation.ReflTransGen.head_induction_on with
  | refl => exact absurd rfl hne
  | @head x p hp _ ih =>
    have hpo : out p = some y := by
      rw [hpass hx (fun h => hne (Option.some.inj (ho.symm.trans h))) hp, ho]
    by_cases hpy : y = p
    · subst hpy
      exact .leaves hp hpo
    · have hnot : ¬ out p = some p := fun h => hpy (Option.some.inj (hpo.symm.trans h))
      exact .passes hp hnot (ih ((hclosed hx hp).resolve_left fun h => hnot (hopq h)) hpo hpy)

namespace Marks

theorem of_arrives (M : Marks preds opq region out) (hx : region x)
    (h : Arrives preds (fun z => out z = some z) x (some y)) :
    out y = some y ∧ (opq y ∨ region y) := by
  generalize ha : some y = a at h
  induction h with
  | start _ => cases ha
  | leaves hp ho =>
    cases ha
    exact ⟨ho, M.closed hx hp⟩
  | passes hp ho _ ih =>
    exact ih ((M.closed hx hp).resolve_left fun h => ho (M.opaque_out h)) ha

/-- What is marked by a block comes from an opaque block or from a join. -/
theorem source (M : Marks preds opq region out) (hx : region x) (ho : out x = some y) :
    out y = some y ∧ (opq y ∨ region y) := by
  by_cases hy : y = x
  · subst hy
    exact ⟨ho, Or.inr hx⟩
  · exact M.of_arrives hx (M.traced hx ho hy)

theorem out_of_single (M : Marks preds opq region out) (hx : region x) (hp : preds x = [p]) :
    out p = out x := by
  refine M.pass_out hx (fun ho => ?_) (by rw [hp]; exact List.mem_singleton_self p)
  obtain ⟨q, hq, r, hr, hne, -, -⟩ := M.differ hx ho
  rw [hp, List.mem_singleton] at hq hr
  exact hne (by rw [hq, hr])

theorem inter (M : Marks preds opq region out) (M' : Marks preds opq region' out') :
    Marks preds opq (fun x => region x ∧ region' x) out where
  clear hx := M.clear hx.1
  closed hx hp := by
    rcases M.closed hx.1 hp with h | h
    · exact Or.inl h
    · exact (M'.closed hx.2 hp).imp_right fun h' => ⟨h, h'⟩
  opaque_out := M.opaque_out
  start_out hx := M.start_out hx.1
  pass_out hx := M.pass_out hx.1
  differ hx := M.differ hx.1
  traced hx := M.traced hx.1

/-- Where marks follow from others, a join of theirs is a join of the others. -/
theorem join_of_finer (M : Marks preds opq region out) (M' : Marks preds opq region' out')
    (h : ∀ {x}, region x → region' x → out x = (out' x).bind out) (hx : region x)
    (hx' : region' x) (ho : out x = some x) : out' x = some x := by
  by_contra hne
  obtain ⟨p, hp, -, -, -, hpx, -⟩ := M.differ hx ho
  have hfiner : out p = (out' p).bind out := by
    by_cases hop : opq p
    · rw [M'.opaque_out hop, Option.bind_some]
    · exact h ((M.closed hx hp).resolve_left hop) ((M'.closed hx' hp).resolve_left hop)
  exact hpx (by rw [hfiner, M'.pass_out hx' hne hp, ← h hx hx', ho])

theorem eq_of_finer (M : Marks preds opq region out) (M' : Marks preds opq region' out')
    (h : ∀ {x}, region x → region' x → out x = (out' x).bind out)
    (h' : ∀ {x}, region' x → region x → out' x = (out x).bind out') (hx : region x)
    (hx' : region' x) : out x = out' x := by
  cases ho : out x with
  | none =>
    rw [h' hx' hx, ho]
    rfl
  | some y =>
    obtain ⟨hy, hsource⟩ := (M.inter M').source ⟨hx, hx'⟩ ho
    have hy' : out' y = some y := by
      rcases hsource with hopq | ⟨hr, hr'⟩
      · exact M'.opaque_out hopq
      · exact M.join_of_finer M' h hr hr' hy
    rw [h' hx' hx, ho, Option.bind_some, hy']

/-- Marks can be put together from marks around each block. -/
theorem of_local (hclear : ∀ {x}, region x → ¬ opq x)
    (hopq : ∀ {x}, opq x → out x = some x)
    (h : ∀ {x}, region x → ∃ near o, Marks preds opq near o ∧ near x ∧
      ∀ y, near y → region y ∧ out y = o y) : Marks preds opq region out := by
  have agree : ∀ {near o}, Marks preds opq near o → (∀ y, near y → region y ∧ out y = o y) →
      ∀ {y}, opq y ∨ near y → out y = o y := by
    intro near o M hnear y hy
    rcases hy with hy | hy
    · rw [hopq hy, M.opaque_out hy]
    · exact (hnear y hy).2
  refine ⟨hclear, fun {x p} hx hp => ?_, hopq, fun {x} hx hp => ?_, fun {x p} hx ho hp => ?_,
    fun {x} hx ho => ?_, fun {x y} hx ho hne => ?_⟩
  · obtain ⟨near, o, M, hn, hnear⟩ := h hx
    exact (M.closed hn hp).imp_right fun h => (hnear p h).1
  · obtain ⟨near, o, M, hn, hnear⟩ := h hx
    rw [(hnear x hn).2, M.start_out hn hp]
  · obtain ⟨near, o, M, hn, hnear⟩ := h hx
    rw [(hnear x hn).2] at ho ⊢
    rw [agree M hnear (M.closed hn hp), M.pass_out hn ho hp]
  · obtain ⟨near, o, M, hn, hnear⟩ := h hx
    rw [(hnear x hn).2] at ho
    obtain ⟨p, hp, q, hq, hd⟩ := M.differ hn ho
    refine ⟨p, hp, q, hq, ?_⟩
    rw [agree M hnear (M.closed hn hp), agree M hnear (M.closed hn hq)]
    exact hd
  · obtain ⟨near, o, M, hn, hnear⟩ := h hx
    rw [(hnear x hn).2] at ho
    have harr := M.traced hn ho hne
    -- The path stays among the blocks that both mark.
    clear ho hne hx
    generalize some y = a at harr
    induction harr with
    | start hp => exact .start hp
    | leaves hp hs => exact .leaves hp (by rw [agree M hnear (M.closed hn hp)]; exact hs)
    | passes hp hs _ ih =>
      have hclosed := M.closed hn hp
      refine .passes hp (by rw [agree M hnear hclosed]; exact hs) (ih ?_)
      exact hclosed.resolve_left fun h => hs (M.opaque_out h)

variable {opq' : NodeId → Prop}

/-- Joins that have been built are opaque, and mark the blocks as before. -/
theorem narrow (M : Marks preds opq region out) (hopq : ∀ {x}, opq x → opq' x)
    (hopq' : ∀ {x}, opq' x → opq x ∨ out x = some x) :
    Marks preds opq' (fun x => region x ∧ ¬ opq' x) out where
  clear hx := hx.2
  closed {x p} hx hp := by
    by_cases hd : opq' p
    · exact Or.inl hd
    · exact Or.inr ⟨(M.closed hx.1 hp).resolve_left fun h => hd (hopq h), hd⟩
  opaque_out hx := (hopq' hx).elim M.opaque_out id
  start_out hx := M.start_out hx.1
  pass_out hx := M.pass_out hx.1
  differ hx := M.differ hx.1
  traced hx := M.traced hx.1

/-- Where joins have been built, marks that tell apart what met there also mark the blocks as
if they had not. -/
theorem widen (M : Marks preds opq region out)
    (M' : Marks preds opq' (fun x => region x ∧ ¬ opq' x) out') (hopq : ∀ {x}, opq x → opq' x)
    (hopq' : ∀ {x}, opq' x → opq x ∨ out x = some x)
    (h : ∀ {x}, region x → ¬ opq' x → out x = (out' x).bind out) :
    Marks preds opq region out' := by
  have hfiner : ∀ {x p}, region x → p ∈ preds x → out p = (out' p).bind out := by
    intro x p hx hp
    by_cases hd : opq' p
    · rw [M'.opaque_out hd, Option.bind_some]
    · exact h ((M.closed hx hp).resolve_left fun hd' => hd (hopq hd')) hd
  have hbuilt : ∀ {x}, region x → opq' x → out' x = some x ∧ out x = some x := fun hx hd =>
    ⟨M'.opaque_out hd, (hopq' hd).resolve_left (M.clear hx)⟩
  refine ⟨M.clear, M.closed, fun hx => M'.opaque_out (hopq hx), fun {x} hx hp => ?_,
    fun {x p} hx ho hp => ?_, fun {x} hx ho => ?_, fun {x y} hx ho hne => ?_⟩
  · by_cases hd : opq' x
    · exact absurd ((hbuilt hx hd).2.symm.trans (M.start_out hx hp)) (by simp)
    · exact M'.start_out ⟨hx, hd⟩ hp
  · exact M'.pass_out ⟨hx, fun hd => ho (hbuilt hx hd).1⟩ ho hp
  · by_cases hd : opq' x
    · obtain ⟨p, hp, q, hq, hpq, hpx, hqx⟩ := M.differ hx (hbuilt hx hd).2
      refine ⟨p, hp, q, hq, fun he => hpq ?_, fun he => hpx ?_, fun he => hqx ?_⟩
      · rw [hfiner hx hp, hfiner hx hq, he]
      · rw [hfiner hx hp, he, Option.bind_some, (hbuilt hx hd).2]
      · rw [hfiner hx hq, he, Option.bind_some, (hbuilt hx hd).2]
    · exact M'.differ ⟨hx, hd⟩ ho
  · refine M'.traced ⟨hx, fun hd => hne ?_⟩ ho hne
    exact Option.some.inj (ho.symm.trans (hbuilt hx hd).1)

end Marks

/-! ## Blocks under other names -/

variable {preds' : NodeId → List NodeId} {opq' : NodeId → Prop}

/-- A path is the same path where blocks have other names, if those it passes keep theirs. -/
theorem Arrives.renamed {a : Option NodeId} (h : Arrives preds opq x a) (π : Equiv.Perm NodeId)
    (hpreds : ∀ {x}, region x → preds' x = (preds x).map π)
    (hopq : ∀ {x p}, region x → p ∈ preds x → (opq' (π p) ↔ opq p))
    (hnext : ∀ {x p}, region x → p ∈ preds x → ¬ opq p → region p ∧ π p = p) (hx : region x) :
    Arrives preds' opq' x (a.map π) := by
  have mem : ∀ {x p}, region x → p ∈ preds x → π p ∈ preds' x := fun hx hp => by
    rw [hpreds hx]
    exact List.mem_map_of_mem hp
  induction h with
  | start hnil => exact .start (by rw [hpreds hx, hnil]; rfl)
  | leaves hp ho => exact .leaves (mem hx hp) ((hopq hx hp).mpr ho)
  | passes hp ho _ ih =>
    obtain ⟨hr, hfix⟩ := hnext hx hp ho
    have hm := mem hx hp
    have ho' := mt (hopq hx hp).mp ho
    rw [hfix] at hm ho'
    exact .passes hm ho' (ih hr)

/-- Marks of blocks that keep their names, where the blocks behind them may have got others. -/
theorem Marks.renamed (M : Marks preds opq region out) (π : Equiv.Perm NodeId)
    (hclear : ∀ {x}, region x → ¬ opq' x) (hfix : ∀ {x}, region x → π x = x)
    (hpreds : ∀ {x}, region x → preds' x = (preds x).map π)
    (hopq : ∀ {x p}, region x → p ∈ preds x → opq p → opq' (π p))
    (hout : ∀ {p}, opq' p → out' p = some p)
    (hsame : ∀ {p}, opq p ∨ region p → out' (π p) = (out p).map π) :
    Marks preds' opq' region out' := by
  have hregion : ∀ {x}, region x → out' x = (out x).map π := fun hx => by
    rw [← hsame (.inr hx), hfix hx]
  have hself : ∀ {x p}, region x → p ∈ preds x → (out' (π p) = some (π p) ↔ out p = some p) := by
    intro x p hx hp
    rw [hsame (M.closed hx hp), ← Option.map_some, (Option.map_injective π.injective).eq_iff]
  refine ⟨hclear, fun {x q} hx hq => ?_, hout, fun {x} hx hnil => ?_, fun {x q} hx ho hq => ?_,
    fun {x} hx ho => ?_, fun {x y} hx ho hne => ?_⟩
  · obtain ⟨p, hp, rfl⟩ := List.mem_map.mp (hpreds hx ▸ hq)
    refine (M.closed hx hp).imp (hopq hx hp) fun hr => ?_
    rwa [hfix hr]
  · rw [hpreds hx, List.map_eq_nil_iff] at hnil
    rw [hregion hx, M.start_out hx hnil, Option.map_none]
  · obtain ⟨p, hp, rfl⟩ := List.mem_map.mp (hpreds hx ▸ hq)
    have hne : out x ≠ some x := fun h => ho (by rw [hregion hx, h, Option.map_some, hfix hx])
    rw [hsame (M.closed hx hp), hregion hx, M.pass_out hx hne hp]
  · rw [hregion hx, Option.map_eq_some_iff] at ho
    obtain ⟨y, hy, hyx⟩ := ho
    obtain rfl : y = x := π.injective (hyx.trans (hfix hx).symm)
    have hback : ∀ {p}, p ∈ preds y → out' (π p) = some y → out p = some y := fun hp h => by
      rw [hsame (M.closed hx hp), ← hyx, ← Option.map_some,
        (Option.map_injective π.injective).eq_iff] at h
      exact h
    obtain ⟨p, hp, q, hq, hpq, hpy, hqy⟩ := M.differ hx hy
    refine ⟨π p, hpreds hx ▸ List.mem_map_of_mem hp, π q, hpreds hx ▸ List.mem_map_of_mem hq,
      fun he => hpq ?_, fun h => hpy (hback hp h), fun h => hqy (hback hq h)⟩
    rw [hsame (M.closed hx hp), hsame (M.closed hx hq)] at he
    exact Option.map_injective π.injective he
  · rw [hregion hx, Option.map_eq_some_iff] at ho
    obtain ⟨z, hz, rfl⟩ := ho
    have hzx : z ≠ x := fun h => hne (by rw [h, hfix hx])
    refine Arrives.renamed (M.traced hx hz hzx) π hpreds hself (fun hx hp hn => ?_) hx
    have hr := (M.closed hx hp).resolve_left fun h => hn (M.opaque_out h)
    exact ⟨hr, hfix hr⟩

end

end DefFlow.Flow
