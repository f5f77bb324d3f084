import DefFlow.Proofs.Resolution.Solve
import Mathlib.Dynamics.PeriodicPts.Defs

/-!
# The search without bounds

The walk up, the search of the joins and the passes that drop joins, by the steps that they take
and with no bound on how many. Main statement: for every block of the body these steps come to an
end, at what the bounded search finds.
-/

set_option autoImplicit false

namespace DefFlow.Flow

open Func

inductive Func.Walks (f : Func) (v : VarId) (active : List NodeId) (tops : List (NodeId × Reach)) :
    List NodeId → NodeId → WalkEnd → Prop
  | start {seen : List NodeId} {x : NodeId} (hp : f.preds x = []) :
    Walks f v active tops seen x (.known .undefined)
  | decided {seen : List NodeId} {x p : NodeId} {t : TimelineId} (hp : f.preds x = [p])
    (he : f.explicit? p v = some t) : Walks f v active tops seen x (.known (.timeline t))
  /-- The walk has come round in a circle. -/
  | again {seen : List NodeId} {x p : NodeId} (hp : f.preds x = [p])
    (he : f.explicit? p v = none) (hs : p ∈ seen) : Walks f v active tops seen x (.known .undefined)
  | pass {seen : List NodeId} {x p : NodeId} {e : WalkEnd} (hp : f.preds x = [p])
    (he : f.explicit? p v = none) (hs : p ∉ seen) (h : Walks f v active tops (p :: seen) p e) :
    Walks f v active tops seen x e
  | active {seen : List NodeId} {x : NodeId} (hp : 2 ≤ (f.preds x).length) (ha : x ∈ active) :
    Walks f v active tops seen x (.known (.pending x))
  | known {seen : List NodeId} {x : NodeId} {r : Reach} (hp : 2 ≤ (f.preds x).length)
    (ha : x ∉ active) (ht : tops.lookup x = some r) : Walks f v active tops seen x (.known r)
  | opens {seen : List NodeId} {x : NodeId} (hp : 2 ≤ (f.preds x).length)
    (ha : x ∉ active) (ht : tops.lookup x = none) : Walks f v active tops seen x (.opens x)

mutual
/-- The search of a join within the joins `active` ends: all its paths have been searched, and
every chain that its values begin comes to an end. -/
inductive Func.Explores (f : Func) (v : VarId) :
    List NodeId → NodeId → Stack → Reach → Stack → Prop
  | close {active : List NodeId} {j : NodeId} {s s' : Stack} {values : List Reach}
    (hpaths : f.ExploresAll v (j :: active) (f.preds j)
      ([], { s with frames := s.frames ++ [⟨j, f.preds j, [], .undefined⟩] }) (values, s'))
    (hvalues : s'.distinct f j values = .ok (s'.others j values)) :
    Explores f v active j s (s'.joinResult j values) (s'.completed j (f.preds j) values)

inductive Func.ExploresAll (f : Func) (v : VarId) :
    List NodeId → List NodeId → List Reach × Stack → List Reach × Stack → Prop
  | done {active : List NodeId} {acc : List Reach × Stack} : ExploresAll f v active [] acc acc
  | decided {active ps : List NodeId} {p : NodeId} {t : TimelineId} {values : List Reach}
    {s : Stack} {acc : List Reach × Stack} (he : f.explicit? p v = some t)
    (h : ExploresAll f v active ps (values ++ [.timeline t], s) acc) :
    ExploresAll f v active (p :: ps) (values, s) acc
  | known {active ps : List NodeId} {p : NodeId} {r : Reach} {values : List Reach} {s : Stack}
    {acc : List Reach × Stack} (he : f.explicit? p v = none)
    (hw : f.Walks v active s.tops [p] p (.known r))
    (h : ExploresAll f v active ps (values ++ [r], s) acc) :
    ExploresAll f v active (p :: ps) (values, s) acc
  | opens {active ps : List NodeId} {p j : NodeId} {r : Reach} {values : List Reach}
    {s s' : Stack} {acc : List Reach × Stack} (he : f.explicit? p v = none)
    (hw : f.Walks v active s.tops [p] p (.opens j)) (hj : f.Explores v active j s r s')
    (h : ExploresAll f v active ps (values ++ [r], s') acc) :
    ExploresAll f v active (p :: ps) (values, s) acc
end

inductive Stack.Drops (f : Func) : Stack → Stack → Prop
  | last {s s' : Stack} (h : s.eliminateOnce f = .ok s')
    (hn : s'.replaced.length = s.replaced.length) : Drops f s s'
  | again {s s₁ s' : Stack} (h : s.eliminateOnce f = .ok s₁)
    (hn : s₁.replaced.length ≠ s.replaced.length) (hd : Drops f s₁ s') : Drops f s s'

inductive Func.Gathers (f : Func) (v : VarId) (leaf : NodeId) : Stack → Prop
  | joined (h : (f.joined? leaf v).isSome) :
    Gathers f v leaf { Stack.start leaf v with root := .join leaf }
  | known {r : Reach} (h : f.joined? leaf v = none) (hw : f.Walks v [] [] [leaf] leaf (.known r)) :
    Gathers f v leaf { Stack.start leaf v with root := r }
  | opens {j : NodeId} {r w : Reach} {s : Stack} (h : f.joined? leaf v = none)
    (hw : f.Walks v [] [] [leaf] leaf (.opens j))
    (hj : f.Explores v [] j (Stack.start leaf v) r s) (hc : s.canon f (.pending j) = .ok w) :
    Gathers f v leaf { s with root := w }

def Func.Ends (f : Func) (v : VarId) (leaf : NodeId) (s : Stack) : Prop :=
  ∃ s₁ s₂ r, f.Gathers v leaf s₁ ∧ s₁.Drops f s₂ ∧ s₂.canon f s₂.root = .ok r ∧
    s = { s₂ with root := r }

section

variable {f : Func} {v : VarId} {active seen : List NodeId} {tops : List (NodeId × Reach)}
  {x p j leaf : NodeId} {s s' : Stack} {r : Reach}

/-! ## Walks -/

def WalkEnd.within (active : List NodeId) (tops : List (NodeId × Reach)) : WalkEnd → WalkEnd
  | .known r => .known r
  | .opens j =>
    if active.contains j then .known (.pending j)
    else match tops.lookup j with
      | some r => .known r
      | none => .opens j

theorem rise_of_circle {k : Nat} (hk : f.climbs v (k + 1) x = x)
    (h : ∀ i ≤ k, (f.goesOn v (f.climbs v i x)).isSome) : f.rise v x = .known .undefined := by
  have hall : ∀ i, (f.goesOn v (f.climbs v i x)).isSome := by
    intro i
    have hmod : f.climbs v (i % (k + 1)) x = f.climbs v i x :=
      Function.IsPeriodicPt.iterate_mod_apply hk i
    rw [← hmod]
    exact h _ (Nat.le_of_lt_succ (Nat.mod_lt i (Nat.succ_pos k)))
  have hrun := walkUp_climbs (f := f) (v := v) (n := 0) (k := f.nodes.size) (x := x)
    fun i _ => hall i
  rw [Nat.zero_add] at hrun
  rw [rise, hrun, walkUp]

def Func.Passed (f : Func) (v : VarId) (x : NodeId) (seen : List NodeId) : Prop :=
  ∀ y ∈ seen, y ∈ f.blocks ∧ ∃ k, f.climbs v k y = x ∧
    ∀ i < k, (f.goesOn v (f.climbs v i y)).isSome

theorem climbs_succ (f : Func) (v : VarId) (k : Nat) (y : NodeId) :
    f.climbs v (k + 1) y = (f.goesOn v (f.climbs v k y)).getD (f.climbs v k y) :=
  Function.iterate_succ_apply' _ _ _

theorem Func.Passed.step (h : f.Passed v x seen) (G : f.Net) (hx : x ∈ f.blocks)
    (hp : f.goesOn v x = some p) : f.Passed v p (p :: seen) := by
  intro y hy
  rcases List.mem_cons.mp hy with rfl | hy
  · exact ⟨G.mem hx (by rw [(of_goesOn hp).1]; exact List.mem_singleton_self y), 0, rfl, nofun⟩
  · obtain ⟨hb, k, hk, hall⟩ := h y hy
    refine ⟨hb, k + 1, by rw [climbs_succ, hk, hp, Option.getD_some], fun i hi => ?_⟩
    rcases Nat.lt_succ_iff_lt_or_eq.mp hi with hi | rfl
    · exact hall i hi
    · rw [hk, hp]
      rfl

/-- A walk that goes on to a block that it has passed finds nothing. -/
theorem Func.Passed.circle (h : f.Passed v x seen) (hp : f.goesOn v x = some p) (hs : p ∈ seen) :
    f.rise v p = .known .undefined := by
  obtain ⟨-, k, hk, hall⟩ := h p hs
  refine rise_of_circle (k := k) (by rw [climbs_succ, hk, hp, Option.getD_some]) fun i hi => ?_
  rcases Nat.lt_or_eq_of_le hi with hi | rfl
  · exact hall i hi
  · rw [hk, hp]
    rfl

theorem walks_of_passed {x : NodeId} {seen : List NodeId} (G : f.Net) (hx : x ∈ f.blocks)
    (hnodup : seen.Nodup)
    (hseen : f.Passed v x seen) :
    f.Walks v active tops seen x ((f.rise v x).within active tops) := by
  rcases preds_cases f x with hp | ⟨p, hp⟩ | hp
  · rw [rise_start G hx hp]
    exact .start hp
  · cases he : f.explicit? p v with
    | some t =>
      rw [rise_explicit G hx hp he]
      exact .decided hp he
    | none =>
      have hgo := goesOn_eq hp he
      rw [rise_pass G hx hp he]
      by_cases hs : p ∈ seen
      · rw [hseen.circle hgo hs]
        exact .again hp he hs
      · have hnodup' := List.nodup_cons.mpr ⟨hs, hnodup⟩
        have hseen' := hseen.step G hx hgo
        have hlen := (hnodup'.subperm fun y hy => (hseen' y hy).1).length_le
        exact .pass hp he hs (walks_of_passed G (hseen' p List.mem_cons_self).1 hnodup' hseen')
  · rw [rise_join G hx hp, WalkEnd.within]
    by_cases ha : x ∈ active
    · rw [if_pos (List.contains_iff_mem.mpr ha)]
      exact .active hp ha
    · rw [if_neg fun hc => ha (List.contains_iff_mem.mp hc)]
      cases ht : tops.lookup x with
      | some r => exact .known hp ha ht
      | none => exact .opens hp ha ht
termination_by f.blocks.length - seen.length
decreasing_by
  simp only [List.length_cons] at hlen ⊢
  omega

theorem walks_rise (G : f.Net) (hx : x ∈ f.blocks) :
    f.Walks v active tops [x] x ((f.rise v x).within active tops) := by
  refine walks_of_passed G hx (List.nodup_singleton x) fun y hy => ?_
  obtain rfl := List.mem_singleton.mp hy
  exact ⟨hx, 0, rfl, nofun⟩

/-! ## Joins -/

def Func.Explored (f : Func) (v : VarId) (n : Nat) : Prop :=
  ∀ {active : List NodeId} {j : NodeId} {s : Stack} {r : Reach} {s' : Stack},
    Searching f v active s → j ∉ s.joins → f.Opens v j → Sees f.preds (f.Decides v) s.leaf j →
    f.blocks.length ≤ n + s.frames.length →
    f.searchJoin v n active j s = .ok (r, s') → f.Explores v active j s r s'

theorem WalkEnd.within_opens {e : WalkEnd} (h : e.within active tops = .opens j) :
    e = .opens j ∧ j ∉ active ∧ tops.lookup j = none := by
  cases e with
  | known r => cases h
  | opens k =>
    rw [within] at h
    split at h
    · cases h
    · next ha =>
      split at h
      · cases h
      · next ht =>
        cases h
        exact ⟨rfl, fun hm => ha (List.contains_iff_mem.mpr hm), ht⟩

theorem walk_within (he : f.explicit? p v = none) :
    f.walk v active tops p = (f.rise v p).within active tops := by
  rw [walk_of_explicit? he]
  rfl

theorem explores_paths (G : f.Net) {n : Nat} (hn : f.Explored v n) (ps : List NodeId)
    {values : List Reach} {acc : List Reach × Stack} (h : Searching f v active s)
    (hp : ∀ p ∈ ps, p ∈ f.blocks)
    (hs : ∀ p ∈ ps, ¬ f.Decides v p → Sees f.preds (f.Decides v) s.leaf p)
    (hb : f.blocks.length ≤ n + s.frames.length)
    (hrun : ps.foldlM (f.searchPath v n active) (values, s) = .ok acc) :
    f.ExploresAll v active ps (values, s) acc := by
  induction ps generalizing values s with
  | nil =>
    cases hrun
    exact .done
  | cons p ps ih =>
    have hpb := hp p List.mem_cons_self
    obtain ⟨r, s₁, hstep, h₁, -, hext, -⟩ := searchPath_ok (I := fun _ => True) G
      (searches G (.trivial f v) n) values h trivial hpb (hs p List.mem_cons_self) hb
    rw [List.foldlM_cons, hstep] at hrun
    have hrest := ih h₁ (fun q hq => hp q (List.mem_cons_of_mem _ hq))
      (fun q hq => hext.leaf ▸ hs q (List.mem_cons_of_mem _ hq))
      (Nat.le_trans hb (Nat.add_le_add_left hext.length n)) hrun
    rw [searchPath] at hstep
    cases he : f.explicit? p v with
    | some t =>
      simp only [he, pure, Except.pure, Except.ok.injEq, Prod.mk.injEq] at hstep
      obtain ⟨hr, rfl⟩ := hstep
      exact .decided he (hr ▸ hrest)
    | none =>
      have hwalk : f.Walks v active s.tops [p] p ((f.rise v p).within active s.tops) :=
        walks_rise G hpb
      have hw : f.walk v active s.tops p = (f.rise v p).within active s.tops := walk_within he
      cases hend : (f.rise v p).within active s.tops with
      | known w =>
        rw [hend] at hwalk hw
        simp only [he, hw, pure, Except.pure, Except.ok.injEq, Prod.mk.injEq] at hstep
        obtain ⟨hr, rfl⟩ := hstep
        exact .known he hwalk (hr ▸ hrest)
      | opens j =>
        rw [hend] at hwalk hw
        obtain ⟨hrise, ha, ht⟩ := WalkEnd.within_opens hend
        obtain ⟨hjb, hjp, hsees⟩ := rise_opens G hpb hrise
        have hopens : f.Opens v j := ⟨hjb, hjp, joined?_of_explicit?
            (clear_of_opens G hpb hrise he)⟩
        have hmet : j ∉ s.joins := fun hm => (h.met.mp hm).elim ha (by simp [ht])
        simp only [he, hw] at hstep
        obtain ⟨⟨w, s'⟩, hjoin, hstep⟩ := of_bind_ok hstep
        simp only [pure, Except.pure, Except.ok.injEq, Prod.mk.injEq] at hstep
        obtain ⟨hr, rfl⟩ := hstep
        exact .opens he hwalk (hn h hmet hopens
          ((hs p List.mem_cons_self (not_decides.mpr he)).trans hsees) hb hjoin) (hr ▸ hrest)

theorem explored (G : f.Net) (n : Nat) : f.Explored v n := by
  induction n with
  | zero =>
    intro active j s r s' h hj hb ha hlen hrun
    have := frames_lt h hj hb
    omega
  | succ n ih =>
    intro active j s r s' h hj hb ha hlen hrun
    let x : Frame := ⟨j, f.preds j, [], .undefined⟩
    have ho := h.opened (x := x) hj hb ha
    have hlen' : f.blocks.length ≤ n + (s.frames ++ [x]).length := by
      simp only [List.length_append, List.length_cons, List.length_nil]
      omega
    have hpreds : ∀ p ∈ f.preds j, p ∈ f.blocks := fun p hp => G.mem hb.block hp
    have hsees : ∀ p ∈ f.preds j, ¬ f.Decides v p → Sees f.preds (f.Decides v) s.leaf p :=
      fun p hp hd => ha.step hp hd
    obtain ⟨values, s₁, hpaths, h₁, -, -, -⟩ := searchPaths_ok (I := fun _ => True) G
      (searches G (.trivial f v) n) (f.preds j) ho trivial (List.Forall₂.nil (R := Carries f v _))
      hpreds hsees hlen'
    have hexp := explores_paths G ih (f.preds j) ho hpreds hsees hlen' hpaths
    rw [searchJoin_close hpaths h₁] at hrun
    cases hrun
    exact .close hexp (Stack.distinct_eq f h₁.total h₁.bounded j values)

/-! ## Dropping -/

theorem eliminate_drops (G : f.Net) {n : Nat} (h : Searching f v [] s)
    (hn : s.phis.length < n + s.replaced.length) (hrun : s.eliminate f n = .ok s') :
    s.Drops f s' := by
  induction n generalizing s with
  | zero =>
    have := h.dropped_length
    omega
  | succ n ih =>
    obtain ⟨s₁, hs₁, h₁, -, hsame, -, hd⟩ :=
      h.dropJoins_ok (I := fun _ => True) G (.trivial f v) s.phis trivial fun _ hj => hj
    have hphis : s₁.phis = s.phis := by rw [hsame]
    rw [Stack.eliminate, Stack.eliminateOnce_eq, hs₁] at hrun
    by_cases hlen : s₁.replaced.length = s.replaced.length
    · simp only [bind, Except.bind, hlen, if_true, pure, Except.pure, Except.ok.injEq] at hrun
      exact hrun ▸ .last hs₁ hlen
    · simp only [bind, Except.bind, hlen, if_false] at hrun
      refine .again hs₁ hlen (ih h₁ ?_ hrun)
      rw [hphis]
      rcases hd with ⟨rfl, -⟩ | hd
      · exact absurd rfl hlen
      · omega

/-! ## The whole search -/

theorem Func.Gathers.ends (hg : f.Gathers v leaf s) (G : f.Net) (h : Searching f v [] s)
    (hrun : (do
      let s ← s.eliminate f (s.phis.length + 1)
      return { s with root := ← s.canon f s.root }) = Except.ok s') : f.Ends v leaf s' := by
  obtain ⟨s₂, helim, hrun⟩ := of_bind_ok hrun
  obtain ⟨r, hcanon, hrun⟩ := of_bind_ok hrun
  cases hrun
  exact ⟨s, s₂, r, hg, eliminate_drops G h (by omega) helim, hcanon, rfl⟩

theorem walk_start (h : f.joined? leaf v = none) :
    f.walk v [] [] leaf = (f.rise v leaf).within [] [] := by
  rw [walk_none h]
  cases f.rise v leaf <;> rfl

/-- The search for a variable at the top of a block of the body ends, and the bounded search
finds the same. -/
theorem solve_ends (G : f.Net) (hl : leaf ∈ f.blocks) (v : VarId) :
    ∃ s, f.solve leaf v = .ok s ∧ Solution f v leaf s ∧ f.Ends v leaf s := by
  obtain ⟨s, hs, hsol⟩ := solve_ok G hl (v := v)
  refine ⟨s, hs, hsol, ?_⟩
  have h₀ := Searching.start f v leaf
  rw [solve] at hs
  cases hj : f.joined? leaf v with
  | some t =>
    have hw : f.walk v [] [] leaf = .known (.join leaf) := by rw [walk, hj]; rfl
    simp only [hw] at hs
    exact (Gathers.joined (by rw [hj]; rfl)).ends G (h₀.withRoot _).1 hs
  | none =>
    have hwalks : f.Walks v [] [] [leaf] leaf ((f.rise v leaf).within [] []) := walks_rise G hl
    have hw := walk_start hj
    cases hend : (f.rise v leaf).within [] [] with
    | known w =>
      rw [hend] at hwalks hw
      simp only [hw] at hs
      exact (Gathers.known hj hwalks).ends G (h₀.withRoot _).1 hs
    | opens j =>
      rw [hend] at hwalks hw
      obtain ⟨hjb, hjp, hsees⟩ := rise_opens G hl (WalkEnd.within_opens hend).1
      have hopens : f.Opens v j := ⟨hjb, hjp, hsees.eq_or_clear.elim (fun e => e ▸ hj)
        fun he => joined?_of_explicit? (not_decides.mp he)⟩
      have hmet : j ∉ (Stack.start leaf v).joins := by simp [Stack.start, Stack.joins]
      have hlen : f.blocks.length ≤ f.nodes.size + (Stack.start leaf v).frames.length :=
        Nat.le_trans G.count (Nat.le_add_right _ _)
      obtain ⟨r, s₁, hs₁, h₁, -, -, -⟩ := searches (I := fun _ => True) G (.trivial f v)
        f.nodes.size h₀ trivial hmet hopens hsees hlen
      simp only [hw] at hs
      rw [hs₁] at hs
      obtain ⟨_, hroot, hs⟩ := of_bind_ok hs
      cases hroot
      obtain ⟨w, hcanon, hs⟩ := of_bind_ok hs
      exact (Gathers.opens hj hwalks (explored G _ h₀ hmet hopens hsees hlen hs₁) hcanon).ends G
        (h₁.withRoot _).1 hs

end

end DefFlow.Flow
