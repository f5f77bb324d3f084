import DefFlow.Flow.Resolution
import DefFlow.Proofs.Lists

/-!
# What a value of a search stands for

A completed join and a dropped join each lead on to another value. Every entry is
made for a value that stood for itself and leads to one that stands for itself, so
the chains end, and there are never more steps than entries.
-/

set_option autoImplicit false

namespace DefFlow.Flow

namespace Stack

variable {s s' : Stack}

def reachBound (s : Stack) : Nat := s.tops.length + s.replaced.length + 1

def Total (s : Stack) : Prop := ∀ r, ∃ c, s.follow s.reachBound r = some c

def rep (s : Stack) (r : Reach) : Reach := (s.follow s.reachBound r).getD .undefined

theorem follow_mono {n m : Nat} {r c : Reach} (h : s.follow n r = some c) (hm : n ≤ m) :
    s.follow m r = some c := by
  induction n generalizing r m with
  | zero => simp [follow] at h
  | succ n ih =>
    obtain ⟨k, rfl⟩ : ∃ k, m = k + 1 := ⟨m - 1, by omega⟩
    rw [follow] at h ⊢
    cases hn : s.next? r with
    | none => simpa [hn] using h
    | some w =>
      simp only [hn] at h ⊢
      exact ih h (by omega)

theorem next?_of_follow {n : Nat} {r c : Reach} (h : s.follow n r = some c) :
    s.next? c = none := by
  induction n generalizing r with
  | zero => simp [follow] at h
  | succ n ih =>
    rw [follow] at h
    cases hn : s.next? r with
    | none =>
      simp only [hn, Option.some.injEq] at h
      rw [← h, hn]
    | some w =>
      simp only [hn] at h
      exact ih h

theorem next?_of_canon {f : Func} {r c : Reach} (h : s.canon f r = .ok c) : s.next? c = none := by
  rw [canon] at h
  split at h
  · next hc =>
    cases h
    exact next?_of_follow hc
  · cases h

theorem follow_rep (h : s.Total) (r : Reach) : s.follow s.reachBound r = some (s.rep r) := by
  obtain ⟨c, hc⟩ := h r
  rw [rep, hc, Option.getD_some]

theorem rep_eq_of_follow (h : s.Total) {n : Nat} {r c : Reach} (hc : s.follow n r = some c) :
    s.rep r = c := by
  have h1 := follow_mono (follow_rep h r) (Nat.le_max_left s.reachBound n)
  have h2 := follow_mono hc (Nat.le_max_right s.reachBound n)
  rw [h1, Option.some.injEq] at h2
  exact h2

theorem next?_rep (h : s.Total) (r : Reach) : s.next? (s.rep r) = none :=
  next?_of_follow (follow_rep h r)

theorem rep_of_settled (h : s.Total) {r : Reach} (hr : s.next? r = none) : s.rep r = r :=
  rep_eq_of_follow (n := 1) h (by simp [follow, hr])

theorem rep_rep (h : s.Total) (r : Reach) : s.rep (s.rep r) = s.rep r :=
  rep_of_settled h (next?_rep h r)

theorem rep_of_next (h : s.Total) {r w : Reach} (hr : s.next? r = some w) :
    s.rep r = s.rep w := by
  refine rep_eq_of_follow (n := s.reachBound + 1) h ?_
  simp only [follow, hr]
  exact follow_rep h w

theorem rep_induct (h : s.Total) {P : Reach → Prop}
    (step : ∀ {a b}, s.next? a = some b → P a → P b) {r : Reach} (hr : P r) : P (s.rep r) := by
  have hf := follow_rep h r
  generalize s.reachBound = n at hf
  induction n generalizing r with
  | zero => simp [follow] at hf
  | succ n ih =>
    rw [follow] at hf
    cases hn : s.next? r with
    | none =>
      simp only [hn, Option.some.injEq] at hf
      exact hf ▸ hr
    | some w =>
      simp only [hn] at hf
      rw [rep_of_next h hn] at hf ⊢
      exact ih (step hn hr) hf

@[simp] theorem next?_undefined : s.next? .undefined = none := rfl

@[simp] theorem next?_timeline (t : TimelineId) : s.next? (.timeline t) = none := rfl

@[simp] theorem next?_pending (b : NodeId) : s.next? (.pending b) = s.tops.lookup b := rfl

@[simp] theorem next?_join (b : NodeId) : s.next? (.join b) = s.replaced.lookup b := rfl

theorem rep_undefined (h : s.Total) : s.rep .undefined = .undefined := rep_of_settled h rfl

theorem rep_timeline (h : s.Total) (t : TimelineId) : s.rep (.timeline t) = .timeline t :=
  rep_of_settled h rfl

/-! ## One more entry -/

structure Enters (s s' : Stack) (a c : Reach) : Prop where
  bound : s'.reachBound = s.reachBound + 1
  source : s.next? a = none
  target : s.next? c = none
  ne : c ≠ a
  at_source : s'.next? a = some c
  elsewhere : ∀ r, r ≠ a → s'.next? r = s.next? r

theorem Enters.follow {a c : Reach} (h : Enters s s' a c) {n : Nat} {r w : Reach}
    (hr : s.follow n r = some w) :
    s'.follow (n + 1) r = some (if w = a then c else w) := by
  induction n generalizing r with
  | zero => simp [Stack.follow] at hr
  | succ n ih =>
    rw [Stack.follow] at hr
    cases hn : s.next? r with
    | none =>
      simp only [hn, Option.some.injEq] at hr
      subst hr
      by_cases ha : r = a
      · subst ha
        have hc : s'.next? c = none := by rw [h.elsewhere c h.ne, h.target]
        simp [Stack.follow, h.at_source, hc]
      · simp [Stack.follow, h.elsewhere r ha, hn, ha]
    | some x =>
      simp only [hn] at hr
      have ha : r ≠ a := by
        rintro rfl
        rw [h.source] at hn
        cases hn
      rw [Stack.follow, h.elsewhere r ha, hn]
      exact ih hr

theorem Enters.total {a c : Reach} (h : Enters s s' a c) (ht : s.Total) : s'.Total := by
  intro r
  rw [h.bound]
  exact ⟨_, h.follow (follow_rep ht r)⟩

theorem Enters.rep {a c : Reach} (h : Enters s s' a c) (ht : s.Total) (r : Reach) :
    s'.rep r = if s.rep r = a then c else s.rep r :=
  rep_eq_of_follow (h.total ht) (h.follow (follow_rep ht r))

theorem Enters.rep_congr {a c : Reach} (h : Enters s s' a c) (ht : s.Total) {r w : Reach}
    (hr : s.rep r = s.rep w) : s'.rep r = s'.rep w := by
  rw [h.rep ht, h.rep ht, hr]

theorem enters_top {j : NodeId} {c : Reach} {frames : List Frame} {phis : List NodeId}
    (hj : s.tops.lookup j = none) (hc : s.next? c = none) (hne : c ≠ .pending j) :
    Enters s { s with frames := frames, phis := phis, tops := (j, c) :: s.tops }
        (.pending j) c where
  bound := by simp only [reachBound, List.length_cons]; omega
  source := hj
  target := hc
  ne := hne
  at_source := by simp
  elsewhere r hr := by
    cases r with
    | pending b =>
      exact lookup_cons_of_ne fun h => hr (by rw [h])
    | _ => rfl

theorem enters_replaced {j : NodeId} {c : Reach} (hj : s.replaced.lookup j = none)
    (hc : s.next? c = none) (hne : c ≠ .join j) :
    Enters s { s with replaced := (j, c) :: s.replaced } (.join j) c where
  bound := by simp only [reachBound, List.length_cons]; omega
  source := hj
  target := hc
  ne := hne
  at_source := by simp
  elsewhere r hr := by
    cases r with
    | join b =>
      exact lookup_cons_of_ne fun h => hr (by rw [h])
    | _ => rfl

/-- What reads only the entries does not see the other fields. -/
theorem next?_congr (ht : s'.tops = s.tops) (hr : s'.replaced = s.replaced) (r : Reach) :
    s'.next? r = s.next? r := by
  cases r <;> simp [next?, ht, hr]

theorem follow_congr (ht : s'.tops = s.tops) (hr : s'.replaced = s.replaced) (n : Nat)
    (r : Reach) : s'.follow n r = s.follow n r := by
  induction n generalizing r with
  | zero => rfl
  | succ n ih =>
    have hn : s'.next? r = s.next? r := next?_congr ht hr r
    rw [follow, follow, hn]
    cases s.next? r with
    | none => rfl
    | some w => exact ih w

theorem rep_congr_entries (ht : s'.tops = s.tops) (hr : s'.replaced = s.replaced) (r : Reach) :
    s'.rep r = s.rep r := by
  rw [rep, rep, reachBound, reachBound, ht, hr, follow_congr ht hr]

theorem total_congr_entries (ht : s'.tops = s.tops) (hr : s'.replaced = s.replaced)
    (h : s.Total) : s'.Total := by
  intro r
  rw [reachBound, ht, hr, follow_congr ht hr]
  exact h r

/-! ## Reading the values of a join -/

theorem canon_eq (f : Func) (ht : s.Total)
    (hb : s.tops.length + s.replaced.length ≤ 2 * s.frames.length + 1) (r : Reach) :
    s.canon f r = .ok (s.rep r) := by
  have h := follow_mono (follow_rep ht r) (show s.reachBound ≤ 2 * s.frames.length + 2 by
    rw [reachBound]; omega)
  rw [canon, h]

def others (s : Stack) (join : NodeId) (values : List Reach) : List Reach :=
  ((values.map s.rep).filter fun r => !isSelf join r).eraseDups

theorem distinct_eq (f : Func) (ht : s.Total)
    (hb : s.tops.length + s.replaced.length ≤ 2 * s.frames.length + 1) (join : NodeId)
    (values : List Reach) :
    s.distinct f join values = .ok (s.others join values) := by
  have hm : values.mapM (s.canon f) = Except.ok (values.map s.rep) := by
    induction values with
    | nil => rfl
    | cons w ws ih =>
      rw [List.mapM_cons, canon_eq f ht hb, ih]
      rfl
  rw [distinct, hm]
  rfl

/-- Every path brings one of the other values or leads back. -/
theorem mem_others_of_mem {join : NodeId} {values : List Reach} {w : Reach} (hw : w ∈ values) :
    isSelf join (s.rep w) = true ∨ s.rep w ∈ s.others join values := by
  by_cases hs : isSelf join (s.rep w) = true
  · exact Or.inl hs
  · refine Or.inr ?_
    rw [others, List.mem_eraseDups, List.mem_filter]
    exact ⟨List.mem_map_of_mem hw, by simpa using hs⟩

theorem mem_others {join : NodeId} {values : List Reach} {r : Reach}
    (hr : r ∈ s.others join values) : (∃ w ∈ values, s.rep w = r) ∧ isSelf join r = false := by
  rw [others, List.mem_eraseDups, List.mem_filter, List.mem_map] at hr
  exact ⟨hr.1, by simpa using hr.2⟩

/-! ## Frames -/

theorem frame_setFrame_self {x : Frame} (h : x.join ∈ s.frames.map Frame.join) :
    (s.setFrame x).frame x.join = x := by
  rw [frame, setFrame]
  dsimp only
  generalize s.frames = l at h ⊢
  induction l with
  | nil => simp at h
  | cons y l ih =>
    by_cases hy : y.join = x.join
    · simp [hy]
    · have h := (List.mem_cons.mp h).resolve_left fun e => hy e.symm
      simpa [hy] using ih h

theorem frame_setFrame_of_ne {x : Frame} {j : NodeId} (h : j ≠ x.join) :
    (s.setFrame x).frame j = s.frame j := by
  rw [frame, frame, setFrame]
  dsimp only
  generalize s.frames = l
  induction l with
  | nil => rfl
  | cons y l ih =>
    by_cases hy : y.join = x.join
    · simp only [List.map_cons, hy, if_true, List.find?_cons, Ne.symm h]
      simpa using ih
    · by_cases hj : y.join = j
      · simp [hj, h]
      · simpa [hy, hj] using ih

theorem joins_setFrame (x : Frame) :
    (s.setFrame x).frames.map Frame.join = s.frames.map Frame.join := by
  rw [setFrame]
  dsimp only
  rw [List.map_map]
  apply List.map_congr_left
  intro y _
  by_cases hy : y.join = x.join <;> simp [hy]

theorem frame_append {x : Frame} {j : NodeId} (h : j ≠ x.join) :
    ({ s with frames := s.frames ++ [x] } : Stack).frame j = s.frame j := by
  simp [frame, List.find?_append, Ne.symm h]

end Stack
end DefFlow.Flow
