import DefFlow.Flow.Split
import DefFlow.Flow.Flatten
import Mathlib.Tactic.Common

/-!
# Stores and edits

What a store holds after each of its operations, and what an edit that succeeds
has done, step by step.
-/

set_option autoImplicit false

namespace DefFlow.Flow

namespace Arena

variable {α : Type} (a : Arena α)

@[simp] theorem get?_zero : a.get? 0 = none := rfl

@[simp] theorem get?_empty (n : Nat) : (empty : Arena α).get? n = none := by
  cases n <;> rfl

theorem get?_succ (n : Nat) : a.get? (n + 1) = a.slots[n]?.join := rfl

theorem get?_eq_none_of_lt {n : Nat} (h : a.size < n) : a.get? n = none := by
  cases n with
  | zero => rfl
  | succ n =>
    rw [size] at h
    rw [get?_succ, Array.getElem?_eq_none (by omega), Option.join_none]

theorem le_size_of_get? {n : Nat} {x : α} (h : a.get? n = some x) : n ≤ a.size := by
  by_contra hn
  rw [get?_eq_none_of_lt a (by omega)] at h
  cases h

theorem get?_next : a.get? a.next = none := by
  apply get?_eq_none_of_lt
  rw [next, size]
  omega

theorem ne_next_of_get? {n : Nat} {x : α} (h : a.get? n = some x) : n ≠ a.next := by
  rintro rfl
  rw [get?_next] at h
  cases h

theorem get?_push (x : α) (n : Nat) :
    (a.push x).get? n = if n = a.next then some x else a.get? n := by
  cases n with
  | zero => simp [next]
  | succ n =>
    simp only [get?_succ, push, next, Array.getElem?_push, Nat.add_right_cancel_iff]
    split <;> simp

theorem get?_skip (n : Nat) : a.skip.get? n = a.get? n := by
  cases n with
  | zero => rfl
  | succ n =>
    simp only [get?_succ, skip, Array.getElem?_push]
    split
    · next h => simp [h]
    · rfl

theorem get?_set {n : Nat} {y : α} (h : a.get? n = some y) (x : α) (m : Nat) :
    (a.set n x).get? m = if m = n then some x else a.get? m := by
  have hn := le_size_of_get? a h
  cases n with
  | zero => cases h
  | succ n =>
    rw [size] at hn
    cases m with
    | zero => simp
    | succ m =>
      simp only [get?_succ, set, Array.getElem?_setIfInBounds, Nat.add_right_cancel_iff]
      by_cases hm : n = m
      · simp only [hm, if_true]
        rw [if_pos (by omega)]
        rfl
      · rw [if_neg hm, if_neg (Ne.symm hm)]

theorem get?_modify (n : Nat) (change : α → α) (m : Nat) :
    (a.modify n change).get? m = if m = n then (a.get? n).map change else a.get? m := by
  rw [modify]
  cases h : a.get? n with
  | some x => rw [Option.map_some]; exact a.get?_set h (change x) m
  | none =>
    by_cases hm : m = n
    · simp [hm, h]
    · simp [hm]

theorem get?_modify_map (n : Nat) (change : α → α) (m : Nat) :
    (a.modify n change).get? m = (a.get? m).map fun x => if n = m then change x else x := by
  rw [get?_modify]
  by_cases hm : m = n
  · subst hm
    simp
  · simp [hm, Ne.symm hm]

theorem get?_modify_of_ne {n m : Nat} (h : m ≠ n) (change : α → α) :
    (a.modify n change).get? m = a.get? m := by
  rw [get?_modify, if_neg h]

theorem get?_release (n m : Nat) :
    (a.release n).get? m = if m = n then none else a.get? m := by
  cases n with
  | zero =>
    by_cases hm : m = 0
    · simp [hm]
    · rw [if_neg hm]
      rfl
  | succ n =>
    cases m with
    | zero => simp
    | succ m =>
      simp only [get?_succ, release, Array.getElem?_setIfInBounds, Nat.add_right_cancel_iff]
      by_cases hm : n = m
      · simp only [hm, if_true]
        split <;> rfl
      · rw [if_neg hm, if_neg (Ne.symm hm)]

@[simp] theorem size_modify (n : Nat) (change : α → α) : (a.modify n change).size = a.size := by
  rw [modify]
  cases a.get? n with
  | none => rfl
  | some x => cases n <;> simp [set, size]

@[simp] theorem size_push (x : α) : (a.push x).size = a.size + 1 := by simp [push, size]

@[simp] theorem size_skip : a.skip.size = a.size + 1 := by simp [skip, size]

@[simp] theorem size_release (n : Nat) : (a.release n).size = a.size := by
  cases n <;> simp [release, size]

theorem next_eq : a.next = a.size + 1 := rfl

theorem mem_live {n : Nat} : n ∈ a.live ↔ (a.get? n).isSome := by
  rw [live, List.mem_filterMap]
  constructor
  · rintro ⟨m, _, hm⟩
    split at hm
    · next h => cases hm; exact h
    · cases hm
  · intro h
    obtain ⟨x, hx⟩ := Option.isSome_iff_exists.mp h
    have hle := le_size_of_get? a hx
    cases n with
    | zero => cases hx
    | succ n =>
      rw [size] at hle
      exact ⟨n, List.mem_range.mpr (by omega), by rw [if_pos h]⟩

theorem live_nodup : a.live.Nodup := by
  rw [live, List.Nodup, List.pairwise_filterMap]
  refine List.pairwise_lt_range.imp fun {n m} hnm k hk l hl => ?_
  split at hk <;> split at hl <;> simp_all
  omega

end Arena

namespace Edit

variable {α β : Type} {f f' : Func}

theorem bind_ok {x : Edit α} {g : α → Edit β} {b : β} (h : (x >>= g) f = .ok b f') :
    ∃ a f₁, x f = .ok a f₁ ∧ g a f₁ = .ok b f' := by
  change EStateM.bind x g f = _ at h
  rw [EStateM.bind] at h
  cases hx : x f with
  | ok a f₁ => rw [hx] at h; exact ⟨a, f₁, rfl, h⟩
  | error e f₁ => rw [hx] at h; cases h

theorem bind_eq {x : Edit α} {g : α → Edit β} {a : α} (h : x f = .ok a f') :
    (x >>= g) f = g a f' := by
  change EStateM.bind x g f = _
  rw [EStateM.bind, h]

theorem bind_error {x : Edit α} {g : α → Edit β} {e : EditError} (h : x f = .error e f') :
    (x >>= g) f = .error e f' := by
  change EStateM.bind x g f = _
  rw [EStateM.bind, h]

/-- Only what follows a success matters for what comes out of it. -/
theorem bind_congr {x : Edit α} {g g' : α → Edit β}
    (h : ∀ a f', x f = .ok a f' → g a f' = g' a f') : (x >>= g) f = (x >>= g') f := by
  change EStateM.bind x g f = EStateM.bind x g' f
  rw [EStateM.bind, EStateM.bind]
  cases hx : x f with
  | ok a f' => exact h a f' hx
  | error e f' => rfl

theorem pure_eq (a : α) : (pure a : Edit α) f = .ok a f := rfl

theorem pure_ok {a b : α} (h : (pure a : Edit α) f = .ok b f') : b = a ∧ f' = f := by
  cases h
  exact ⟨rfl, rfl⟩

theorem get_eq : (get : Edit Func) f = .ok f f := rfl

theorem require_eq {p : Bool} (hp : p = true) (op : Operation) (r : Refusal) :
    require p op r f = .ok () f := by
  rw [require, if_pos hp]
  rfl

theorem require_ok {p : Bool} {op : Operation} {r : Refusal} {u : Unit}
    (h : require p op r f = .ok u f') : p = true ∧ f' = f := by
  rw [require] at h
  split at h
  · next hp => exact ⟨hp, (pure_ok h).2⟩
  · cases h

theorem require_bind_ok {p : Bool} {op : Operation} {r : Refusal} {g : Unit → Edit β} {b : β}
    (h : (require p op r >>= g) f = .ok b f') : p = true ∧ g () f = .ok b f' := by
  obtain ⟨_, f₁, hr, hg⟩ := bind_ok h
  obtain ⟨hp, rfl⟩ := require_ok hr
  exact ⟨hp, hg⟩

theorem ask_eq {q : Func → Except EditError α} {a : α} (h : q f = .ok a) :
    ask q f = .ok a f := by
  rw [ask]
  rw [bind_eq get_eq, h]
  rfl

theorem ask_ok {q : Func → Except EditError α} {a : α} (h : ask q f = .ok a f') :
    q f = .ok a ∧ f' = f := by
  rw [ask] at h
  obtain ⟨g, f₁, hg, h⟩ := bind_ok h
  cases hg
  cases hq : q f with
  | ok b =>
    rw [hq] at h
    obtain ⟨rfl, rfl⟩ := pure_ok h
    exact ⟨rfl, rfl⟩
  | error e =>
    rw [hq] at h
    cases h

theorem unfrozen_eq (h : f.frozen = false) (op : Operation) : unfrozen op f = .ok () f := by
  rw [unfrozen, bind_eq get_eq]
  exact require_eq (by rw [h]; rfl) op _

theorem unfrozen_ok {op : Operation} {u : Unit} (h : unfrozen op f = .ok u f') :
    f.frozen = false ∧ f' = f := by
  rw [unfrozen] at h
  obtain ⟨g, f₁, hg, h⟩ := bind_ok h
  cases hg
  obtain ⟨hp, rfl⟩ := require_ok h
  exact ⟨by simpa using hp, rfl⟩

theorem unfrozen_bind_ok {op : Operation} {g : Unit → Edit β} {b : β}
    (h : (unfrozen op >>= g) f = .ok b f') : f.frozen = false ∧ g () f = .ok b f' := by
  obtain ⟨_, f₁, hu, hg⟩ := bind_ok h
  obtain ⟨hf, rfl⟩ := unfrozen_ok hu
  exact ⟨hf, hg⟩

theorem bump_eq : bump f = .ok () { f with memo := [] } := rfl

theorem changeTimeline_eq (t : TimelineId) (change : Timeline → Timeline) :
    changeTimeline t change f = .ok () { f with timelines := f.timelines.modify t change } := rfl

theorem changeBlock_eq (b : NodeId) (change : Block → Block) :
    changeBlock b change f = .ok () { f with nodes := f.nodes.modify b change } := rfl

theorem changeInst_eq (i : InstId) (change : Instruction → Instruction) :
    changeInst i change f = .ok () { f with insts := f.insts.modify i change } := rfl

def passes (x : Edit α) (test : α → Func → Bool) (f : Func) : Bool :=
  match x f with
  | .ok a f' => test a f'
  | .error _ _ => false

theorem of_passes {x : Edit α} {test : α → Func → Bool} (h : passes x test f = true) :
    ∃ a f', x f = .ok a f' ∧ test a f' = true := by
  rw [passes] at h
  split at h
  next a f' hrun => exact ⟨a, f', hrun, h⟩
  next => cases h

/-! ## Loops -/

/-- A loop whose rounds all succeed, with what holds after the rounds so far. -/
theorem foldlM_run {σ : Type} {g : σ → α → Edit σ} {l : List α} (I : List α → σ → Func → Prop)
    (step : ∀ done a rest s f, l = done ++ a :: rest → I done s f →
      ∃ s' f', g s a f = .ok s' f' ∧ I (done ++ [a]) s' f')
    {s : σ} (h : I [] s f) : ∃ s' f', l.foldlM g s f = .ok s' f' ∧ I l s' f' := by
  suffices key : ∀ rest done s f, l = done ++ rest → I done s f →
      ∃ s' f', rest.foldlM g s f = .ok s' f' ∧ I l s' f' from key l [] s f rfl h
  intro rest
  induction rest with
  | nil =>
    intro done s f hl hI
    rw [List.append_nil] at hl
    exact ⟨s, f, rfl, hl ▸ hI⟩
  | cons a rest ih =>
    intro done s f hl hI
    obtain ⟨s₁, f₁, hrun, hI₁⟩ := step done a rest s f hl hI
    obtain ⟨s', f', hrest, hI'⟩ := ih (done ++ [a]) s₁ f₁ (by simp [hl]) hI₁
    exact ⟨s', f', by rw [List.foldlM_cons, bind_eq hrun, hrest], hI'⟩

theorem forIn_eq {g : α → PUnit → Edit (ForInStep PUnit)} {l : List α}
    (I : List α → Func → Prop)
    (step : ∀ done a rest f, l = done ++ a :: rest → I done f →
      ∃ f', g a ⟨⟩ f = .ok (.yield ⟨⟩) f' ∧ I (done ++ [a]) f')
    (h : I [] f) : ∃ f', forIn l PUnit.unit g f = .ok ⟨⟩ f' ∧ I l f' := by
  suffices key : ∀ rest done f, l = done ++ rest → I done f →
      ∃ f', forIn rest PUnit.unit g f = .ok ⟨⟩ f' ∧ I l f' from key l [] f rfl h
  intro rest
  induction rest with
  | nil =>
    intro done f hl hI
    rw [List.append_nil] at hl
    exact ⟨f, rfl, hl ▸ hI⟩
  | cons a rest ih =>
    intro done f hl hI
    obtain ⟨f₁, hrun, hI₁⟩ := step done a rest f hl hI
    obtain ⟨f', hrest, hI'⟩ := ih (done ++ [a]) f₁ (by simp [hl]) hI₁
    refine ⟨f', ?_, hI'⟩
    rw [List.forIn_cons, bind_eq hrun]
    exact hrest

theorem forIn_run {g : α → PUnit → Edit (ForInStep PUnit)} {l : List α} {k : PUnit → Edit β}
    (I : List α → Func → Prop)
    (step : ∀ done a rest f, l = done ++ a :: rest → I done f →
      ∃ f', g a ⟨⟩ f = .ok (.yield ⟨⟩) f' ∧ I (done ++ [a]) f')
    (h : I [] f) : ∃ f', (forIn l PUnit.unit g >>= k) f = k ⟨⟩ f' ∧ I l f' := by
  obtain ⟨f', hrun, hI⟩ := forIn_eq I step h
  exact ⟨f', bind_eq hrun, hI⟩

theorem forIn_idle {g : α → PUnit → Edit (ForInStep PUnit)} {l : List α} {f : Func}
    (h : ∀ a ∈ l, g a ⟨⟩ f = .ok (.yield ⟨⟩) f) (k : PUnit → Edit β) :
    (forIn l PUnit.unit g >>= k) f = k ⟨⟩ f := by
  have hloop : ∃ f', (forIn l PUnit.unit g >>= k) f = k ⟨⟩ f' ∧ f' = f := by
    refine forIn_run (fun _ f' => f' = f) (fun done a rest f' hl hf => ?_) rfl
    rw [hf]
    exact ⟨f, h a (hl ▸ List.mem_append_right _ List.mem_cons_self), rfl⟩
  obtain ⟨f', hrun, rfl⟩ := hloop
  exact hrun

/-- A loop that has succeeded, with what each successful round keeps. -/
theorem forIn_ok {g : α → PUnit → Edit (ForInStep PUnit)} {l : List α} {k : PUnit → Edit β}
    (I : List α → Func → Prop)
    (step : ∀ done a rest f s f', l = done ++ a :: rest → I done f → g a ⟨⟩ f = .ok s f' →
      s = .yield ⟨⟩ ∧ I (done ++ [a]) f')
    {u : β} (h : I [] f) (hrun : (forIn l PUnit.unit g >>= k) f = .ok u f') :
    ∃ f₁, I l f₁ ∧ k ⟨⟩ f₁ = .ok u f' := by
  suffices key : ∀ rest done f, l = done ++ rest → I done f →
      (forIn rest PUnit.unit g >>= k) f = .ok u f' → ∃ f₁, I l f₁ ∧ k ⟨⟩ f₁ = .ok u f' from
    key l [] f rfl h hrun
  intro rest
  induction rest with
  | nil =>
    intro done f hl hI hrun
    rw [List.append_nil] at hl
    exact ⟨f, hl ▸ hI, hrun⟩
  | cons a rest ih =>
    intro done f hl hI hrun
    rw [List.forIn_cons, bind_assoc] at hrun
    obtain ⟨s, f₁, ha, hrest⟩ := bind_ok hrun
    obtain ⟨rfl, hI₁⟩ := step done a rest f s f₁ hl hI ha
    exact ih (done ++ [a]) f₁ (by simp [hl]) hI₁ hrest

theorem forM_run {g : α → Edit Unit} {l : List α} (I : List α → Func → Prop)
    (step : ∀ {done a rest f}, l = done ++ a :: rest → I done f →
      ∃ f', g a f = .ok () f' ∧ I (done ++ [a]) f')
    (h : I [] f) : ∃ f', l.forM g f = .ok () f' ∧ I l f' := by
  suffices key : ∀ rest done f, l = done ++ rest → I done f →
      ∃ f', rest.forM g f = .ok () f' ∧ I l f' from key l [] f rfl h
  intro rest
  induction rest with
  | nil =>
    intro done f hl hI
    rw [List.append_nil] at hl
    exact ⟨f, rfl, hl ▸ hI⟩
  | cons a rest ih =>
    intro done f hl hI
    obtain ⟨f₁, hrun, hI₁⟩ := step hl hI
    obtain ⟨f', hrest, hI'⟩ := ih (done ++ [a]) f₁ (by simp [hl]) hI₁
    exact ⟨f', (bind_eq (x := g a) hrun).trans hrest, hI'⟩

theorem forM_ok {g : α → Edit Unit} {l : List α} (I : List α → Func → Prop)
    (step : ∀ {done a rest f u f'}, l = done ++ a :: rest → I done f → g a f = .ok u f' →
      I (done ++ [a]) f')
    {u : Unit} (h : I [] f) (hrun : l.forM g f = .ok u f') : I l f' := by
  suffices key : ∀ rest done f, l = done ++ rest → I done f → rest.forM g f = .ok u f' → I l f' from
    key l [] f rfl h hrun
  intro rest
  induction rest with
  | nil =>
    intro done f hl hI hrun
    cases hrun
    rw [List.append_nil] at hl
    exact hl ▸ hI
  | cons a rest ih =>
    intro done f hl hI hrun
    obtain ⟨_, f₁, ha, hrest⟩ := bind_ok (x := g a) hrun
    exact ih (done ++ [a]) f₁ (by simp [hl]) (step hl hI ha) hrest

theorem foldlM_ok {σ : Type} {g : σ → α → Edit σ} {l : List α} (I : Func → Prop)
    (step : ∀ {s a f s' f'}, a ∈ l → I f → g s a f = .ok s' f' → I f')
    {s s' : σ} (h : I f) (hrun : l.foldlM g s f = .ok s' f') : I f' := by
  induction l generalizing s f with
  | nil =>
    cases hrun
    exact h
  | cons a l ih =>
    rw [List.foldlM_cons] at hrun
    obtain ⟨s₁, f₁, ha, hrest⟩ := bind_ok hrun
    exact ih (fun hm => step (List.mem_cons_of_mem _ hm)) (step List.mem_cons_self h ha) hrest

theorem mapM_ok {g : α → Edit β} {l : List α} (I : Func → Prop) (Q : β → Prop)
    (step : ∀ {a f b f'}, a ∈ l → I f → g a f = .ok b f' → I f' ∧ Q b)
    {bs : List β} (h : I f) (hrun : l.mapM g f = .ok bs f') : I f' ∧ ∀ b ∈ bs, Q b := by
  induction l generalizing f bs with
  | nil =>
    cases hrun
    exact ⟨h, fun b hb => by cases hb⟩
  | cons a l ih =>
    rw [List.mapM_cons] at hrun
    obtain ⟨b, f₁, ha, hrun⟩ := bind_ok hrun
    obtain ⟨bs', f₂, hrest, hrun⟩ := bind_ok hrun
    cases hrun
    obtain ⟨h₁, hb⟩ := step List.mem_cons_self h ha
    obtain ⟨h₂, hbs⟩ := ih (fun hm => step (List.mem_cons_of_mem _ hm)) h₁ hrest
    exact ⟨h₂, List.forall_mem_cons.mpr ⟨hb, hbs⟩⟩

/-- A loop that collects results and whose rounds all succeed. -/
theorem mapM_run {g : α → Edit β} {l : List α} (I : List α → List β → Func → Prop)
    (step : ∀ {done a rest bs f}, l = done ++ a :: rest → I done bs f →
      ∃ b f', g a f = .ok b f' ∧ I (done ++ [a]) (bs ++ [b]) f')
    (h : I [] [] f) : ∃ bs f', l.mapM g f = .ok bs f' ∧ I l bs f' := by
  suffices key : ∀ rest done sofar f, l = done ++ rest → I done sofar f →
      ∃ bs f', rest.mapM g f = .ok bs f' ∧ I l (sofar ++ bs) f' from key l [] [] f rfl h
  intro rest
  induction rest with
  | nil =>
    intro done sofar f hl hI
    rw [List.append_nil] at hl
    exact ⟨[], f, rfl, by rw [List.append_nil]; exact hl ▸ hI⟩
  | cons a rest ih =>
    intro done sofar f hl hI
    obtain ⟨b, f₁, hrun, hI₁⟩ := step hl hI
    obtain ⟨bs, f', hrest, hI'⟩ := ih (done ++ [a]) (sofar ++ [b]) f₁ (by simp [hl]) hI₁
    refine ⟨b :: bs, f', ?_, by simpa using hI'⟩
    rw [List.mapM_cons, bind_eq hrun, bind_eq hrest]
    rfl

theorem filterMapM_ok {g : α → Edit (Option β)} {l : List α} {out : List β}
    (I : List α → List β → Func → Prop)
    (step : ∀ done a rest out f r f', l = done ++ a :: rest → I done out f → g a f = .ok r f' →
      I (done ++ [a]) (out ++ r.toList) f')
    (h : I [] [] f) (hrun : l.filterMapM g f = .ok out f') : I l out f' := by
  suffices key : ∀ rest done sofar out f, l = done ++ rest → I done sofar f →
      rest.filterMapM g f = .ok out f' → I l (sofar ++ out) f' from key l [] [] out f rfl h hrun
  intro rest
  induction rest with
  | nil =>
    intro done sofar out f hl hI hrun
    rw [List.filterMapM_nil] at hrun
    cases hrun
    rw [List.append_nil] at hl ⊢
    exact hl ▸ hI
  | cons a rest ih =>
    intro done sofar out f hl hI hrun
    rw [List.filterMapM_cons] at hrun
    obtain ⟨r, f₁, ha, hrun⟩ := bind_ok hrun
    have hI₁ := step done a rest sofar f r f₁ hl hI ha
    have hl₁ : l = done ++ [a] ++ rest := by rw [hl, List.append_assoc]; rfl
    cases r with
    | none =>
      rw [Option.toList_none, List.append_nil] at hI₁
      exact ih _ _ _ _ hl₁ hI₁ hrun
    | some b =>
      obtain ⟨out', f₂, hrest, hrun⟩ := bind_ok hrun
      cases hrun
      have := ih _ _ _ _ hl₁ hI₁ hrest
      rw [List.append_assoc] at this
      exact this

/-! ## Questions and rounds -/

theorem answer_of_memo {q : Question} {s : Stack} (hb : f.resolvable q.block = .ok ())
    (hm : f.memo.lookup q = some s) : answer q f = .ok s f := by
  rw [answer, bind_eq (ask_eq hb), bind_eq get_eq, hm]
  rfl

theorem answer_of_solve {q : Question} {s : Stack} (hb : f.resolvable q.block = .ok ())
    (hq : (q.probe || f.frozen) = true) (hm : f.memo.lookup q = none)
    (hs : f.solve q.block q.var = .ok s) :
    answer q f = .ok s { f with memo := (q, s) :: f.memo } := by
  rw [answer, bind_eq (ask_eq hb), bind_eq get_eq, hm]
  dsimp only
  rw [bind_eq (ask_eq hs), if_pos hq]
  rfl

theorem answer_of_build {q : Question} {s s' : Stack} (hb : f.resolvable q.block = .ok ())
    (hq : (q.probe || f.frozen) = false) (hm : f.memo.lookup q = none)
    (hs : f.solve q.block q.var = .ok s) (hbuild : buildJoins s f = .ok s' f') :
    answer q f = .ok s' { f' with memo := (q, s') :: f'.memo } := by
  rw [answer, bind_eq (ask_eq hb), bind_eq get_eq, hm]
  dsimp only
  rw [bind_eq (ask_eq hs), hq, if_neg Bool.false_ne_true, bind_eq hbuild]
  rfl

theorem stackAt_of_memo {b : NodeId} {v : VarId} {s : Stack} (hb : f.resolvable b = .ok ())
    (hm : f.memo.lookup ⟨b, v, false⟩ = some s) : stackAt b v f = .ok s f :=
  answer_of_memo hb hm

theorem stackAt_of_solve {b : NodeId} {v : VarId} {s : Stack} (hb : f.resolvable b = .ok ())
    (hf : f.frozen = true) (hm : f.memo.lookup ⟨b, v, false⟩ = none) (hs : f.solve b v = .ok s) :
    stackAt b v f = .ok s { f with memo := (⟨b, v, false⟩, s) :: f.memo } :=
  answer_of_solve hb hf hm hs

theorem stackAt_of_build {b : NodeId} {v : VarId} {s s' : Stack} (hb : f.resolvable b = .ok ())
    (hf : f.frozen = false) (hm : f.memo.lookup ⟨b, v, false⟩ = none) (hs : f.solve b v = .ok s)
    (hbuild : buildJoins s f = .ok s' f') :
    stackAt b v f = .ok s' { f' with memo := (⟨b, v, false⟩, s') :: f'.memo } :=
  answer_of_build hb hf hm hs hbuild

/-- An answer is remembered, or it has been searched for: then it is remembered from now on, and
if joins may be built those that the search has found are there. -/
theorem answer_cases {q : Question} {s : Stack} (h : answer q f = .ok s f') :
    f.resolvable q.block = .ok () ∧
      ((f.memo.lookup q = some s ∧ f' = f) ∨
        (f.memo.lookup q = none ∧ ∃ s₀ f₁, f.solve q.block q.var = .ok s₀ ∧
          f' = { f₁ with memo := (q, s) :: f₁.memo } ∧
          (((q.probe || f.frozen) = true ∧ s₀ = s ∧ f₁ = f) ∨
            ((q.probe || f.frozen) = false ∧ buildJoins s₀ f = .ok s f₁)))) := by
  obtain ⟨_, f₁, hask, hrest⟩ := bind_ok h
  obtain ⟨hb, rfl⟩ := ask_ok hask
  refine ⟨hb, ?_⟩
  rw [bind_eq get_eq] at hrest
  cases hm : f₁.memo.lookup q with
  | some s' =>
    rw [hm] at hrest
    cases hrest
    exact Or.inl ⟨rfl, rfl⟩
  | none =>
    rw [hm] at hrest
    obtain ⟨s₀, f₂, hask, hsearch⟩ := bind_ok hrest
    obtain ⟨hs, rfl⟩ := ask_ok hask
    refine Or.inr ⟨rfl, s₀, ?_⟩
    dsimp only at hsearch
    cases hq : q.probe || f₂.frozen with
    | true =>
      rw [hq, if_pos rfl] at hsearch
      cases hsearch
      exact ⟨f₂, hs, rfl, Or.inl ⟨rfl, rfl, rfl⟩⟩
    | false =>
      rw [hq, if_neg Bool.false_ne_true] at hsearch
      obtain ⟨s₁, f₃, hbuild, hend⟩ := bind_ok hsearch
      cases hend
      exact ⟨f₃, hs, rfl, Or.inr ⟨rfl, hbuild⟩⟩

/-- What every question about a block that waits keeps, resolving all of them keeps. -/
theorem resolveAll_ok {I : Func → Prop} {P : NodeId → Prop} {n : Nat}
    (place : ∀ {b g e}, b ∈ f.blocks → I g → e ∈ (g.blockAt b).timelines → P b)
    (step : ∀ {b v s g g'}, P b → I g → stackAt b v g = .ok s g' → I g')
    (h : I f) (hrun : resolveAll f = .ok n f') : I f' := by
  rw [resolveAll, bind_eq get_eq, bind_eq get_eq] at hrun
  obtain ⟨g, hg, hrun⟩ := forIn_ok (fun _ g => I g) (fun done b rest g s g' hl hg hblock => by
    have hb : b ∈ f.blocks := hl ▸ List.mem_append_right _ List.mem_cons_self
    rw [bind_eq get_eq] at hblock
    obtain ⟨g₁, hg₁, hblock⟩ := forIn_ok (fun _ k => I k)
      (fun done e rest k s k' hl hk hentry => by
        have hp : P b := place hb hg (hl ▸ List.mem_append_right _ List.mem_cons_self)
        obtain ⟨w, t⟩ := e
        dsimp only at hentry
        rw [bind_eq get_eq] at hentry
        split at hentry
        · cases hentry
          exact ⟨rfl, hk⟩
        · obtain ⟨_, k₁, hstack, hentry⟩ := bind_ok hentry
          cases hentry
          exact ⟨rfl, step hp hk hstack⟩) hg hblock
    cases hblock
    exact ⟨rfl, hg₁⟩) h hrun
  cases hrun
  exact hg

/-- What pruning a timeline and binding the nodes that target it anew keep, pruning them all
keeps. -/
theorem pruneIncoming_ok {I : Func → Prop} {n : Nat}
    (prune : ∀ {t r g g'}, I g → pruneTimeline t g = .ok r g' → I g')
    (rebind : ∀ {t k g g'}, I g → retarget t g = .ok k g' → I g')
    (h : I f) (hrun : pruneIncoming f = .ok n f') : I f' := by
  obtain ⟨_, hrun⟩ := unfrozen_bind_ok hrun
  rw [bind_eq get_eq] at hrun
  obtain ⟨results, f₁, hmap, hrun⟩ := bind_ok hrun
  have h₁ := (mapM_ok I (fun _ => True) (fun {t g r g'} _ hg hround => by
    obtain ⟨_, g₁, hprune, hret⟩ := bind_ok hround
    cases hret
    exact ⟨prune hg hprune, trivial⟩) h hmap).1
  obtain ⟨g, hg, hrun⟩ := forIn_ok (fun _ g => I g) (fun done e rest g s g' _ hg hround => by
    obtain ⟨t, _, emptied⟩ := e
    dsimp only at hround
    split at hround
    · obtain ⟨_, g₁, hretarget, hround⟩ := bind_ok hround
      cases hround
      exact ⟨rfl, rebind hg hretarget⟩
    · cases hround
      exact ⟨rfl, hg⟩) h₁ hrun
  cases hrun
  exact hg

end Edit
end DefFlow.Flow
