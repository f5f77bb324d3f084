import Mathlib.Data.List.Forall2
import Mathlib.Data.List.Nodup
import Mathlib.Tactic.Common

/-!
# Lists

Facts about lists and tables of pairs that the theory of functions rests on.
-/

set_option autoImplicit false

namespace DefFlow.Flow

theorem nodup_concat {α : Type} {l : List α} {a : α} (h : l.Nodup) (ha : a ∉ l) :
    (l ++ [a]).Nodup :=
  List.concat_eq_append ▸ List.Nodup.concat ha h

theorem nodup_append_ite {α : Type} {l : List α} {a : α} (p : Prop) [Decidable p]
    (h : l.Nodup) (ha : a ∉ l) : (l ++ if p then [a] else []).Nodup := by
  by_cases hp : p
  · rw [if_pos hp]
    exact nodup_concat h ha
  · rwa [if_neg hp, List.append_nil]

theorem nodup_eraseDups {α : Type} [DecidableEq α] (l : List α) : l.eraseDups.Nodup := by
  generalize hn : l.length = n
  induction n using Nat.strongRecOn generalizing l with
  | _ n ih =>
    cases l with
    | nil => simp
    | cons a l =>
      rw [List.eraseDups_cons, List.nodup_cons]
      refine ⟨by simp [List.mem_eraseDups], ih _ ?_ _ rfl⟩
      have := List.length_filter_le (fun b => !b == a) l
      simp only [List.length_cons] at hn
      omega

theorem eraseDups_of_nodup {α : Type} [DecidableEq α] {l : List α} (h : l.Nodup) :
    l.eraseDups = l := by
  induction l with
  | nil => simp
  | cons a l ih =>
    obtain ⟨ha, hl⟩ := List.nodup_cons.mp h
    have hfilter : l.filter (fun b => !b == a) = l :=
      List.filter_eq_self.mpr fun b hb => by
        have : b ≠ a := fun he => ha (he ▸ hb)
        simpa using this
    rw [List.eraseDups_cons, hfilter, ih hl]

theorem eraseDups_map {α : Type} [DecidableEq α] {g : α → α} (hg : Function.Injective g)
    (l : List α) : (l.map g).eraseDups = l.eraseDups.map g := by
  generalize hn : l.length = n
  induction n using Nat.strongRecOn generalizing l with
  | _ n ih =>
    cases l with
    | nil => rfl
    | cons a l =>
      have hfilter : (l.map g).filter (fun b => !b == g a) = (l.filter fun b => !b == a).map g := by
        rw [List.filter_map]
        refine congrArg _ (List.filter_congr fun b _ => ?_)
        simp [hg.eq_iff]
      have := List.length_filter_le (fun b => !b == a) l
      rw [List.length_cons] at hn
      rw [List.map_cons, List.eraseDups_cons, List.eraseDups_cons, List.map_cons, hfilter,
        ih _ (by omega) _ rfl]

theorem lookup_cons_of_ne {α β : Type} [BEq α] [LawfulBEq α] {k a : α} {b : β}
    {l : List (α × β)} (h : k ≠ a) : ((a, b) :: l).lookup k = l.lookup k := by
  have : (k == a) = false := by simpa using h
  rw [List.lookup_cons, this]

theorem lookup_cons_ite {α β : Type} [BEq α] [LawfulBEq α] [DecidableEq α] {k a : α} {b : β}
    {l : List (α × β)} : ((a, b) :: l).lookup k = if k = a then some b else l.lookup k := by
  split
  · next h => rw [h, List.lookup_cons_self]
  · next h => exact lookup_cons_of_ne h

/-- What is found in a table is its first entry, or was found in the rest of it. -/
theorem of_lookup_cons {α β : Type} [BEq α] [LawfulBEq α] {k a : α} {b c : β}
    {l : List (α × β)} (h : ((a, b) :: l).lookup k = some c) :
    (k = a ∧ b = c) ∨ (k ≠ a ∧ l.lookup k = some c) := by
  by_cases hk : k = a
  · rw [hk, List.lookup_cons_self, Option.some.injEq] at h
    exact Or.inl ⟨hk, h⟩
  · exact Or.inr ⟨hk, lookup_cons_of_ne hk ▸ h⟩

theorem lookup_filter_ne {α β : Type} [BEq α] [LawfulBEq α] [DecidableEq α] {k a : α}
    (l : List (α × β)) :
    (l.filter fun e => e.1 ≠ a).lookup k = if k = a then none else l.lookup k := by
  induction l with
  | nil => rw [List.filter_nil, List.lookup_nil, ite_self]
  | cons e l ih =>
    obtain ⟨x, b⟩ := e
    by_cases hx : x = a
    · rw [List.filter_cons_of_neg (by simpa using hx), ih]
      split
      · rfl
      · next hk => rw [lookup_cons_of_ne (hx ▸ hk)]
    · rw [List.filter_cons_of_pos (by simpa using hx), lookup_cons_ite, lookup_cons_ite, ih]
      split
      · next hk => rw [if_neg (hk ▸ hx)]
      · rfl

theorem lookup_of_mem {β : Type} {l : List (Nat × β)} (hn : (l.map Prod.fst).Nodup)
    {e : Nat × β} (he : e ∈ l) : l.lookup e.1 = some e.2 := by
  induction l with
  | nil => cases he
  | cons x l ih =>
    rw [List.map_cons, List.nodup_cons] at hn
    rcases List.mem_cons.mp he with rfl | he
    · rw [List.lookup_cons, beq_self_eq_true]
    · have hne : e.1 ≠ x.1 := fun h => hn.1 (h ▸ List.mem_map_of_mem he)
      rw [lookup_cons_of_ne hne]
      exact ih hn.2 he

theorem mem_of_lookup {β : Type} {l : List (Nat × β)} {k : Nat} {b : β}
    (h : l.lookup k = some b) : (k, b) ∈ l := by
  obtain ⟨s, t, rfl, -⟩ := List.lookup_eq_some_iff.mp h
  exact List.mem_append_right _ List.mem_cons_self

theorem append_of_getElem? {α : Type} {l : List α} {k : Nat} {a : α} (h : l[k]? = some a) :
    ∃ s t, l = s ++ a :: t ∧ s.length = k := by
  obtain ⟨hk, rfl⟩ := List.getElem?_eq_some_iff.mp h
  refine ⟨l.take k, l.drop (k + 1), ?_, List.length_take_of_le (Nat.le_of_lt hk)⟩
  rw [← List.drop_eq_getElem_cons hk, List.take_append_drop]

/-- A result that can be evaluated, with what can be checked of it. -/
theorem exists_of_any {ε α : Type} {x : Except ε α} {p : α → Bool}
    (h : x.toOption.any p = true) : ∃ a, x = .ok a ∧ p a = true := by
  cases x with
  | error e => cases h
  | ok a => exact ⟨a, rfl, h⟩

section

variable {α β : Type} {R : α → β → Prop} {l : List α} {m : List β}

theorem forall₂_right (h : List.Forall₂ R l m) {b : β} (hb : b ∈ m) : ∃ a ∈ l, R a b := by
  induction h with
  | nil => simp at hb
  | @cons a b' _ _ hr _ ih =>
    rcases List.mem_cons.mp hb with rfl | hb
    · exact ⟨a, List.mem_cons_self, hr⟩
    · obtain ⟨a', ha, hr'⟩ := ih hb
      exact ⟨a', List.mem_cons_of_mem _ ha, hr'⟩

theorem forall₂_left (h : List.Forall₂ R l m) {a : α} (ha : a ∈ l) : ∃ b ∈ m, R a b :=
  forall₂_right h.flip ha

end

/-! ## Computations that can fail -/

theorem ok_bind {α β ε : Type} (a : α) (k : α → Except ε β) : (Except.ok a >>= k) = k a := rfl

theorem of_bind_ok {α β ε : Type} {x : Except ε α} {k : α → Except ε β} {b : β}
    (h : (x >>= k) = .ok b) : ∃ a, x = .ok a ∧ k a = .ok b := by
  cases x with
  | ok a => exact ⟨a, rfl, h⟩
  | error e => cases h

theorem of_mapM_ok {α β ε : Type} {F : α → Except ε β} {l : List α} {bs : List β}
    (h : l.mapM F = .ok bs) : List.Forall₂ (fun a b => F a = .ok b) l bs := by
  induction l generalizing bs with
  | nil =>
    cases h
    exact .nil
  | cons a l ih =>
    rw [List.mapM_cons] at h
    obtain ⟨b, hb, h⟩ := of_bind_ok h
    obtain ⟨rest, hrest, h⟩ := of_bind_ok h
    cases h
    exact .cons hb (ih hrest)

theorem mapM_ok {α β ε : Type} {F : α → Except ε β} {G : α → β} {l : List α}
    (h : ∀ a ∈ l, F a = .ok (G a)) : l.mapM F = .ok (l.map G) := by
  induction l with
  | nil => rfl
  | cons a l ih =>
    rw [List.mapM_cons, h a List.mem_cons_self, ih fun c hc => h c (List.mem_cons_of_mem _ hc)]
    rfl

theorem exists_mapM {α β ε : Type} {F : α → Except ε β} {l : List α}
    (h : ∀ a ∈ l, ∃ b, F a = .ok b) : ∃ bs, l.mapM F = .ok bs := by
  induction l with
  | nil => exact ⟨[], rfl⟩
  | cons a l ih =>
    obtain ⟨b, hb⟩ := h a List.mem_cons_self
    obtain ⟨bs, hbs⟩ := ih fun c hc => h c (List.mem_cons_of_mem _ hc)
    exact ⟨b :: bs, by rw [List.mapM_cons, hb, hbs]; rfl⟩

theorem mapM_congr {α β ε : Type} {F G : α → Except ε β} {l : List α}
    (h : ∀ a ∈ l, F a = G a) : l.mapM F = l.mapM G := by
  induction l with
  | nil => rfl
  | cons a l ih =>
    rw [List.mapM_cons, List.mapM_cons, h a List.mem_cons_self,
      ih fun c hc => h c (List.mem_cons_of_mem _ hc)]

section

variable {α σ ε : Type} {F : α → σ → Except ε (Bool × σ)}

/-- Once something has been found the rest of a list is passed over. -/
theorem foldlM_passed (l : List α) (s : σ) : l.foldlM (fun (acc : Bool × σ) a => do
    if acc.1 then return acc else F a acc.2) (true, s) = .ok (true, s) := by
  induction l with
  | nil => rfl
  | cons a l ih => exact ih

/-- A walk over a list that stops at the first success, with what a success shows. -/
theorem foldlM_found {P : Prop} {l : List α}
    (h : ∀ a ∈ l, ∀ s, ∃ found s', F a s = .ok (found, s') ∧ (found = true → P)) (s : σ) :
    ∃ found s', l.foldlM (fun (acc : Bool × σ) a => do
      if acc.1 then return acc else F a acc.2) (false, s) = .ok (found, s') ∧
      (found = true → P) := by
  induction l generalizing s with
  | nil => exact ⟨false, s, rfl, fun hf => nomatch hf⟩
  | cons a l ih =>
    obtain ⟨found, s', hrun, hP⟩ := h a List.mem_cons_self s
    cases found with
    | true =>
      refine ⟨true, s', ?_, hP⟩
      rw [List.foldlM_cons, if_neg (by simp), hrun]
      exact foldlM_passed l s'
    | false =>
      obtain ⟨found', s'', hrest, hP'⟩ := ih (fun c hc => h c (List.mem_cons_of_mem _ hc)) s'
      refine ⟨found', s'', ?_, hP'⟩
      rw [List.foldlM_cons, if_neg (by simp), hrun]
      exact hrest

/-- A walk without a success has none at the first member and goes on. -/
theorem of_foldlM_not_found {a : α} {l : List α} {s s' : σ}
    (h : (a :: l).foldlM (fun (acc : Bool × σ) a => do
      if acc.1 then return acc else F a acc.2) (false, s) = .ok (false, s')) :
    ∃ s₁, F a s = .ok (false, s₁) ∧ l.foldlM (fun (acc : Bool × σ) a => do
      if acc.1 then return acc else F a acc.2) (false, s₁) = .ok (false, s') := by
  rw [List.foldlM_cons, if_neg (by simp)] at h
  obtain ⟨⟨found, s₁⟩, hrun, h⟩ := of_bind_ok h
  cases found with
  | true =>
    rw [foldlM_passed] at h
    cases h
  | false => exact ⟨s₁, hrun, h⟩

/-- What every member of a list leaves behind where nothing has been found. -/
theorem foldlM_not_found {I : σ → Prop} {C : α → σ → Prop} {l : List α}
    (h : ∀ a ∈ l, ∀ {s s'}, I s → F a s = .ok (false, s') →
      I s' ∧ C a s' ∧ ∀ c, C c s → C c s') :
    ∀ {s s'}, I s → l.foldlM (fun (acc : Bool × σ) a => do
      if acc.1 then return acc else F a acc.2) (false, s) = .ok (false, s') →
      I s' ∧ (∀ a ∈ l, C a s') ∧ ∀ c, C c s → C c s' := by
  induction l with
  | nil =>
    intro s s' hs hrun
    cases hrun
    exact ⟨hs, nofun, fun _ => id⟩
  | cons a l ih =>
    intro s s' hs hrun
    obtain ⟨s₁, hstep, hrest⟩ := of_foldlM_not_found hrun
    obtain ⟨hs₁, ha, hkeep⟩ := h a List.mem_cons_self hs hstep
    obtain ⟨hs', hall, hkeep'⟩ := ih (fun c hc => h c (List.mem_cons_of_mem _ hc)) hs₁ hrest
    exact ⟨hs', List.forall_mem_cons.mpr ⟨hkeep' a ha, hall⟩, fun c hc => hkeep' c (hkeep c hc)⟩

end

end DefFlow.Flow
