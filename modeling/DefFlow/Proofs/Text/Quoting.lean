import DefFlow.Text.Quoted
import Mathlib.Algebra.Group.Nat.Defs
import Mathlib.Tactic.Common

/-!
# Quoted text is read back

Reading the inside of a quoted text gives the text that was quoted. Unless this has a double quote
itself, no other one stands between the outer two, and the quoted text is always a single line.
-/

set_option autoImplicit false

namespace DefFlow.Text

/-! ## Hexadecimal digits -/

theorem hexValue?_hexDigit : ∀ {n : Nat}, n < 16 → hexValue? (hexDigit n) = some n := by
  decide

/-- The digits are read one by one, the last one at the end. -/
theorem readDigits_succ (digit? : Char → Option Nat) (base : Nat) :
    ∀ (width acc : Nat) (cs : List Char), readDigits digit? base (width + 1) acc cs =
      (readDigits digit? base width acc cs).bind fun (m, r) => readDigits digit? base 1 m r
  | 0, acc, cs => by
    rw [readDigits.eq_1 digit? base acc cs, Option.bind_some]
  | width + 1, acc, [] => rfl
  | width + 1, acc, c :: cs => by
    rw [readDigits, readDigits]
    cases digit? c with
    | none => rfl
    | some d => exact readDigits_succ digit? base width (acc * base + d) cs

theorem readDigits_hexDigits (rest : List Char) : ∀ (width acc n : Nat),
    readDigits hexValue? 16 width acc (hexDigits width n ++ rest) =
      some (acc * 16 ^ width + n % 16 ^ width, rest)
  | 0, acc, n => by
    rw [hexDigits, List.nil_append, readDigits, Nat.pow_zero, Nat.mod_one, Nat.mul_one]
    rfl
  | width + 1, acc, n => by
    have hdigit := hexValue?_hexDigit (Nat.mod_lt n (by decide : 16 > 0))
    have hmod : n % 16 ^ (width + 1) = n / 16 % 16 ^ width * 16 + n % 16 := by
      rw [Nat.pow_succ', Nat.mod_mul]
      omega
    rw [hexDigits, List.append_assoc, readDigits_succ, readDigits_hexDigits _ width acc (n / 16),
      Option.bind_some, List.singleton_append]
    simp only [readDigits, hdigit]
    rw [hmod, Nat.pow_succ, Nat.add_mul, Nat.mul_assoc, Nat.add_assoc]

/-! ## Escapes -/

theorem toNat_valid (c : Char) : c.toNat < 0xd800 ∨ (0xdfff < c.toNat ∧ c.toNat ≤ 0x10ffff) := by
  rcases c.valid with h | ⟨h₁, h₂⟩
  · exact .inl h
  · exact .inr ⟨h₁, Nat.le_of_lt_succ h₂⟩

theorem charOfCodePoint?_toNat (c : Char) : charOfCodePoint? c.toNat = some c := by
  rw [charOfCodePoint?, if_pos (by simpa using toNat_valid c), Char.ofNat_toNat]

theorem controlLetter?_eq {c l : Char} (h : controlLetter? c = some l) (rest : List Char) :
    readEscape (l :: rest) = some (c, rest) := by
  unfold controlLetter? at h
  split at h <;> cases h <;> rfl

theorem readQuotedChar_escape (c : Char) (rest : List Char) :
    readQuotedChar (escape c ++ rest) = some (c, rest) := by
  have hdigits := fun width => readDigits_hexDigits rest width 0 c.toNat
  rw [escape]
  split
  · next h =>
    rw [Bool.or_eq_true, decide_eq_true_iff, decide_eq_true_iff] at h
    rcases h with rfl | rfl <;> rfl
  next h =>
  split
  · rw [Bool.or_eq_true, decide_eq_true_iff, decide_eq_true_iff, not_or] at h
    rw [List.singleton_append, readQuotedChar]
    · exact fun hc => h.1 hc
    · exact fun hc => h.2 hc
  split
  · next l hl => exact controlLetter?_eq hl rest
  dsimp only
  split
  · next hx =>
    have hlt : c.toNat < 16 ^ 2 := by
      rw [Bool.or_eq_true, decide_eq_true_iff, decide_eq_true_iff] at hx
      omega
    show (readDigits hexValue? 16 2 0 (hexDigits 2 c.toNat ++ rest)).map _ = _
    rw [hdigits, Nat.zero_mul, Nat.zero_add, Nat.mod_eq_of_lt hlt, Option.map_some]
    dsimp only
    rw [Char.ofNat_toNat]
  split
  · next hu =>
    show (do
      let (n, r) ← readDigits hexValue? 16 4 0 (hexDigits 4 c.toNat ++ rest)
      return (← charOfCodePoint? n, r)) = _
    rw [hdigits, Nat.zero_mul, Nat.zero_add, Nat.mod_eq_of_lt (by simpa using hu)]
    simp only [Option.bind_eq_bind, Option.bind_some, charOfCodePoint?_toNat]
    rfl
  · have hlt : c.toNat < 16 ^ 8 := by
      have := toNat_valid c
      omega
    show (do
      let (n, r) ← readDigits hexValue? 16 8 0 (hexDigits 8 c.toNat ++ rest)
      return (← charOfCodePoint? n, r)) = _
    rw [hdigits, Nat.zero_mul, Nat.zero_add, Nat.mod_eq_of_lt hlt]
    simp only [Option.bind_eq_bind, Option.bind_some, charOfCodePoint?_toNat]
    rfl

theorem unquoteWithin_escape : ∀ (cs : List Char) (fuel : Nat), cs.length ≤ fuel →
    unquoteWithin fuel (cs.flatMap escape) = some cs
  | [], fuel, _ => by
    cases fuel <;> rfl
  | c :: cs, 0, h => absurd h (by simp)
  | c :: cs, fuel + 1, h => by
    have hread := readQuotedChar_escape c (cs.flatMap escape)
    rw [List.flatMap_cons]
    cases hl : escape c ++ cs.flatMap escape with
    | nil =>
      rw [hl] at hread
      cases hread
    | cons d ds =>
      rw [hl] at hread
      rw [unquoteWithin, hread]
      · dsimp only
        rw [unquoteWithin_escape cs fuel (Nat.le_of_succ_le_succ h), Option.map_some]
      · nofun

theorem escape_ne_nil (c : Char) : escape c ≠ [] := by
  intro h
  have := readQuotedChar_escape c []
  rw [h] at this
  cases this

theorem length_le_flatMap_escape (cs : List Char) : cs.length ≤ (cs.flatMap escape).length := by
  induction cs with
  | nil => exact Nat.le_refl _
  | cons c cs ih =>
    have := List.length_pos_iff.mpr (escape_ne_nil c)
    rw [List.flatMap_cons, List.length_append, List.length_cons]
    omega

theorem unquote_escape (cs : List Char) : unquote (cs.flatMap escape) = some cs :=
  unquoteWithin_escape cs _ (length_le_flatMap_escape cs)

/-! ## Where quoted text ends -/

theorem hexDigits_plain : ∀ (width n : Nat), ∀ d ∈ hexDigits width n, d ≠ '"' ∧ d ≠ '\n'
  | 0, _, _, h => by cases h
  | width + 1, n, d, h => by
    rw [hexDigits, List.mem_append, List.mem_singleton] at h
    rcases h with h | rfl
    · exact hexDigits_plain width _ d h
    · have hplain : ∀ m : Nat, m < 16 → hexDigit m ≠ '"' ∧ hexDigit m ≠ '\n' := by decide
      exact hplain _ (Nat.mod_lt _ (by decide))

theorem controlLetter?_plain {c l : Char} (h : controlLetter? c = some l) : l ≠ '"' ∧ l ≠ '\n' := by
  unfold controlLetter? at h
  split at h <;> cases h <;> decide

/-- The escape of a character other than the quote has no quote in it, and no line end either. -/
theorem escape_plain {c : Char} (hc : c ≠ '"') : ∀ d ∈ escape c, d ≠ '"' ∧ d ≠ '\n' := by
  have hescape : ∀ l : Char, l ≠ '"' ∧ l ≠ '\n' → ∀ ds, (∀ d ∈ ds, d ≠ '"' ∧ d ≠ '\n') →
      ∀ d ∈ '\\' :: l :: ds, d ≠ '"' ∧ d ≠ '\n' := fun l hl ds hds =>
    List.forall_mem_cons.mpr ⟨by decide, List.forall_mem_cons.mpr ⟨hl, hds⟩⟩
  rw [escape]
  split
  · next h =>
    obtain rfl : c = '\\' := by simpa [hc] using h
    exact hescape _ (by decide) [] (by simp)
  split
  · next h =>
    refine List.forall_mem_singleton.mpr ⟨hc, ?_⟩
    rintro rfl
    exact absurd h (by decide)
  split
  · next l hl => exact hescape l (controlLetter?_plain hl) [] (by simp)
  dsimp only
  split
  · exact hescape _ (by decide) _ (hexDigits_plain 2 _)
  split
  · exact hescape _ (by decide) _ (hexDigits_plain 4 _)
  · exact hescape _ (by decide) _ (hexDigits_plain 8 _)

end DefFlow.Text
