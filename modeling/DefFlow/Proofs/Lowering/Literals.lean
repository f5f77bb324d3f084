import DefFlow.Proofs.Lowering.Records
import DefFlow.Proofs.Syntax.Symbols

/-!
# Reading integer literals

A literal is a minus or none, and then `0x` and hexadecimal digits,
    or decimal digits. Main statement:
the number that is read is the one that the digits denote, unless a zero stands in front of other
decimal digits. Then the digits are read as octal ones, and with an eight or a nine among them
nothing is read.
-/

set_option autoImplicit false

namespace DefFlow

namespace Text

open Syntax

/-! ## Digits -/

def digitsValue (base : Nat) (n : Nat) : List Char → Nat
  | [] => n
  | d :: ds => digitsValue base (n * base + (hexValue? d).getD 0) ds

def DigitOf (base : Nat) (d : Char) : Prop := d ≠ '_' ∧ ∃ v, hexValue? d = some v ∧ v < base

section

variable {base n : Nat} {ds : List Char}

theorem le_digitsValue (hbase : 0 < base) (n : Nat) (ds : List Char) :
    n ≤ digitsValue base n ds := by
  induction ds generalizing n with
  | nil => exact Nat.le_refl n
  | cons d ds ih =>
    exact Nat.le_trans (Nat.le_mul_of_pos_right n hbase)
        (Nat.le_trans (Nat.le_add_right _ _) (ih _))

theorem magnitude_eq (hbase : 0 < base) (h : ∀ d ∈ ds, DigitOf base d) (hn : n < UInt64.size) :
    magnitude base n ds = if digitsValue base n ds < UInt64.size
      then .ok (digitsValue base n ds) else .error .outOfRange := by
  induction ds generalizing n with
  | nil => rw [magnitude, digitsValue, if_pos hn]
  | cons d ds ih =>
    obtain ⟨hd, v, hv, hlt⟩ := h d List.mem_cons_self
    rw [magnitude, if_neg hd, hv, digitsValue, hv, Option.getD_some]
    dsimp only
    rw [if_neg (Nat.not_le.mpr hlt)]
    split
    · next hbig =>
      -- What has grown too large stays too large.
      rw [if_neg (Nat.not_lt.mpr (Nat.le_trans hbig (le_digitsValue hbase _ ds)))]
    · next hsmall =>
      exact ih (fun e he => h e (List.mem_cons_of_mem d he)) (Nat.not_le.mp hsmall)

theorem magnitude_ne_ok {d : Char} (hd : d ∈ ds) (hmark : d ≠ '_')
    (hbad : ∀ v, hexValue? d = some v → base ≤ v) (m : Nat) : magnitude base n ds ≠ .ok m := by
  induction ds generalizing n with
  | nil => cases hd
  | cons e ds ih =>
    rw [magnitude]
    rcases List.mem_cons.mp hd with rfl | hd
    · rw [if_neg hmark]
      cases hv : hexValue? d with
      | none => nofun
      | some v =>
        dsimp only
        rw [if_pos (hbad v hv)]
        nofun
    · split
      · exact ih hd
      · cases hexValue? e with
        | none => nofun
        | some v =>
          dsimp only
          split
          · nofun
          · split
            · nofun
            · exact ih hd

theorem separated_of_digits (h : ∀ d ∈ ds, d ≠ '_') (hne : ds ≠ []) (after : Bool) :
    separated after ds = true := by
  induction ds generalizing after with
  | nil => exact absurd rfl hne
  | cons d ds ih =>
    rw [separated, if_neg (h d List.mem_cons_self)]
    cases ds with
    | nil => rfl
    | cons e ds =>
      exact ih (fun d hd => h d (List.mem_cons_of_mem _ hd)) (List.cons_ne_nil e ds) true

end

/-! ## Characters -/

def isOctalDigit (d : Char) : Bool := '0' ≤ d && d ≤ '7'

section

variable {d : Char}

theorem le_iff_toNat {c d : Char} : c ≤ d ↔ c.toNat ≤ d.toNat := Iff.rfl

theorem isDigit_iff : Lexeme.isDigit d = true ↔ 48 ≤ d.toNat ∧ d.toNat ≤ 57 := by
  rw [Lexeme.isDigit, Bool.and_eq_true, decide_eq_true_eq, decide_eq_true_eq, le_iff_toNat,
    le_iff_toNat]
  exact Iff.rfl

theorem isOctalDigit_iff : isOctalDigit d = true ↔ 48 ≤ d.toNat ∧ d.toNat ≤ 55 := by
  rw [isOctalDigit, Bool.and_eq_true, decide_eq_true_eq, decide_eq_true_eq, le_iff_toNat,
    le_iff_toNat]
  exact Iff.rfl

theorem hexValue?_digit (h : Lexeme.isDigit d = true) : hexValue? d = some (d.toNat - 48) := by
  obtain ⟨h₁, h₂⟩ := isDigit_iff.mp h
  simp [hexValue?, h₁, h₂]

theorem digitOf_decimal (h : Lexeme.isDigit d = true) : DigitOf 10 d := by
  obtain ⟨h₁, h₂⟩ := isDigit_iff.mp h
  refine ⟨?_, _, hexValue?_digit h, by omega⟩
  rintro rfl
  exact absurd h (by decide)

theorem digitOf_octal (h : isOctalDigit d = true) : DigitOf 8 d := by
  obtain ⟨h₁, h₂⟩ := isOctalDigit_iff.mp h
  have hdigit : Lexeme.isDigit d = true := isDigit_iff.mpr ⟨h₁, by omega⟩
  exact ⟨(digitOf_decimal hdigit).1, _, hexValue?_digit hdigit, by omega⟩

theorem digitOf_hexadecimal (h : Lexeme.isHexDigit d = true) : DigitOf 16 d := by
  have hmark : d ≠ '_' := by
    rintro rfl
    exact absurd h (by decide)
  simp only [Lexeme.isHexDigit, Bool.or_eq_true, Bool.and_eq_true, decide_eq_true_eq, isDigit_iff,
    le_iff_toNat] at h
  refine ⟨hmark, ?_⟩
  rcases h with (⟨h₁, h₂⟩ | h) | h
  · exact ⟨d.toNat - 48, by simp [hexValue?, h₁, h₂], by omega⟩
  · obtain ⟨h₁, h₂⟩ : 97 ≤ d.toNat ∧ d.toNat ≤ 102 := h
    exact ⟨d.toNat - 87, by simp [hexValue?, h₁, h₂, show ¬ d.toNat ≤ 57 by omega], by omega⟩
  · obtain ⟨h₁, h₂⟩ : 65 ≤ d.toNat ∧ d.toNat ≤ 70 := h
    exact ⟨d.toNat - 55, by simp [hexValue?, h₁, h₂, show ¬ d.toNat ≤ 57 by omega,
      show ¬ 97 ≤ d.toNat by omega], by omega⟩

end

/-! ## Literals -/

def unsignedMeaning : List Char → Nat
  | '0' :: 'x' :: ds => digitsValue 16 0 ds
  | ds => digitsValue 10 0 ds

def leadsWithZero : List Char → Bool
  | '0' :: d :: _ => d ≠ 'x'
  | _ => false

def octal? (ds : List Char) : Option Nat :=
  if ds.all isOctalDigit then some (digitsValue 8 0 ds) else none

def unsignedReading (ds : List Char) : Option Nat :=
  if leadsWithZero ds then octal? ds else some (unsignedMeaning ds)

section

variable {cs ds : List Char}

theorem unsignedNumeral_of_digits {base : Nat} {marked : Bool} (hbase : 0 < base) (hne : ds ≠ [])
    (h : ∀ d ∈ ds, DigitOf base d) (hs : splitBase cs = (base, ds, marked)) (hcs : cs ≠ []) :
    (unsignedNumeral cs).toOption =
      (some (digitsValue base 0 ds)).filter fun n => n < UInt64.size := by
  have hempty : ¬ cs.isEmpty = true := by simpa using hcs
  rw [unsignedNumeral, hs]
  dsimp only
  rw [if_neg hempty, magnitude_eq hbase h (by decide),
    separated_of_digits (fun d hd => (h d hd).1) hne]
  by_cases hfits : digitsValue base 0 ds < UInt64.size
  · rw [if_pos hfits, Option.filter_some, if_pos (by simpa using hfits)]
    rfl
  · rw [if_neg hfits, Option.filter_some, if_neg (by simpa using hfits)]
    rfl

theorem splitBase_decimal {c : Char} (hc : c ≠ '0') (ds : List Char) :
    splitBase (c :: ds) = (10, c :: ds, false) := by
  rw [splitBase]
  · rintro _ _ _ ⟨rfl, -⟩
    exact hc rfl
  · rintro _ ⟨rfl, -⟩
    exact hc rfl

theorem splitBase_octal {d : Char} (hd : Lexeme.isDigit d = true) (ds : List Char) :
    splitBase ('0' :: d :: ds) = (8, '0' :: d :: ds, false) := by
  cases ds with
  | nil => rfl
  | cons e ds =>
    have hne : ∀ e, Lexeme.isDigit e = false → d ≠ e := by
      rintro e he rfl
      rw [hd] at he
      cases he
    have hnone : markedBase? d = none := by
      simp [markedBase?, hne 'x' (by decide), hne 'X' (by decide), hne 'o' (by decide),
        hne 'O' (by decide), hne 'b' (by decide), hne 'B' (by decide)]
    rw [splitBase, hnone]

theorem unsignedNumeral_eq (h : IsUnsigned cs) : (unsignedNumeral cs).toOption =
    (unsignedReading cs).filter fun n => n < UInt64.size := by
  cases h with
  | @hexadecimal c r h =>
    exact unsignedNumeral_of_digits (by decide) (List.cons_ne_nil c r)
      (fun d hd => digitOf_hexadecimal (h d hd)) rfl (List.cons_ne_nil _ _)
  | @decimal c r h =>
    have hdecimal := fun d hd => digitOf_decimal (h d hd)
    by_cases hc : c = '0'
    · subst hc
      cases r with
      | nil => rfl
      | cons d r =>
        have hd := h d (List.mem_cons_of_mem _ List.mem_cons_self)
        have hlead : leadsWithZero ('0' :: d :: r) = true := by
          refine decide_eq_true ?_
          rintro rfl
          exact absurd hd (by decide)
        rw [unsignedReading, if_pos hlead, octal?]
        split
        · next hall =>
          exact unsignedNumeral_of_digits (by decide) (List.cons_ne_nil _ _)
            (fun e he => digitOf_octal (List.all_eq_true.mp hall e he)) (splitBase_octal hd r)
            (List.cons_ne_nil _ _)
        · next hall =>
          -- One of the digits is an eight or a nine.
          simp only [List.all_eq_true, not_forall] at hall
          obtain ⟨e, he, hoctal⟩ := hall
          have hbad : ∀ v, hexValue? e = some v → 8 ≤ v := by
            intro v hv
            rw [hexValue?_digit (h e he), Option.some.injEq] at hv
            have h₁ := isDigit_iff.mp (h e he)
            have h₂ := mt isOctalDigit_iff.mpr hoctal
            omega
          have hmag : ∀ m, magnitude 8 0 ('0' :: d :: r) ≠ .ok m :=
            magnitude_ne_ok he (hdecimal e he).1 hbad
          rw [unsignedNumeral, splitBase_octal hd]
          dsimp only
          rw [if_neg (by simp)]
          cases hm : magnitude 8 0 ('0' :: d :: r) with
          | ok m => exact absurd hm (hmag m)
          | error e => rfl
    · have hlead : leadsWithZero (c :: r) = false := by
        rw [leadsWithZero]
        rintro _ _ ⟨rfl, -⟩
        exact hc rfl
      have hmeaning : unsignedMeaning (c :: r) = digitsValue 10 0 (c :: r) := by
        rw [unsignedMeaning]
        rintro _ ⟨rfl, -⟩
        exact hc rfl
      rw [unsignedReading, if_neg (by simp [hlead]), hmeaning]
      exact unsignedNumeral_of_digits (by decide) (List.cons_ne_nil c r) hdecimal
        (splitBase_decimal hc r) (List.cons_ne_nil c r)

def literalMeaning : List Char → Int
  | '-' :: ds => -(unsignedMeaning ds : Int)
  | ds => unsignedMeaning ds

/-- Whether a zero stands in front of other decimal digits of a literal. -/
def zeroPadded : List Char → Bool
  | '-' :: ds => leadsWithZero ds
  | ds => leadsWithZero ds

/-- The number that the digits of a literal denote as octal ones, if they are. -/
def literalOctal? : List Char → Option Int
  | '-' :: ds => (octal? ds).map fun n : Nat => -(n : Int)
  | ds => (octal? ds).map fun n : Nat => (n : Int)

def fitsSigned (n : Int) : Bool := -2 ^ 63 ≤ n && n ≤ 2 ^ 63 - 1

/-- An unsigned number that is too large stays so with its sign. -/
theorem filter_signed {sign : Nat → Int} (hsign : ∀ n, sign n = n ∨ sign n = -n) (x : Option Nat) :
    ((x.filter fun n => n < UInt64.size).map sign).filter fitsSigned =
      (x.map sign).filter fitsSigned := by
  cases x with
  | none => rfl
  | some n =>
    by_cases hn : n < UInt64.size
    · rw [Option.filter_some, if_pos (by simpa using hn)]
    · have hsize : UInt64.size = 18446744073709551616 := rfl
      have hunfit : fitsSigned (sign n) = false := by
        rw [fitsSigned, Bool.and_eq_false_iff, decide_eq_false_iff_not, decide_eq_false_iff_not]
        rcases hsign n with h | h <;> omega
      rw [Option.filter_some, if_neg (by simpa using hn), Option.map_none, Option.map_some,
        Option.filter_some, hunfit]
      rfl

theorem toOption_signed {sign : Nat → Int} {p : Nat → Prop} [DecidablePred p]
    (hp : ∀ n, fitsSigned (sign n) = decide (p n)) (x : Except NumeralError Nat) :
    (x.bind fun n => if p n then .ok (sign n) else .error .outOfRange).toOption =
      (x.toOption.map sign).filter fitsSigned := by
  cases x with
  | error e => rfl
  | ok n =>
    show (if p n then Except.ok (sign n) else .error NumeralError.outOfRange).toOption =
      (some (sign n)).filter fitsSigned
    rw [Option.filter_some, hp]
    by_cases hn : p n
    · rw [if_pos hn, if_pos (decide_eq_true hn)]
      rfl
    · rw [if_neg hn, if_neg (by simpa using hn)]
      rfl

theorem positive_eq (h : IsUnsigned ds) : (numeral.positive ds).toOption =
    ((unsignedReading ds).map fun n : Nat => (n : Int)).filter fitsSigned := by
  rw [← filter_signed (fun n => .inl rfl), ← unsignedNumeral_eq h]
  refine toOption_signed (p := fun n => n < signedLimit) (fun n => ?_) _
  rw [fitsSigned, signedLimit, ← Bool.decide_and, decide_eq_decide]
  omega

theorem negative_eq (h : IsUnsigned ds) : (numeral ('-' :: ds)).toOption =
    ((unsignedReading ds).map fun n : Nat => -(n : Int)).filter fitsSigned := by
  rw [← filter_signed (fun n => .inr rfl), ← unsignedNumeral_eq h]
  refine toOption_signed (p := fun n => n ≤ signedLimit) (fun n => ?_) _
  rw [fitsSigned, signedLimit, ← Bool.decide_and, decide_eq_decide]
  omega

theorem numeral_eq (h : IsInteger cs) : (numeral cs).toOption =
    (if zeroPadded cs then literalOctal? cs else some (literalMeaning cs)).filter fitsSigned := by
  cases h with
  | @negative ds h =>
    rw [negative_eq h, zeroPadded, literalOctal?, literalMeaning, unsignedReading]
    split <;> rfl
  | unsigned h =>
    have hminus : ∀ ds, cs ≠ '-' :: ds := by
      rintro ds rfl
      exact absurd h.isDigit (by decide)
    have hplus : ∀ ds, cs ≠ '+' :: ds := by
      rintro ds rfl
      exact absurd h.isDigit (by decide)
    rw [numeral.eq_3 cs (fun ds => hminus ds) fun ds => hplus ds, positive_eq h,
      zeroPadded.eq_2 cs hminus, literalOctal?.eq_2 cs hminus, literalMeaning.eq_2 cs hminus,
      unsignedReading]
    split <;> rfl

end

end Text

namespace Lowering

open DefFlow.Flow Syntax Text

/-- The state after the report that a literal is no number of 64 bits. -/
def State.unfit (s : State) (digits : String) (p : Position) : State :=
  { s with diagnostics := s.diagnostics ++ [.invalidInstruction
      s!"integer literal {digits} does not fit in 64 bits" (.ofPosition s.file p)] }

section

variable {o : Syntax.Operand} {digits : String} {t : ValueType} {s : State}

theorem operand_of_number {n : Int} (ho : o.value = .integer digits)
    (h : readInteger digits = some n) : operand t o s = .ok (some (.constant ⟨n, t⟩), s) := by
  rw [operand, bind_eq (locate_eq _ _), ho]
  dsimp only
  rw [h]
  rfl

theorem operand_of_no_number (ho : o.value = .integer digits) (h : readInteger digits = none) :
    operand t o s = .ok (none, s.unfit digits o.start) := by
  rw [operand, bind_eq (locate_eq _ _), ho]
  dsimp only
  rw [h]
  rfl

theorem readInteger_eq {cs : List Char} (h : IsInteger cs) : readInteger (String.ofList cs) =
    (if zeroPadded cs then literalOctal? cs else some (literalMeaning cs)).filter fitsSigned := by
  rw [readInteger, String.toList_ofList, numeral_eq h]

/-- A literal becomes the constant that it denotes if this fits in 64 bits, and is reported if it
does not, unless a zero stands in front of other decimal digits. Such digits are read as octal. -/
theorem integer_literals_read {c : Char} {r : List Char} {n : Nat}
    (h : Lexeme.classify c r = some (.integer, n))
    (ho : o.value = .integer (String.ofList (c :: r.take n))) (t : ValueType) (s : State) :
    (zeroPadded (c :: r.take n) = false →
      (fitsSigned (literalMeaning (c :: r.take n)) = true →
        operand t o s = .ok (some (.constant ⟨literalMeaning (c :: r.take n), t⟩), s)) ∧
      (fitsSigned (literalMeaning (c :: r.take n)) = false →
        operand t o s = .ok (none, s.unfit (String.ofList (c :: r.take n)) o.start))) ∧
    (zeroPadded (c :: r.take n) = true →
      (∀ v, literalOctal? (c :: r.take n) = some v → fitsSigned v = true →
        operand t o s = .ok (some (.constant ⟨v, t⟩), s)) ∧
      ((∀ v, literalOctal? (c :: r.take n) = some v → fitsSigned v = false) →
        operand t o s = .ok (none, s.unfit (String.ofList (c :: r.take n)) o.start))) := by
  have hread := readInteger_eq (Lexeme.isInteger_of_classify h)
  constructor
  · intro hpad
    rw [hpad, if_neg Bool.false_ne_true, Option.filter_some] at hread
    constructor
    · intro hfits
      exact operand_of_number ho (hread.trans (if_pos hfits))
    · intro hfits
      exact operand_of_no_number ho (hread.trans (if_neg (by simp [hfits])))
  · intro hpad
    rw [hpad, if_pos rfl] at hread
    constructor
    · intro v hv hfits
      refine operand_of_number ho (hread.trans ?_)
      rw [hv, Option.filter_some, if_pos hfits]
    · intro hunfit
      refine operand_of_no_number ho (hread.trans ?_)
      cases hv : literalOctal? (c :: r.take n) with
      | none => rfl
      | some v => rw [Option.filter_some, if_neg (by simp [hunfit v hv])]

/-- With a zero in front, ten is read as eight. -/
theorem integer_literals_read_padded_ten :
    Lexeme.classify '0' ['1', '0', ';'] = some (.integer, 2) ∧
    literalMeaning ['0', '1', '0'] = 10 ∧
    ∀ s : State, operand (.int 64) ⟨.start, .start, .integer "010"⟩ s =
      .ok (some (.constant ⟨8, .int 64⟩), s) := by
  have hclass : Lexeme.classify '0' ['1', '0', ';'] = some (.integer, 2) := by decide
  refine ⟨hclass, by decide, fun s => ?_⟩
  obtain ⟨hoctal, -⟩ := (integer_literals_read hclass (o := ⟨.start, .start, .integer "010"⟩) rfl
    (.int 64) s).2 (by decide)
  exact hoctal 8 (by decide) (by decide)

/-- With an eight behind the zero nothing is read. -/
example : literalMeaning "08".toList = 8 ∧ readInteger "08" = none := by decide

end

end Lowering

end DefFlow
