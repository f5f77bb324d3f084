import DefFlow.Syntax.Token
import DefFlow.Proofs.Text.Quoting

/-!
# Symbols

A symbol is a token without its place. `Scans` says which symbols a text is cut into, and holds
exactly when the scanner succeeds with them. Names, numbers and comments keep their form when they
are scanned, and a text of that form is a single symbol again wherever its end shows.
-/

set_option autoImplicit false

namespace DefFlow.Syntax

abbrev Symbol := TokenKind × String

def Token.symbol (t : Token) : Symbol := (t.kind, t.value)

inductive Scans : List Char → List Symbol → Prop
  | nil : Scans [] []
  | blank {c : Char} {r : List Char} {n : Nat} {ws : List Symbol}
      (hclass : Lexeme.classify c r = some (.blank, n)) (h : Scans (r.drop n) ws) :
      Scans (c :: r) ws
  | symbol {c : Char} {r value : List Char} {kind : TokenKind} {n : Nat} {ws : List Symbol}
      (hclass : Lexeme.classify c r = some (kind, n)) (hkind : kind ≠ .blank)
      (hvalue : tokenValue kind (c :: r.take n) = some value) (h : Scans (r.drop n) ws) :
      Scans (c :: r) ((kind, String.ofList value) :: ws)

theorem Scans.scanFrom {cs : List Char} {ws : List Symbol} (h : Scans cs ws) (p : Position) :
    ∃ s, scanFrom p cs = .ok s ∧ s.tokens.map Token.symbol = ws := by
  induction h generalizing p with
  | nil => exact ⟨⟨[], p⟩, by rw [DefFlow.Syntax.scanFrom], rfl⟩
  | @blank c r n ws hclass _ ih =>
    obtain ⟨s, hs, hw⟩ := ih (p.advance (c :: r.take n))
    refine ⟨s, ?_, hw⟩
    rw [DefFlow.Syntax.scanFrom, hclass]
    simp only [tokenValue, hs, if_true]
  | @symbol c r value kind n ws hclass hkind hvalue _ ih =>
    obtain ⟨s, hs, hw⟩ := ih (p.advance (c :: r.take n))
    refine ⟨{ s with
      tokens := ⟨kind, String.ofList value, p, p.advance (c :: r.take n)⟩ :: s.tokens }, ?_, ?_⟩
    · rw [DefFlow.Syntax.scanFrom, hclass]
      simp only [hvalue, hs, if_neg hkind]
    · rw [List.map_cons, hw]
      rfl

theorem scans_of_scanFrom {p : Position} {cs : List Char} {s : Scanned}
    (h : scanFrom p cs = .ok s) : Scans cs (s.tokens.map Token.symbol) := by
  fun_induction scanFrom p cs generalizing s with
  | case1 p =>
    cases h
    exact .nil
  | case2 => cases h
  | case3 => cases h
  | case4 => cases h
  | case5 p c r n lexeme q value s' hs hclass _ =>
    rename_i ih
    cases h
    exact .blank hclass (ih hs)
  | case6 p c r kind n hclass lexeme q value hvalue s' hs hkind =>
    rename_i ih
    cases h
    exact .symbol hclass hkind hvalue (ih hs)

/-! ## The forms of symbols -/

def IsIdent : List Char → Prop
  | [] => False
  | c :: r => Lexeme.isIdentStart c ∧ ∀ d ∈ r, Lexeme.isIdentRest d

instance : DecidablePred IsIdent
  | [] => isFalse id
  | c :: r => decidable_of_iff ((Lexeme.isIdentStart c && r.all Lexeme.isIdentRest) = true) <| by
    rw [Bool.and_eq_true, List.all_eq_true, IsIdent]

inductive IsUnsigned : List Char → Prop
  | decimal {c : Char} {r : List Char} (h : ∀ d ∈ c :: r, Lexeme.isDigit d) : IsUnsigned (c :: r)
  | hexadecimal {c : Char} {r : List Char} (h : ∀ d ∈ c :: r, Lexeme.isHexDigit d) :
      IsUnsigned ('0' :: 'x' :: c :: r)

inductive IsInteger : List Char → Prop
  | unsigned {cs : List Char} (h : IsUnsigned cs) : IsInteger cs
  | negative {cs : List Char} (h : IsUnsigned cs) : IsInteger ('-' :: cs)

def IsComment : List Char → Prop
  | '/' :: '/' :: r => ∀ d ∈ r, d ≠ '\n'
  | _ => False

/-- Names, numbers and comments have the form of their class. -/
def Symbol.Sound : Symbol → Prop
  | (.ident, text) => IsIdent text.toList
  | (.integer, text) => IsInteger text.toList
  | (.comment, text) => IsComment text.toList
  | _ => True

def Ends (rest : List Char) : Prop := ∀ c ∈ rest.head?, Lexeme.isIdentRest c = false

theorem IsUnsigned.isDigit {c : Char} {r : List Char} (h : IsUnsigned (c :: r)) :
    Lexeme.isDigit c := by
  cases h with
  | decimal h => exact h c List.mem_cons_self
  | hexadecimal => decide

namespace Lexeme

variable {c : Char} {r rest : List Char} {p : Char → Bool}

theorem take_run : r.take (run p r) = r.takeWhile p := by
  induction r with
  | nil => rfl
  | cons d r ih =>
    rw [run] at ih ⊢
    by_cases hd : p d
    · rw [List.takeWhile_cons_of_pos hd, List.length_cons, List.take_succ_cons, ih]
    · rw [List.takeWhile_cons_of_neg hd]
      rfl

theorem run_append (hr : ∀ d ∈ r, p d) (hrest : ∀ d ∈ rest.head?, p d = false) :
    run p (r ++ rest) = r.length := by
  rw [run, List.takeWhile_append_of_pos hr]
  cases rest with
  | nil => simp
  | cons d rest =>
    rw [List.takeWhile_cons_of_neg (by simpa using hrest d rfl), List.append_nil]

theorem isIdentRest_of_isHexDigit (h : isHexDigit c) : isIdentRest c := by
  simp only [isHexDigit, isIdentRest, isIdentStart, Bool.or_eq_true, Bool.and_eq_true,
    decide_eq_true_eq] at h ⊢
  rcases h with (h | h) | h
  · exact .inl (.inr h)
  · exact .inl (.inl (.inl (.inl ⟨h.1, Char.le_trans h.2 (by decide)⟩)))
  · exact .inl (.inl (.inl (.inr ⟨h.1, Char.le_trans h.2 (by decide)⟩)))

theorem isHexDigit_of_isDigit (h : isDigit c) : isHexDigit c := by
  rw [isHexDigit, h]
  rfl

/-! ### Numbers -/

theorem unsigned_append {cs : List Char} (h : IsUnsigned cs) (hrest : Ends rest) :
    unsigned (cs ++ rest) = cs.length := by
  have hhex : ∀ d ∈ rest.head?, isHexDigit d = false := fun d hd =>
    Bool.eq_false_iff.mpr fun h => Bool.eq_false_iff.mp (hrest d hd) (isIdentRest_of_isHexDigit h)
  cases h with
  | @decimal c r h =>
    rw [unsigned, run_append h]
    · exact fun d hd => Bool.eq_false_iff.mpr fun h =>
        Bool.eq_false_iff.mp (hhex d hd) (isHexDigit_of_isDigit h)
    · rintro t ht
      cases r with
      | nil =>
        obtain ⟨-, rfl⟩ := List.cons.inj ht
        exact absurd (hrest 'x' rfl) (by decide)
      | cons d r =>
        obtain ⟨-, ht⟩ := List.cons.inj ht
        obtain ⟨rfl, -⟩ := List.cons.inj ht
        exact absurd (h 'x' (by simp)) (by decide)
  | @hexadecimal c r h =>
    have hrun := run_append h hhex
    show (if run isHexDigit (c :: r ++ rest) = 0 then 1
      else 2 + run isHexDigit (c :: r ++ rest)) = _
    rw [hrun, if_neg (by simp)]
    simp only [List.length_cons]
    omega

theorem isUnsigned_take {cs : List Char} (h : unsigned cs ≠ 0) :
    IsUnsigned (cs.take (unsigned cs)) := by
  fun_cases unsigned cs with
  | case1 r _ => exact .decimal (List.forall_mem_singleton.mpr (by decide))
  | case2 r hr =>
    rw [Nat.add_comm, List.take_succ_cons, List.take_succ_cons, take_run]
    cases hw : r.takeWhile isHexDigit with
    | nil => exact absurd (congrArg List.length hw) hr
    | cons d ds => exact .hexadecimal (hw ▸ List.all_eq_true.mp List.all_takeWhile)
  | case3 =>
    rename_i hcs
    rw [unsigned.eq_2 cs hcs] at h
    rw [take_run]
    cases hw : cs.takeWhile isDigit with
    | nil => exact absurd (congrArg List.length hw) h
    | cons d ds => exact .decimal (hw ▸ List.all_eq_true.mp List.all_takeWhile)

/-! ### Classes -/

theorem classify_plain (hslash : c ≠ '/') (hquote : c ≠ '"') (hminus : c ≠ '-')
    (hdigit : isDigit c = false) (r : List Char) :
    classify c r = ((ident? c r).map (TokenKind.ident, ·)
      <|> (punctuation? c).map (TokenKind.punctuation, ·)
      <|> (blank? c r).map (TokenKind.blank, ·)) := by
  have hcomment : comment? c r = none := by
    cases r <;> simp [comment?, hslash]
  have hstring : string? c r = none := by simp [string?, hquote]
  have harrow : arrow? c r = none := by simp [arrow?, hminus]
  have hinteger : integer? c r = none := by
    rw [integer?, if_neg hminus, if_pos]
    rw [unsigned, run, List.takeWhile_cons_of_neg (by simp [hdigit])]
    · rfl
    · rintro t ht
      obtain ⟨rfl, -⟩ := List.cons.inj ht
      exact absurd hdigit (by decide)
  simp only [classify, hcomment, hstring, harrow, hinteger, Option.map_none]
  rfl

theorem isIdentStart_plain (h : isIdentStart c) :
    c ≠ '/' ∧ c ≠ '"' ∧ c ≠ '-' ∧ isDigit c = false := by
  refine ⟨?_, ?_, ?_, Bool.eq_false_iff.mpr fun hd => ?_⟩
  any_goals
    rintro rfl
    exact absurd h (by decide)
  simp only [isDigit, isIdentStart, Bool.or_eq_true, Bool.and_eq_true, decide_eq_true_eq] at h hd
  rcases h with (h | h) | rfl
  · exact absurd (Char.le_trans h.1 hd.2) (by decide)
  · exact absurd (Char.le_trans h.1 hd.2) (by decide)
  · exact absurd hd.2 (by decide)

theorem classify_ident (h : isIdentStart c) (r : List Char) :
    classify c r = some (.ident, run isIdentRest r) := by
  obtain ⟨hslash, hquote, hminus, hdigit⟩ := isIdentStart_plain h
  rw [classify_plain hslash hquote hminus hdigit, ident?, if_pos h]
  rfl

theorem classify_punctuation (h : isPunctuation c) (r : List Char) :
    classify c r = some (.punctuation, 0) := by
  have hplain : c ≠ '/' ∧ c ≠ '"' ∧ c ≠ '-' ∧ isDigit c = false ∧ isIdentStart c = false := by
    simp only [isPunctuation, Bool.or_eq_true, decide_eq_true_eq] at h
    rcases h with ((((((rfl | rfl) | rfl) | rfl) | rfl) | rfl) | rfl) | rfl <;> decide
  obtain ⟨hslash, hquote, hminus, hdigit, hident⟩ := hplain
  rw [classify_plain hslash hquote hminus hdigit, ident?,
    if_neg (by simp [hident]), punctuation?, if_pos h]
  rfl

theorem classify_blank (h : isBlank c) (r : List Char) :
    classify c r = some (.blank, run isBlank r) := by
  have hplain : c ≠ '/' ∧ c ≠ '"' ∧ c ≠ '-' ∧ isDigit c = false ∧ isIdentStart c = false ∧
      isPunctuation c = false := by
    simp only [isBlank, Bool.or_eq_true, decide_eq_true_eq] at h
    rcases h with ((rfl | rfl) | rfl) | rfl <;> decide
  obtain ⟨hslash, hquote, hminus, hdigit, hident, hpunctuation⟩ := hplain
  rw [classify_plain hslash hquote hminus hdigit, ident?, if_neg (by simp [hident]), punctuation?,
    if_neg (by simp [hpunctuation]), blank?, if_pos h]
  rfl

theorem integer?_append {cs : List Char} (h : IsInteger (c :: cs)) (hrest : Ends rest) :
    integer? c (cs ++ rest) = some cs.length := by
  cases h with
  | unsigned h =>
    have hminus : c ≠ '-' := by
      rintro rfl
      exact absurd h.isDigit (by decide)
    have hlength := unsigned_append h hrest
    rw [List.cons_append] at hlength
    rw [integer?, if_neg hminus, hlength, if_neg (by simp)]
    rfl
  | negative h =>
    have hne : cs.length ≠ 0 := by
      cases h <;> simp
    rw [integer?, if_pos rfl, unsigned_append h hrest, if_neg hne]

theorem classify_integer {cs : List Char} (h : IsInteger (c :: cs)) (hrest : Ends rest) :
    classify c (cs ++ rest) = some (.integer, cs.length) := by
  have hne : ∀ d, isDigit d = false → d ≠ '-' → c ≠ d := by
    rintro d hd hminus rfl
    cases h with
    | unsigned h => exact absurd h.isDigit (by simp [hd])
    | negative h => exact hminus rfl
  have hcomment : comment? c (cs ++ rest) = none := by
    cases cs ++ rest <;> simp [comment?, hne '/' (by decide) (by decide)]
  have hstring : string? c (cs ++ rest) = none := by
    simp [string?, hne '"' (by decide) (by decide)]
  have harrow : arrow? c (cs ++ rest) = none := by
    rw [arrow?, if_neg]
    rw [Bool.and_eq_true, decide_eq_true_eq, decide_eq_true_eq]
    rintro ⟨rfl, hhead⟩
    cases h with
    | unsigned h => exact absurd h.isDigit (by decide)
    | negative h =>
      cases cs with
      | nil => cases h
      | cons d cs =>
        obtain rfl : d = '>' := by simpa using hhead
        exact absurd h.isDigit (by decide)
  rw [classify, hcomment, hstring, harrow, integer?_append h hrest]
  rfl

theorem classify_comment {r : List Char} (h : ∀ d ∈ r, d ≠ '\n')
    (hrest : ∀ d ∈ rest.head?, d = '\n') :
    classify '/' ('/' :: r ++ rest) = some (.comment, r.length + 1) := by
  have hrun : run (· ≠ '\n') (r ++ rest) = r.length :=
    run_append (by simpa using h) (by simpa using hrest)
  have hcomment : comment? '/' ('/' :: r ++ rest) = some (r.length + 1) := by
    rw [List.cons_append, comment?, if_pos (by decide), hrun, Nat.add_comm]
  rw [classify, hcomment]
  rfl

theorem classify_string {r : List Char} (h : ∀ d ∈ r, d ≠ '"' ∧ d ≠ '\n') :
    classify '"' (r ++ '"' :: rest) = some (.string, r.length + 1) := by
  have hrun : run (fun d => d ≠ '"' && d ≠ '\n') (r ++ '"' :: rest) = r.length :=
    run_append (by simpa using h) (by simp)
  have hcomment : comment? '"' (r ++ '"' :: rest) = none := by
    cases r <;> rfl
  have hstring : string? '"' (r ++ '"' :: rest) = some (r.length + 1) := by
    rw [string?, hrun, if_pos (by simp)]
  rw [classify, hcomment, hstring]
  rfl

theorem classify_arrow : classify '-' ('>' :: rest) = some (.arrow, 1) := rfl

end Lexeme

/-! ## Scanned symbols are sound -/

namespace Lexeme

variable {c : Char} {r : List Char} {n : Nat}

theorem isIdent_of_classify (h : classify c r = some (.ident, n)) : IsIdent (c :: r.take n) := by
  have hident : ident? c r = some n := by simp_all [classify, Option.or_eq_some_iff]
  rw [ident?] at hident
  split at hident
  · next hc =>
    cases hident
    rw [take_run]
    exact ⟨hc, List.all_eq_true.mp List.all_takeWhile⟩
  · cases hident

theorem isInteger_of_classify (h : classify c r = some (.integer, n)) :
    IsInteger (c :: r.take n) := by
  have hinteger : integer? c r = some n := by simp_all [classify, Option.or_eq_some_iff]
  rw [integer?] at hinteger
  split at hinteger
  · next hc =>
    split at hinteger
    · cases hinteger
    · next hn =>
      cases hinteger
      exact hc ▸ .negative (isUnsigned_take hn)
  · split at hinteger
    · cases hinteger
    · next hn =>
      have htake := isUnsigned_take hn
      obtain ⟨m, hm⟩ := Nat.exists_eq_succ_of_ne_zero hn
      rw [hm] at hinteger htake
      cases hinteger
      exact .unsigned htake

theorem isComment_of_classify (h : classify c r = some (.comment, n)) :
    IsComment (c :: r.take n) := by
  have hcomment : comment? c r = some n := by simp_all [classify, Option.or_eq_some_iff]
  cases r with
  | nil => cases hcomment
  | cons d r =>
    rw [comment?] at hcomment
    split at hcomment
    · next hslash =>
      rw [Bool.and_eq_true, decide_eq_true_eq, decide_eq_true_eq] at hslash
      obtain ⟨rfl, rfl⟩ := hslash
      cases hcomment
      rw [Nat.add_comm, List.take_succ_cons, take_run]
      intro e he
      simpa using List.all_eq_true.mp List.all_takeWhile e he
    · cases hcomment

end Lexeme

theorem sound_of_classify {c : Char} {r value : List Char} {kind : TokenKind} {n : Nat}
    (hclass : Lexeme.classify c r = some (kind, n))
    (hvalue : tokenValue kind (c :: r.take n) = some value) :
    Symbol.Sound (kind, String.ofList value) := by
  cases kind with
  | ident =>
    cases hvalue
    rw [Symbol.Sound, String.toList_ofList]
    exact Lexeme.isIdent_of_classify hclass
  | integer =>
    cases hvalue
    rw [Symbol.Sound, String.toList_ofList]
    exact Lexeme.isInteger_of_classify hclass
  | comment =>
    cases hvalue
    rw [Symbol.Sound, String.toList_ofList]
    exact Lexeme.isComment_of_classify hclass
  | _ => trivial

theorem Scans.sound {cs : List Char} {ws : List Symbol} (h : Scans cs ws) : ∀ w ∈ ws, w.Sound := by
  induction h with
  | nil => nofun
  | blank _ _ ih => exact ih
  | symbol hclass _ hvalue _ ih =>
    exact List.forall_mem_cons.mpr ⟨sound_of_classify hclass hvalue, ih⟩

/-! ## Sound symbols are scanned -/

section

variable {rest : List Char} {ws : List Symbol}

/-- The symbols of a text that starts with a whole lexeme. -/
theorem Scans.lexeme {c : Char} {r value : List Char} {kind : TokenKind}
    (hclass : Lexeme.classify c (r ++ rest) = some (kind, r.length)) (hkind : kind ≠ .blank)
    (hvalue : tokenValue kind (c :: r) = some value) (h : Scans rest ws) :
    Scans (c :: r ++ rest) ((kind, String.ofList value) :: ws) := by
  rw [List.cons_append]
  refine .symbol hclass hkind ?_ ?_
  · rwa [List.take_left]
  · rwa [List.drop_left]

theorem Scans.ident {text : String} (htext : IsIdent text.toList) (hrest : Ends rest)
    (h : Scans rest ws) : Scans (text.toList ++ rest) ((.ident, text) :: ws) := by
  cases hcs : text.toList with
  | nil =>
    rw [hcs] at htext
    exact htext.elim
  | cons c r =>
    rw [hcs] at htext
    have hclass := Lexeme.classify_ident htext.1 (r ++ rest)
    rw [Lexeme.run_append htext.2 hrest] at hclass
    have hscan := Scans.lexeme hclass (by decide) rfl h
    rwa [← hcs, String.ofList_toList, hcs] at hscan

theorem Scans.integer {text : String} (htext : IsInteger text.toList) (hrest : Ends rest)
    (h : Scans rest ws) : Scans (text.toList ++ rest) ((.integer, text) :: ws) := by
  cases hcs : text.toList with
  | nil =>
    rw [hcs] at htext
    cases htext with
    | unsigned h => cases h
  | cons c r =>
    rw [hcs] at htext
    have hscan := Scans.lexeme (Lexeme.classify_integer htext hrest) (by decide) rfl h
    rwa [← hcs, String.ofList_toList, hcs] at hscan

theorem Scans.comment {text : String} (htext : IsComment text.toList)
    (hrest : ∀ d ∈ rest.head?, d = '\n') (h : Scans rest ws) :
    Scans (text.toList ++ rest) ((.comment, text) :: ws) := by
  unfold IsComment at htext
  split at htext
  · next r hcs =>
    have hscan := Scans.lexeme (Lexeme.classify_comment htext hrest) (by decide) rfl h
    rwa [← hcs, String.ofList_toList] at hscan
  · exact htext.elim

theorem Scans.punctuation {c : Char} (hc : Lexeme.isPunctuation c) (h : Scans rest ws) :
    Scans (c :: rest) ((.punctuation, String.ofList [c]) :: ws) :=
  Scans.lexeme (r := []) (Lexeme.classify_punctuation hc rest) (by decide) rfl h

theorem Scans.arrow (h : Scans rest ws) : Scans ('-' :: '>' :: rest) ((.arrow, "->") :: ws) :=
  Scans.lexeme (r := ['>']) Lexeme.classify_arrow (by decide) rfl h

theorem Scans.quoted {text : String} (htext : '"' ∉ text.toList) (h : Scans rest ws) :
    Scans ((Text.quote text).toList ++ rest) ((.string, text) :: ws) := by
  have hplain : ∀ d ∈ text.toList.flatMap Text.escape, d ≠ '"' ∧ d ≠ '\n' := by
    intro d hd
    obtain ⟨c, hc, hd⟩ := List.mem_flatMap.mp hd
    exact Text.escape_plain (fun he => htext (he ▸ hc)) d hd
  have hclass : Lexeme.classify '"' ((text.toList.flatMap Text.escape ++ ['"']) ++ rest) =
      some (.string, (text.toList.flatMap Text.escape ++ ['"']).length) := by
    rw [List.append_assoc, List.length_append]
    exact Lexeme.classify_string hplain
  have hvalue : tokenValue .string ('"' :: (text.toList.flatMap Text.escape ++ ['"'])) =
      some text.toList := by
    rw [tokenValue, List.drop_one, List.tail_cons, List.dropLast_concat, Text.unquote_escape]
  have hscan := Scans.lexeme hclass (by decide) hvalue h
  rw [String.ofList_toList] at hscan
  rwa [Text.quote, String.toList_ofList, Text.quoteChars]

theorem Scans.skip {c : Char} (hc : Lexeme.isBlank c) (h : Scans rest ws) :
    Scans (c :: rest) ws := by
  refine .blank (Lexeme.classify_blank hc rest) ?_
  cases rest with
  | nil => exact h
  | cons d r =>
    rw [Lexeme.run]
    by_cases hd : Lexeme.isBlank d
    · rw [List.takeWhile_cons_of_pos hd, List.length_cons, List.drop_succ_cons]
      cases h with
      | blank hclass h =>
        rw [Lexeme.classify_blank hd] at hclass
        cases hclass
        exact h
      | symbol hclass hkind _ h =>
        rw [Lexeme.classify_blank hd] at hclass
        cases hclass
        exact absurd rfl hkind
    · rwa [List.takeWhile_cons_of_neg hd]

end

end DefFlow.Syntax
