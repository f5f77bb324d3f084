import DefFlow.Proofs.Syntax.Recovery
import DefFlow.Proofs.Syntax.Yield

/-!
# Version headers

Main statement: a version is laid out as a header that is scanned as the same version, unless it has
a double quote in it. The quote is written behind a backslash, where the scanner ends the quoted
text all the same, and no text can be read that ends with a backslash.
-/

set_option autoImplicit false

namespace DefFlow

namespace Text

theorem unquoteWithin_dangling (cs : List Char) (fuel : Nat) :
    unquoteWithin fuel (cs.flatMap escape ++ ['\\']) = none := by
  induction cs generalizing fuel with
  | nil => cases fuel <;> rfl
  | cons c cs ih =>
    have hread := readQuotedChar_escape c (cs.flatMap escape ++ ['\\'])
    rw [List.flatMap_cons, List.append_assoc]
    cases hl : escape c ++ (cs.flatMap escape ++ ['\\']) with
    | nil =>
      rw [hl] at hread
      cases hread
    | cons d ds =>
      rw [hl] at hread
      cases fuel with
      | zero => rfl
      | succ fuel =>
        rw [unquoteWithin, hread]
        · dsimp only
          rw [ih fuel, Option.map_none]
        · intro h
          cases h

end Text

namespace Syntax

/-! ## What follows a line end -/

namespace Lexeme

variable {c : Char} {r rest : List Char} {n : Nat} {p : Char → Bool}

theorem run_le (p : Char → Bool) (r : List Char) : run p r ≤ r.length :=
  (List.takeWhile_sublist p).length_le

/-- What follows a character that does not belong to a run does not either. -/
theorem run_append_of_mem {d : Char} (hd : d ∈ r) (hp : p d = false) (rest : List Char) :
    run p (r ++ rest) = run p r ∧ run p r < r.length := by
  induction r with
  | nil => cases hd
  | cons e r ih =>
    rw [run, run, List.cons_append]
    by_cases he : p e = true
    · have hmem : d ∈ r := by
        rcases List.mem_cons.mp hd with rfl | hd
        · rw [hp] at he
          cases he
        · exact hd
      obtain ⟨h₁, h₂⟩ := ih hmem
      rw [List.takeWhile_cons_of_pos he, List.takeWhile_cons_of_pos he]
      exact ⟨congrArg (· + 1) h₁, Nat.succ_lt_succ h₂⟩
    · rw [List.takeWhile_cons_of_neg he, List.takeWhile_cons_of_neg he]
      exact ⟨rfl, Nat.succ_pos _⟩

theorem unsigned_append_of_line {cs : List Char} (h : '\n' ∈ cs) (rest : List Char) :
    unsigned (cs ++ rest) = unsigned cs := by
  fun_cases unsigned cs with
  | case1 r hr =>
    have hmem : '\n' ∈ r := by simpa using h
    have hrun := (run_append_of_mem hmem (p := isHexDigit) rfl rest).1
    show (if run isHexDigit (r ++ rest) = 0 then 1 else 2 + run isHexDigit (r ++ rest)) = 1
    rw [hrun, if_pos hr]
  | case2 r hr =>
    have hmem : '\n' ∈ r := by simpa using h
    have hrun := (run_append_of_mem hmem (p := isHexDigit) rfl rest).1
    show (if run isHexDigit (r ++ rest) = 0 then 1 else 2 + run isHexDigit (r ++ rest)) = _
    rw [hrun, if_neg hr]
  | case3 =>
    rename_i hcs
    rw [unsigned.eq_2 _ fun t ht => ?_]
    · exact (run_append_of_mem h rfl rest).1
    · -- The two first characters are those of the line.
      rcases cs with _ | ⟨c, _ | ⟨d, cs⟩⟩
      · cases h
      · obtain rfl := List.mem_singleton.mp h
        cases ht
      · obtain ⟨hc, htail⟩ := List.cons.inj ht
        obtain ⟨hd, -⟩ := List.cons.inj htail
        exact hcs cs (by rw [hc, hd])

theorem unsigned_le (cs : List Char) : unsigned cs ≤ cs.length := by
  fun_cases unsigned cs with
  | case1 r hr => simp
  | case2 r hr =>
    have := run_le isHexDigit r
    simp only [List.length_cons]
    omega
  | case3 => exact run_le isDigit cs

theorem classify_cases {kind : TokenKind} (h : classify c r = some (kind, n)) :
    comment? c r = some n ∨ string? c r = some n ∨ arrow? c r = some n ∨ integer? c r = some n ∨
      ident? c r = some n ∨ punctuation? c = some n ∨ blank? c r = some n := by
  simp only [classify, Option.orElse_eq_orElse, Option.orElse_eq_or, Option.or_eq_some_iff,
    Option.map_eq_some_iff, Prod.mk.injEq] at h
  rcases h with ⟨_, h, -, rfl⟩ | ⟨-, ⟨_, h, -, rfl⟩ | ⟨-, ⟨_, h, -, rfl⟩ | ⟨-, ⟨_, h, -, rfl⟩ |
    ⟨-, ⟨_, h, -, rfl⟩ | ⟨-, ⟨_, h, -, rfl⟩ | ⟨-, _, h, -, rfl⟩⟩⟩⟩⟩⟩
  all_goals simp only [h, true_or, or_true]

theorem classify_le {kind : TokenKind} (h : classify c r = some (kind, n)) : n ≤ r.length := by
  rcases classify_cases h with h | h | h | h | h | h | h
  · cases r with
    | nil => cases h
    | cons d r =>
      rw [comment?, Option.ite_none_right_eq_some, Option.some.injEq] at h
      have := run_le (· ≠ '\n') r
      rw [List.length_cons]
      omega
  · rw [string?, Option.ite_none_right_eq_some, Option.some.injEq, Bool.and_eq_true,
      decide_eq_true_eq] at h
    obtain ⟨⟨-, hhead⟩, rfl⟩ := h
    by_contra hlt
    rw [List.drop_eq_nil_of_le (by omega)] at hhead
    cases hhead
  · rw [arrow?, Option.ite_none_right_eq_some, Option.some.injEq, Bool.and_eq_true,
      decide_eq_true_eq, decide_eq_true_eq] at h
    obtain ⟨⟨-, hhead⟩, rfl⟩ := h
    exact List.length_pos_iff.mpr fun hnil => by rw [hnil] at hhead; cases hhead
  · have h₁ := unsigned_le r
    have h₂ := unsigned_le (c :: r)
    rw [integer?] at h
    split at h
    · split at h
      · cases h
      · cases h
        exact h₁
    · split at h
      · cases h
      · cases h
        rw [List.length_cons] at h₂
        omega
  · rw [ident?, Option.ite_none_right_eq_some, Option.some.injEq] at h
    exact h.2 ▸ run_le _ r
  · rw [punctuation?, Option.ite_none_right_eq_some, Option.some.injEq] at h
    exact h.2 ▸ Nat.zero_le _
  · rw [blank?, Option.ite_none_right_eq_some, Option.some.injEq] at h
    exact h.2 ▸ run_le _ r

/-- The first token of a line does not depend on what follows the line, unless it is white space
that goes on there. -/
theorem classify_append (h : '\n' ∈ c :: r) (hrest : ∀ d ∈ rest.head?, isBlank d = false) :
    classify c (r ++ rest) = classify c r := by
  have hblank : run isBlank (r ++ rest) = run isBlank r := by
    by_cases hall : ∀ d ∈ r, isBlank d = true
    · have hself : run isBlank (r ++ []) = r.length := run_append hall fun d hd => by cases hd
      rw [List.append_nil] at hself
      rw [run_append hall hrest, hself]
    · simp only [not_forall] at hall
      obtain ⟨d, hd, hp⟩ := hall
      exact (run_append_of_mem hd (by simpa using hp) rest).1
  rcases List.mem_cons.mp h with rfl | h
  · rw [classify_blank rfl, classify_blank rfl, hblank]
  · have hcomment : comment? c (r ++ rest) = comment? c r := by
      cases r with
      | nil => cases h
      | cons d r =>
        rw [List.cons_append, comment?, comment?]
        split
        · next hslash =>
          have hmem : '\n' ∈ r := by
            rw [Bool.and_eq_true, decide_eq_true_eq, decide_eq_true_eq] at hslash
            exact (List.mem_cons.mp h).resolve_left fun he => by
              rw [← he] at hslash
              exact absurd hslash.2 (by decide)
          rw [(run_append_of_mem hmem rfl rest).1]
        · rfl
    have hstring : string? c (r ++ rest) = string? c r := by
      obtain ⟨hrun, hlt⟩ := run_append_of_mem (p := fun d => d ≠ '"' && d ≠ '\n') h rfl rest
      rw [string?, string?, hrun, List.drop_append_of_le_length (Nat.le_of_lt hlt),
        List.drop_eq_getElem_cons hlt]
      rfl
    have harrow : arrow? c (r ++ rest) = arrow? c r := by
      obtain ⟨d, r, rfl⟩ := List.exists_cons_of_ne_nil (List.ne_nil_of_mem h)
      rfl
    have hinteger : integer? c (r ++ rest) = integer? c r := by
      have hlater := unsigned_append_of_line (List.mem_cons_of_mem c h) rest
      rw [List.cons_append] at hlater
      rw [integer?, integer?, unsigned_append_of_line h, hlater]
    have hident : ident? c (r ++ rest) = ident? c r := by
      rw [ident?, ident?, (run_append_of_mem h rfl rest).1]
    have hspace : blank? c (r ++ rest) = blank? c r := by rw [blank?, blank?, hblank]
    rw [classify, hcomment, hstring, harrow, hinteger, hident, hspace, ← classify]

end Lexeme

/-- A text that is scanned goes on behind its first token. -/
theorem Scans.behind {c : Char} {r : List Char} {kind : TokenKind} {n : Nat} {ws : List Symbol}
    (h : Scans (c :: r) ws) (hclass : Lexeme.classify c r = some (kind, n)) :
    (tokenValue kind (c :: r.take n)).isSome ∧ ∃ us, Scans (r.drop n) us := by
  cases h with
  | blank hclass' h =>
    cases hclass.symm.trans hclass'
    exact ⟨rfl, _, h⟩
  | symbol hclass' _ hvalue h =>
    cases hclass.symm.trans hclass'
    exact ⟨by rw [hvalue]; rfl, _, h⟩

/-- What stands behind whole lines is scanned on its own. -/
theorem Scans.behind_lines {cs rest : List Char} {ws us : List Symbol} (h : Scans cs ws)
    (hline : cs = [] ∨ cs.getLast? = some '\n')
    (hrest : ∀ d ∈ rest.head?, Lexeme.isBlank d = false) (hall : Scans (cs ++ rest) us) :
    ∃ vs, Scans rest vs := by
  have step : ∀ {c r kind n} {us : List Symbol}, Lexeme.classify c r = some (kind, n) →
      (c :: r).getLast? = some '\n' → Scans (c :: r ++ rest) us →
      (r.drop n = [] ∨ (r.drop n).getLast? = some '\n') ∧ ∃ vs, Scans (r.drop n ++ rest) vs := by
    intro c r kind n us hclass hlast hscan
    have hmem : '\n' ∈ c :: r := List.mem_of_getLast? hlast
    rw [List.cons_append] at hscan
    have hbehind := (hscan.behind ((Lexeme.classify_append hmem hrest).trans hclass)).2
    rw [List.drop_append_of_le_length (Lexeme.classify_le hclass)] at hbehind
    refine ⟨?_, hbehind⟩
    by_cases hn : r.length ≤ n
    · exact .inl (List.drop_eq_nil_of_le hn)
    · obtain ⟨d, r, rfl⟩ := List.exists_cons_of_length_pos
        (Nat.lt_of_le_of_lt n.zero_le (Nat.not_le.mp hn))
      rw [List.getLast?_cons_cons] at hlast
      exact .inr (by rw [List.getLast?_drop, if_neg hn, hlast])
  induction h generalizing us with
  | nil => exact ⟨us, hall⟩
  | blank hclass h ih =>
    obtain ⟨hline', vs, hscan⟩ := step hclass (hline.resolve_left (List.cons_ne_nil _ _)) hall
    exact ih hline' hscan
  | symbol hclass _ _ h ih =>
    obtain ⟨hline', vs, hscan⟩ := step hclass (hline.resolve_left (List.cons_ne_nil _ _)) hall
    exact ih hline' hscan

/-! ## Headers -/

section

variable {value : String}

/-- Where a quoted text should have a double quote, the scanner ends it behind a backslash. -/
theorem not_scans_quoted (h : '"' ∈ value.toList) (rest : List Char) (ws : List Symbol) :
    ¬ Scans ((Text.quote value).toList ++ rest) ws := by
  intro hscan
  obtain ⟨front, back, hvalue, hfront⟩ := List.eq_append_cons_of_mem h
  have hplain : ∀ d ∈ front.flatMap Text.escape ++ ['\\'], d ≠ '"' ∧ d ≠ '\n' := by
    intro d hd
    rcases List.mem_append.mp hd with hd | hd
    · obtain ⟨c, hc, hd⟩ := List.mem_flatMap.mp hd
      exact Text.escape_plain (fun he => hfront (he ▸ hc)) d hd
    · rw [List.mem_singleton.mp hd]
      decide
  have htext : (Text.quote value).toList ++ rest = '"' :: ((front.flatMap Text.escape ++ ['\\']) ++
      '"' :: (back.flatMap Text.escape ++ '"' :: rest)) := by
    have hescape : Text.escape '"' = ['\\', '"'] := rfl
    rw [Text.quote, String.toList_ofList, Text.quoteChars, hvalue, List.flatMap_append,
      List.flatMap_cons, hescape]
    simp
  rw [htext] at hscan
  obtain ⟨hread, -⟩ := hscan.behind (Lexeme.classify_string hplain)
  rw [tokenValue, List.drop_one, List.tail_cons, List.take_append, List.take_of_length_le (by simp),
    Nat.add_sub_cancel_left, List.take_succ_cons, List.take_zero,
        List.dropLast_concat, Text.unquote,
    Text.unquoteWithin_dangling] at hread
  cases hread

theorem not_scans_header (h : '"' ∈ value.toList) (start : Position) (rest : List Char)
    (ws : List Symbol) : ¬ Scans ((Element.version start value).text.toList ++ rest) ws := by
  intro hscan
  rw [Element.text, String.toList_append, String.toList_append, List.append_assoc,
    List.append_assoc] at hscan
  have hword : "version ".toList = 'v' :: ("ersion".toList ++ [' ']) := rfl
  rw [hword, List.cons_append, List.append_assoc] at hscan
  have hclass := Lexeme.classify_ident (c := 'v') rfl
    ("ersion".toList ++ ([' '] ++ ((Text.quote value).toList ++ (";\n".toList ++ rest))))
  have hletters : ∀ d ∈ "ersion".toList, Lexeme.isIdentRest d = true := List.all_eq_true.mp rfl
  rw [Lexeme.run_append hletters fun d hd => by cases hd; rfl] at hclass
  obtain ⟨-, us, hspace⟩ := hscan.behind hclass
  rw [List.drop_left, List.singleton_append] at hspace
  have hquote : ∀ cs, Lexeme.run Lexeme.isBlank ((Text.quote value).toList ++ cs) = 0 := by
    intro cs
    rw [Text.quote, String.toList_ofList]
    rfl
  have hblank := Lexeme.classify_blank (c := ' ') rfl
    ((Text.quote value).toList ++ (";\n".toList ++ rest))
  rw [hquote] at hblank
  obtain ⟨-, vs, hheader⟩ := hspace.behind hblank
  exact not_scans_quoted h _ vs hheader

/-- A header is scanned as its version again just if this has no double quote. -/
theorem header_scans_iff (start : Position) (value : String) :
    Scans (Element.version start value).text.toList
      [keyword "version", (.string, value), mark ";"] ↔ '"' ∉ value.toList := by
  constructor
  · intro hscan hmem
    rw [← List.append_nil (Element.text _).toList] at hscan
    exact not_scans_header hmem start [] _ hscan
  · intro hplain
    have hscan := Element.spells (e := .version start value) hplain .nil
    rwa [List.append_nil] at hscan

end

/-! ## Files -/

def Element.quotes : Element → Bool
  | .version _ value => value.toList.contains '"'
  | _ => false

theorem Element.text_line (e : Element) : e.text.toList.getLast? = some '\n' := by
  cases e with
  | comment start text =>
    rw [Element.text, String.toList_append, List.getLast?_append]
    rfl
  | version start value =>
    rw [Element.text, String.toList_append, List.getLast?_append]
    rfl
  | function f =>
    rw [Element.text, Function.text, String.toList_append, List.getLast?_append]
    rfl

theorem Element.laterText_line (e : Element) : e.laterText.toList.getLast? = some '\n' := by
  cases e with
  | function f =>
    have hline := Element.text_line (.function f)
    rw [Element.text] at hline
    rw [Element.laterText, String.toList_append, List.getLast?_append, hline]
    rfl
  | _ => exact Element.text_line _

theorem join_line (es : List Element) : (String.join (es.map Element.laterText)).toList = [] ∨
    (String.join (es.map Element.laterText)).toList.getLast? = some '\n' := by
  induction es with
  | nil => exact .inl rfl
  | cons e es ih =>
    rw [List.map_cons, String.join_cons, String.toList_append, List.getLast?_append]
    refine .inr ?_
    rcases ih with hnil | hline
    · rw [hnil, Element.laterText_line]
      rfl
    · rw [hline]
      rfl

theorem File.text_line (file : File) :
    file.text.toList = [] ∨ file.text.toList.getLast? = some '\n' := by
  rw [File.text]
  cases file.elements with
  | nil => exact .inl rfl
  | cons e es =>
    dsimp only
    rw [String.toList_append, List.getLast?_append]
    refine .inr ?_
    rcases join_line es with hnil | hline
    · rw [hnil, Element.text_line]
      rfl
    · rw [hline]
      rfl

/-- The text of a file goes on behind some of its elements with the header of a version. -/
theorem File.text_split (start place : Position) (value : String) (front back : List Element) :
    File.text ⟨start, front ++ .version place value :: back⟩ = File.text ⟨start, front⟩ ++
      ((Element.version place value).text ++ String.join (back.map Element.laterText)) := by
  cases front with
  | nil => exact String.empty_append.symm
  | cons e front =>
    rw [File.text, File.text]
    dsimp only
    rw [List.cons_append]
    dsimp only
    rw [List.map_append, String.join_append, List.map_cons, String.join_cons, String.append_assoc]
    rfl

/-- The text of a file cannot be scanned behind the elements in front of a version with a double
quote. -/
theorem not_scans_text {start place : Position} {value : String} {front back : List Element}
    (hfront : ∀ e ∈ front, e.Writable) (h : '"' ∈ value.toList) (ws : List Symbol) :
    ¬ Scans (File.text ⟨start, front ++ .version place value :: back⟩).toList ws := by
  intro hscan
  rw [File.text_split, String.toList_append] at hscan
  have hwritable : File.Writable ⟨start, front⟩ := hfront
  obtain ⟨us, hheader⟩ := hwritable.scans.behind_lines (File.text_line _) (fun d hd => by
    rw [Element.text, String.toList_append, String.toList_append, String.toList_append] at hd
    cases hd
    rfl) hscan
  rw [String.toList_append] at hheader
  exact not_scans_header h place _ us hheader

/-- In front of the first version with a double quote, a file that was parsed is writable. -/
theorem exists_first_quoted {source : String} {file : File} (hparse : parse source = .ok file)
    (h : ∃ v ∈ file.versions, '"' ∈ v.2.toList) : ∃ front back place value,
      file.elements = front ++ .version place value :: back ∧ (∀ e ∈ front, e.Writable) ∧
      '"' ∈ value.toList := by
  have hquotes : ∀ place value, Element.quotes (.version place value) = true ↔
      '"' ∈ value.toList := fun place value => List.contains_iff_mem
  obtain ⟨⟨place, value⟩, hv, hquote⟩ := h
  obtain ⟨e, he, hev⟩ := List.mem_filterMap.mp hv
  have he' : e.quotes = true := by
    cases e with
    | version p s =>
      cases hev
      exact (hquotes _ _).mpr hquote
    | _ => cases hev
  cases hfind : file.elements.find? Element.quotes with
  | none => exact absurd he' (List.find?_eq_none.mp hfind e he)
  | some q =>
    obtain ⟨hq, front, back, hsplit, hfront⟩ := List.find?_eq_some_iff_append.mp hfind
    have hwritable : ∀ e ∈ front, e.Writable := by
      intro e he
      have hmem : e ∈ file.elements := hsplit ▸ List.mem_append_left _ he
      refine plain_of_parse hparse e hmem fun start value hv hquote => ?_
      have hnot := hfront e he
      rw [hv, (hquotes _ _).mpr hquote] at hnot
      cases hnot
    cases q with
    | version place value =>
      exact ⟨front, back, place, value, hsplit, hwritable, (hquotes _ _).mp hq⟩
    | _ => cases hq

/-- Every version is laid out as a header of three symbols that is scanned as the same version, and
the layout of a file that was parsed parses to the same versions and all else that
    the file has, unless
a version has a double quote: then neither the header nor the file can be read any more. -/
theorem versions_survive_unless_quoted (start : Position) (value : String) :
    (('"' ∉ value.toList → Scans (Element.version start value).text.toList
        [keyword "version", (.string, value), mark ";"]) ∧
      ('"' ∈ value.toList → ∀ ws, ¬ Scans (Element.version start value).text.toList ws)) ∧
    ∀ (source : String) (file : File), parse source = .ok file →
      ((∀ v ∈ file.versions, '"' ∉ v.2.toList) →
        ∃ again, parse file.text = .ok again ∧ again.bare = file.bare) ∧
      ((∃ v ∈ file.versions, '"' ∈ v.2.toList) → ∀ again, parse file.text ≠ .ok again) := by
  refine ⟨⟨(header_scans_iff start value).mpr, fun h ws hscan => ?_⟩,
    fun source file hparse => ⟨fun hplain => ?_, fun hquoted again hagain => ?_⟩⟩
  · rw [← List.append_nil (Element.text _).toList] at hscan
    exact not_scans_header h start [] ws hscan
  · exact (writable_of_parse hparse hplain).parse
  · obtain ⟨front, back, place, value, hsplit, hfront, hquote⟩ := exists_first_quoted hparse hquoted
    rw [parse] at hagain
    split at hagain
    · cases hagain
    · next s hscan =>
      have hscans := scans_of_scanFrom hscan
      obtain ⟨start, elements⟩ := file
      cases hsplit
      exact not_scans_text hfront hquote _ hscans

def quotedHeader : String := "version \"\\x22\";\n"

theorem quotedHeader_unreadable : ∃ file, parse quotedHeader = .ok file ∧
    file.versions.map Prod.snd = ["\""] ∧ ∀ again, parse file.text ≠ .ok again := by
  have hchecked : (match parse quotedHeader with
      | .ok file => decide (file.versions.map Prod.snd = ["\""])
      | .error _ => false) = true := by
    decide +kernel
  cases hparse : parse quotedHeader with
  | error e =>
    rw [hparse] at hchecked
    cases hchecked
  | ok file =>
    rw [hparse] at hchecked
    have hversions := of_decide_eq_true hchecked
    have hmem : "\"" ∈ file.versions.map Prod.snd := hversions ▸ List.mem_cons_self
    obtain ⟨v, hv, hquote⟩ := List.mem_map.mp hmem
    exact ⟨file, rfl, hversions, ((versions_survive_unless_quoted v.1 v.2).2 _ file hparse).2
      ⟨v, hv, by rw [hquote]; decide⟩⟩

end Syntax

end DefFlow
