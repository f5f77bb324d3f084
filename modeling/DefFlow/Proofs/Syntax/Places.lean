import DefFlow.Proofs.Syntax.Symbols

/-!
# Places of tokens

Main statement: the tokens of a text stand one behind the other, each on one line, and its value is
no longer than the token; nothing follows a comment on its line.
-/

set_option autoImplicit false

namespace DefFlow

namespace Text

theorem length_le_of_unquoteWithin (fuel : Nat) {cs value : List Char}
    (h : unquoteWithin fuel cs = some value) : value.length ≤ fuel := by
  induction fuel generalizing cs value with
  | zero =>
    cases cs with
    | nil =>
      cases h
      exact Nat.le_refl 0
    | cons c cs => cases h
  | succ fuel ih =>
    cases cs with
    | nil =>
      cases h
      exact Nat.zero_le _
    | cons c cs =>
      rw [unquoteWithin] at h
      · split at h
        · cases h
        · next d r _ =>
          obtain ⟨rest, hrest, rfl⟩ := Option.map_eq_some_iff.mp h
          exact Nat.succ_le_succ (ih hrest)
      · intro h
        cases h

theorem length_le_of_unquote {cs value : List Char} (h : unquote cs = some value) :
    value.length ≤ cs.length :=
  length_le_of_unquoteWithin cs.length h

end Text

namespace Syntax

/-! ## Places -/

namespace Position

variable {p q r : Position} {c : Char} {cs ds : List Char}

def Leads (p q : Position) : Prop := p.line < q.line ∨ p.line = q.line ∧ p.column ≤ q.column

theorem Leads.refl (p : Position) : p.Leads p := .inr ⟨rfl, Nat.le_refl _⟩

theorem Leads.trans (h : p.Leads q) (h' : q.Leads r) : p.Leads r := by
  unfold Leads at *
  omega

theorem leads_next (p : Position) (c : Char) : p.Leads (p.next c) := by
  rw [next]
  split
  · exact .inl (Nat.lt_succ_self _)
  · exact .inr ⟨rfl, Nat.le_succ _⟩

theorem leads_advance (p : Position) (cs : List Char) : p.Leads (p.advance cs) := by
  induction cs generalizing p with
  | nil => exact .refl p
  | cons c cs ih => exact (p.leads_next c).trans (ih (p.next c))

theorem advance_append (p : Position) (cs ds : List Char) :
    p.advance (cs ++ ds) = (p.advance cs).advance ds :=
  List.foldl_append

theorem advance_within (p : Position) (h : ∀ c ∈ cs, c ≠ '\n') :
    (p.advance cs).line = p.line ∧ (p.advance cs).column = p.column + cs.length := by
  induction cs generalizing p with
  | nil => exact ⟨rfl, rfl⟩
  | cons c cs ih =>
    obtain ⟨hc, hcs⟩ := List.forall_mem_cons.mp h
    obtain ⟨hline, hcolumn⟩ := ih (p.next c) hcs
    have hnext : (p.next c).line = p.line ∧ (p.next c).column = p.column + 1 := by
      rw [next, if_neg hc]
      exact ⟨rfl, rfl⟩
    rw [advance, List.foldl_cons, ← advance, hline, hcolumn, hnext.1, hnext.2, List.length_cons,
      Nat.add_right_comm, Nat.add_assoc]
    exact ⟨rfl, rfl⟩

theorem advance_pos (hline : 0 < p.line) (hcolumn : 0 < p.column) (cs : List Char) :
    0 < (p.advance cs).line ∧ 0 < (p.advance cs).column := by
  induction cs generalizing p with
  | nil => exact ⟨hline, hcolumn⟩
  | cons c cs ih =>
    refine ih (p := p.next c) ?_ ?_ <;> rw [next] <;> split
    · exact Nat.succ_pos _
    · exact hline
    · exact Nat.one_pos
    · exact Nat.succ_pos _

theorem advance_le (p : Position) (cs : List Char) :
    (p.advance cs).line ≤ p.line + cs.length ∧
      (p.advance cs).column ≤ max p.column 1 + cs.length := by
  induction cs generalizing p with
  | nil => exact ⟨Nat.le_refl _, Nat.le_max_left _ _⟩
  | cons c cs ih =>
    obtain ⟨hline, hcolumn⟩ := ih (p.next c)
    have hnext : (p.next c).line ≤ p.line + 1 ∧ (p.next c).column ≤ max p.column 1 + 1 := by
      rw [next]
      split
      · exact ⟨Nat.le_refl _, Nat.le_add_left _ _⟩
      · exact ⟨Nat.le_succ _, Nat.succ_le_succ (Nat.le_max_left _ _)⟩
    rw [advance, List.foldl_cons, ← advance, List.length_cons]
    omega

end Position

/-! ## Tokens -/

structure Token.Placed (t : Token) : Prop where
  sound : t.symbol.Sound
  line : t.stop.line = t.start.line
  nonempty : t.start.column < t.stop.column
  width : t.start.column + t.value.length ≤ t.stop.column

def Token.Precedes (t u : Token) : Prop :=
  t.stop.Leads u.start ∧ (t.kind = .comment → t.start.line < u.start.line)

inductive Cuts : Position → List Char → List Token → Prop
  | nil (p : Position) : Cuts p [] []
  | blank {p : Position} {c : Char} {r : List Char} {n : Nat} {ts : List Token}
      (hclass : Lexeme.classify c r = some (.blank, n))
      (h : Cuts (p.advance (c :: r.take n)) (r.drop n) ts) : Cuts p (c :: r) ts
  | token {p : Position} {c : Char} {r value : List Char} {kind : TokenKind} {n : Nat}
      {ts : List Token} (hclass : Lexeme.classify c r = some (kind, n)) (hkind : kind ≠ .blank)
      (hvalue : tokenValue kind (c :: r.take n) = some value)
      (h : Cuts (p.advance (c :: r.take n)) (r.drop n) ts) :
      Cuts p (c :: r) (⟨kind, String.ofList value, p, p.advance (c :: r.take n)⟩ :: ts)

theorem cuts_of_scanFrom {p : Position} {cs : List Char} {s : Scanned}
    (h : scanFrom p cs = .ok s) : Cuts p cs s.tokens := by
  fun_induction scanFrom p cs generalizing s with
  | case1 p =>
    cases h
    exact .nil p
  | case2 => cases h
  | case3 => cases h
  | case4 => cases h
  | case5 p c r n lexeme q value s' hs hclass _ =>
    rename_i ih
    cases h
    exact .blank hclass (ih hs)
  | case6 p c r kind n hclass lexeme q value hvalue s' hs hkind =>
    rename_i ih
    cases h
    exact .token hclass hkind hvalue (ih hs)

/-! ## Lexemes -/

section

variable {cs : List Char}

theorem IsComment.line (h : IsComment cs) : '\n' ∉ cs := by
  unfold IsComment at h
  split at h
  · simpa using fun hmem => h _ hmem rfl
  · exact h.elim

theorem IsIdent.isIdentRest (h : IsIdent cs) : ∀ d ∈ cs, Lexeme.isIdentRest d := by
  cases cs with
  | nil => nofun
  | cons c r => exact List.forall_mem_cons.mpr ⟨by rw [Lexeme.isIdentRest, h.1]; rfl, h.2⟩

theorem IsUnsigned.isIdentRest (h : IsUnsigned cs) : ∀ d ∈ cs, Lexeme.isIdentRest d := by
  cases h with
  | decimal h => exact fun d hd =>
      Lexeme.isIdentRest_of_isHexDigit (Lexeme.isHexDigit_of_isDigit (h d hd))
  | hexadecimal h =>
    exact List.forall_mem_cons.mpr ⟨by decide, List.forall_mem_cons.mpr
      ⟨by decide, fun d hd => Lexeme.isIdentRest_of_isHexDigit (h d hd)⟩⟩

theorem IsInteger.isIdentRest (h : IsInteger cs) : ∀ d ∈ cs, d = '-' ∨ Lexeme.isIdentRest d := by
  cases h with
  | unsigned h => exact fun d hd => .inr (h.isIdentRest d hd)
  | negative h => exact List.forall_mem_cons.mpr ⟨.inl rfl, fun d hd => .inr (h.isIdentRest d hd)⟩

theorem IsIdent.line (h : IsIdent cs) : '\n' ∉ cs := fun hmem =>
  absurd (h.isIdentRest _ hmem) (by decide)

theorem IsInteger.line (h : IsInteger cs) : '\n' ∉ cs := fun hmem =>
  absurd (h.isIdentRest _ hmem) (by decide)

theorem utf8Size_of_isIdentRest {c : Char} (h : Lexeme.isIdentRest c) : c.utf8Size = 1 := by
  rw [Char.utf8Size_eq_one_iff]
  simp only [Lexeme.isIdentRest, Lexeme.isIdentStart, Lexeme.isDigit, Bool.or_eq_true,
    Bool.and_eq_true, decide_eq_true_eq] at h
  rcases h with ((((h | h) | rfl) | h) | rfl)
  · exact Char.le_trans h.2 (by decide : 'z' ≤ '\x7f')
  · exact Char.le_trans h.2 (by decide : 'Z' ≤ '\x7f')
  · decide
  · exact Char.le_trans h.2 (by decide : '9' ≤ '\x7f')
  · decide

theorem utf8ByteSize_of_forall (h : ∀ c ∈ cs, c.utf8Size = 1) :
    (String.ofList cs).utf8ByteSize = cs.length := by
  induction cs with
  | nil => rfl
  | cons c cs ih =>
    obtain ⟨hc, hcs⟩ := List.forall_mem_cons.mp h
    rw [String.ofList_cons, String.utf8ByteSize_append, ih hcs, String.utf8ByteSize_singleton, hc,
      List.length_cons, Nat.add_comm]

theorem IsIdent.utf8ByteSize {text : String} (h : IsIdent text.toList) :
    text.utf8ByteSize = text.length := by
  have hsize := utf8ByteSize_of_forall fun c hc => utf8Size_of_isIdentRest (h.isIdentRest c hc)
  rwa [String.ofList_toList, String.length_toList] at hsize

theorem IsInteger.utf8ByteSize {text : String} (h : IsInteger text.toList) :
    text.utf8ByteSize = text.length := by
  have hsize : (String.ofList text.toList).utf8ByteSize = text.toList.length := by
    refine utf8ByteSize_of_forall fun c hc => ?_
    rcases h.isIdentRest c hc with rfl | hc
    · decide
    · exact utf8Size_of_isIdentRest hc
  rwa [String.ofList_toList, String.length_toList] at hsize

end

namespace Lexeme

variable {c : Char} {r : List Char} {kind : TokenKind} {n : Nat}

theorem drop_run (p : Char → Bool) (r : List Char) : r.drop (run p r) = r.dropWhile p := by
  have hsplit := congrArg (List.drop (run p r)) (List.takeWhile_append_dropWhile (p := p) (l := r))
  rw [run, List.drop_left] at hsplit
  exact hsplit.symm

theorem line_of_string (h : string? c r = some n) : '\n' ∉ c :: r.take n := by
  rw [string?, Option.ite_none_right_eq_some, Option.some.injEq, Bool.and_eq_true,
    decide_eq_true_eq, decide_eq_true_eq] at h
  obtain ⟨⟨rfl, hhead⟩, rfl⟩ := h
  rw [List.head?_drop] at hhead
  rw [List.take_add_one, hhead, take_run, List.mem_cons, List.mem_append]
  rintro (hmem | hmem | hmem)
  · exact absurd hmem (by decide)
  · simpa using List.all_eq_true.mp List.all_takeWhile _ hmem
  · exact absurd hmem (by decide)

theorem line_of_arrow (h : arrow? c r = some n) : '\n' ∉ c :: r.take n := by
  rw [arrow?, Option.ite_none_right_eq_some, Option.some.injEq, Bool.and_eq_true,
    decide_eq_true_eq, decide_eq_true_eq] at h
  obtain ⟨⟨rfl, hhead⟩, rfl⟩ := h
  obtain ⟨r, rfl⟩ := List.head?_eq_some_iff.mp hhead
  exact by simp

theorem line_of_punctuation (h : punctuation? c = some n) : '\n' ∉ c :: r.take n := by
  rw [punctuation?, Option.ite_none_right_eq_some, Option.some.injEq] at h
  obtain ⟨hc, rfl⟩ := h
  intro hmem
  obtain rfl := List.mem_singleton.mp hmem
  exact absurd hc (by decide)

theorem line_of_classify (h : classify c r = some (kind, n)) (hkind : kind ≠ .blank) :
    '\n' ∉ c :: r.take n := by
  cases kind with
  | comment => exact (isComment_of_classify h).line
  | string => exact line_of_string (by simp_all [classify, Option.or_eq_some_iff])
  | arrow => exact line_of_arrow (by simp_all [classify, Option.or_eq_some_iff])
  | integer => exact (isInteger_of_classify h).line
  | ident => exact (isIdent_of_classify h).line
  | punctuation => exact line_of_punctuation (by simp_all [classify, Option.or_eq_some_iff])
  | blank => exact absurd rfl hkind
  | endOfInput => simp [classify, Option.or_eq_some_iff] at h

theorem head?_drop_comment (h : classify c r = some (.comment, n)) :
    ∀ d ∈ (r.drop n).head?, d = '\n' := by
  have hcomment : comment? c r = some n := by simp_all [classify, Option.or_eq_some_iff]
  cases r with
  | nil => cases hcomment
  | cons d r =>
    rw [comment?, Option.ite_none_right_eq_some, Option.some.injEq] at hcomment
    obtain ⟨-, rfl⟩ := hcomment
    intro e he
    have hstop := List.head?_dropWhile_not (fun d => decide (d ≠ '\n')) r
    rw [← drop_run, ← List.drop_succ_cons (a := d), Nat.add_comm, he] at hstop
    simpa using hstop

end Lexeme

/-! ## Scanned tokens -/

theorem length_le_of_tokenValue {kind : TokenKind} {lexeme value : List Char}
    (h : tokenValue kind lexeme = some value) : value.length ≤ lexeme.length := by
  unfold tokenValue at h
  split at h
  · have hle := Text.length_le_of_unquote h
    rw [List.length_dropLast, List.length_drop] at hle
    omega
  · cases h
    exact Nat.le_refl _

namespace Cuts

variable {p : Position} {cs : List Char} {ts : List Token}

theorem start (h : Cuts p cs ts) : ∀ t ∈ ts, ∃ n, t.start = p.advance (cs.take n) := by
  have later : ∀ {p c r n} {t : Token},
      (∃ m, t.start = (Position.advance p (c :: r.take n)).advance ((r.drop n).take m)) →
        ∃ m, t.start = p.advance ((c :: r).take m) := by
    rintro p c r n t ⟨m, hm⟩
    refine ⟨n + m + 1, ?_⟩
    rw [hm, ← Position.advance_append, List.take_succ_cons, List.take_add, List.cons_append]
  induction h with
  | nil => nofun
  | blank _ _ ih => exact fun t ht => later (ih t ht)
  | token _ _ _ _ ih =>
    exact List.forall_mem_cons.mpr ⟨⟨0, rfl⟩, fun t ht => later (ih t ht)⟩

theorem leads (h : Cuts p cs ts) : ∀ t ∈ ts, p.Leads t.start := by
  intro t ht
  obtain ⟨n, hn⟩ := h.start t ht
  exact hn ▸ p.leads_advance _

theorem placed (h : Cuts p cs ts) : ∀ t ∈ ts, t.Placed := by
  induction h with
  | nil => nofun
  | blank _ _ ih => exact ih
  | @token p c r value kind n ts hclass hkind hvalue _ ih =>
    refine List.forall_mem_cons.mpr ⟨?_, ih⟩
    have hline : ∀ d ∈ c :: r.take n, d ≠ '\n' := fun d hd he =>
      Lexeme.line_of_classify hclass hkind (he ▸ hd)
    obtain ⟨hsame, hcolumn⟩ := p.advance_within hline
    have hwidth := length_le_of_tokenValue hvalue
    refine ⟨sound_of_classify hclass hvalue, hsame, ?_, ?_⟩
    · rw [hcolumn]
      exact Nat.lt_add_of_pos_right (Nat.succ_pos _)
    · rw [hcolumn, String.length_ofList]
      exact Nat.add_le_add_left hwidth _

theorem later_line (h : Cuts p cs ts) (hcs : ∀ c ∈ cs.head?, c = '\n') :
    ∀ t ∈ ts, p.line < t.start.line := by
  have hblank : Lexeme.isBlank '\n' = true := rfl
  cases h with
  | nil => nofun
  | @blank _ c r n _ hclass h =>
    obtain rfl := hcs c rfl
    intro t ht
    have hnext : p.next '\n' = ⟨p.line + 1, 1, p.offset + 1⟩ := if_pos rfl
    have hleads := ((p.next '\n').leads_advance (r.take n)).trans (h.leads t ht)
    rw [hnext, Position.Leads] at hleads
    dsimp only at hleads
    omega
  | token hclass hkind =>
    obtain rfl := hcs _ rfl
    rw [Lexeme.classify_blank hblank] at hclass
    cases hclass
    exact absurd rfl hkind

theorem ordered (h : Cuts p cs ts) : ts.Pairwise Token.Precedes := by
  induction h with
  | nil => exact .nil
  | blank _ _ ih => exact ih
  | @token p c r value kind n ts hclass hkind _ h ih =>
    refine List.pairwise_cons.mpr ⟨fun t ht => ⟨h.leads t ht, ?_⟩, ih⟩
    rintro ⟨⟩
    have hline : ∀ d ∈ c :: r.take n, d ≠ '\n' := fun d hd he =>
      Lexeme.line_of_classify hclass hkind (he ▸ hd)
    have hlater := h.later_line (Lexeme.head?_drop_comment hclass) t ht
    rwa [(p.advance_within hline).1] at hlater

end Cuts

end Syntax
end DefFlow
