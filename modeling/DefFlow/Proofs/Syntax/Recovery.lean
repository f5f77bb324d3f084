import DefFlow.Syntax.Grammar
import DefFlow.Proofs.Syntax.Bare
import DefFlow.Proofs.Syntax.Reading
import DefFlow.Proofs.Syntax.Writing

/-!
# Written trees are read back

From the symbols of a writable tree the grammar reads the tree again, up to places. The alternatives
before the right one decline within the lookahead, even where a name is spelled like a keyword, and
an optional clause that a statement does not have is not found in what follows it either.
-/

set_option autoImplicit false

namespace DefFlow.Syntax

open Grammar

variable {rest us : List Symbol} {w v : Symbol}

/-! ## Items and lists of items -/

theorem reads_name (n : Name) : name.Reads [n.symbol] rest fun m => m.bare = n.bare :=
  Rule.reads_token.named fun _ _ _ h => by
    subst h
    rfl

theorem skips_name (hw : w.1 ≠ .ident) : name.Skips (w :: us) :=
  (Rule.skips_token hw).named

theorem reads_param (p : Param) : param.Reads p.symbols rest fun a => a.bare = p.bare := by
  refine ((reads_name p.name).followedBy (Remainder.reads_literal_then (by decide)
    (Remainder.reads_last (reads_name p.type)))).named ?_
  rintro start stop ⟨n, _, t, _⟩ ⟨hn, ht⟩
  simp only [Param.bare, hn, ht]

theorem IsIdent.ne {text other : String} {c : Char} {r : List Char} (h : IsIdent text.toList)
    (hother : other.toList = c :: r) (hc : Lexeme.isIdentStart c = false) : text ≠ other := by
  rintro rfl
  rw [hother] at h
  exact Bool.eq_false_iff.mp hc h.1

theorem IsInteger.ne {text other : String} {c : Char} {r : List Char} (h : IsInteger text.toList)
    (hother : other.toList = c :: r) (hc : c ≠ '-' ∧ Lexeme.isDigit c = false) : text ≠ other := by
  rintro rfl
  rw [hother] at h
  cases h with
  | unsigned h => exact Bool.eq_false_iff.mp hc.2 h.isDigit
  | negative => exact hc.1 rfl

theorem IsComment.ne {text other : String} {c : Char} {r : List Char} (h : IsComment text.toList)
    (hother : other.toList = c :: r) (hc : c ≠ '/') : text ≠ other := by
  rintro rfl
  rw [hother, IsComment] at h
  · exact h
  · rintro r' he
    exact hc (List.cons.inj he).1

theorem OperandValue.Writable.ne {value : OperandValue} {other : String} {c : Char}
    {r : List Char} (h : value.Writable) (hother : other.toList = c :: r)
    (hc : Lexeme.isIdentStart c = false ∧ c ≠ '-' ∧ Lexeme.isDigit c = false) :
    value.symbol.2 ≠ other := by
  cases value with
  | bool b =>
    cases b <;> exact IsIdent.ne (by decide) hother hc.1
  | integer digits => exact IsInteger.ne h hother hc.2
  | name text => exact h.1.ne hother hc.1

theorem reads_operand {o : Operand} (h : o.value.Writable) :
    operand.Reads o.symbols rest fun a => a.bare = o.bare := by
  have hnamed : ∀ value, value = o.value → ∀ start stop : Position,
      (⟨start, stop, value⟩ : Operand).bare = o.bare := by
    rintro value rfl start stop
    rfl
  have hbool : ∀ {v : Symbol}, v.2 ≠ "true" → v.2 ≠ "false" → boolOperand.Skips (v :: rest) := by
    intro v htrue hfalse
    exact Rule.skips_choice (List.forall_mem_cons.mpr ⟨(Rule.skips_literal htrue).map,
      List.forall_mem_singleton.mpr (Rule.skips_literal hfalse).map⟩)
  obtain ⟨start, stop, value⟩ := o
  refine (Rule.reads_choice ?_).named fun start stop value hvalue => hnamed value hvalue start stop
  cases value with
  | bool b =>
    refine Rule.choiceReads_here (Rule.reads_choice ?_)
    cases b with
    | true => exact Rule.choiceReads_here ((Rule.reads_literal (by decide)).map fun _ _ => rfl)
    | false =>
      exact Rule.choiceReads_later (.inl (Rule.skips_literal (show "false" ≠ "true" by decide)).map)
        (Rule.choiceReads_here ((Rule.reads_literal (by decide)).map fun _ _ => rfl))
  | integer digits =>
    refine Rule.choiceReads_later (.inl (hbool ?_ ?_)) (Rule.choiceReads_here
      (Rule.reads_token.map fun _ h => congrArg OperandValue.integer h))
    · exact IsInteger.ne h rfl (by decide)
    · exact IsInteger.ne h rfl (by decide)
  | name text =>
    exact Rule.choiceReads_later (.inl (hbool h.2.1 h.2.2)) (Rule.choiceReads_later
      (.inl (Rule.skips_token (show TokenKind.ident ≠ .integer by decide)).map)
      (Rule.choiceReads_here (Rule.reads_token.map fun _ h => congrArg OperandValue.name h)))

theorem skips_operand : operand.Skips (mark ";" :: rest) := by
  refine (Rule.skips_choice ?_).named
  simp only [List.forall_mem_cons, List.not_mem_nil, false_imp_iff, implies_true, and_true]
  refine ⟨Rule.skips_choice ?_, (Rule.skips_token (by decide)).map,
    (Rule.skips_token (by decide)).map⟩
  simp only [List.forall_mem_cons, List.not_mem_nil, false_imp_iff, implies_true, and_true]
  exact ⟨(Rule.skips_literal (by decide)).map, (Rule.skips_literal (by decide)).map⟩

section

variable {α β : Type} {p : Rule α} {symbols : α → List Symbol} {view : α → β}

theorem reads_separated {a : α} {l : List α}
    (h : ∀ b ∈ a :: l, ∀ rest, p.Reads (symbols b) rest fun x => view x = view b)
    (hw : w.2 ≠ ",") : p.separated.Reads (separatedSymbols symbols (a :: l)) (w :: rest)
      fun as => as.map view = (a :: l).map view := by
  obtain ⟨ha, hl⟩ := List.forall_mem_cons.mp h
  have hrepeats : ((Rule.literal ",").followedBy <| .andThen p .done).Repeats
      (l.flatMap fun b => mark "," :: symbols b) (w :: rest)
      fun as => (as.map fun x => view x.2.1) = l.map view := by
    clear h ha
    induction l with
    | nil => exact Rule.repeats_nil (.inl (Rule.skips_literal hw).followedBy) rfl
    | cons b l ih =>
      obtain ⟨hb, hl⟩ := List.forall_mem_cons.mp hl
      refine Rule.repeats_cons (Rule.reads_literal_then (by decide)
        (Remainder.reads_last (hb _))) (by simp) (ih hl) ?_
      intro x xs hx hxs
      rw [List.map_cons, hx, hxs, List.map_cons]
  refine ((ha _).followedBy (Remainder.reads_last (Rule.reads_many hrepeats))).map ?_
  rintro ⟨x, xs, _⟩ ⟨hx, hxs⟩
  rw [List.map_cons, hx, List.map_map, List.map_cons]
  exact congrArg _ hxs

/-- A list of items is read up to a symbol that does not start another item. -/
theorem reads_items {l : List α}
    (h : ∀ b ∈ l, ∀ rest, p.Reads (symbols b) rest fun x => view x = view b)
    (hw : w.2 ≠ ",") (hp : p.Skips (w :: rest)) :
    p.separated.optional.Reads (separatedSymbols symbols l) (w :: rest)
      fun as => (as.getD []).map view = l.map view := by
  intro c n hc
  cases l with
  | nil =>
    obtain ⟨o, b, hrun, rfl, hb⟩ := Rule.reads_optional_none (.inl hp.followedBy.map) hc
    exact ⟨none, b, hrun, rfl, hb⟩
  | cons a l =>
    obtain ⟨o, b, hrun, ⟨as, rfl, has⟩, hb⟩ := Rule.reads_optional (reads_separated h hw) hc
    exact ⟨some as, b, hrun, has, hb⟩

end

theorem reads_inst {i : Inst} (h : i.Writable) :
    inst.Reads i.symbols rest fun a => a.bare = i.bare := by
  refine ((reads_name i.op).followedBy (.andThen
    (reads_items (fun o ho _ => reads_operand (h.2 o ho)) (by decide) skips_operand)
    (Remainder.reads_last (Rule.reads_literal (by decide))))).named ?_
  rintro start stop ⟨op, os, _⟩ ⟨hop, hos, -⟩
  simp only [Inst.bare, hop, hos]

theorem skips_param : param.Skips (mark ")" :: rest) :=
  (skips_name (by decide)).followedBy.named

theorem reads_params (ps : List Param) :
    params.Reads (separatedSymbols Param.symbols ps) (mark ")" :: rest)
      fun qs => qs.map Param.bare = ps.map Param.bare :=
  (reads_items (fun p _ _ => reads_param p) (by decide) skips_param).map fun _ h => h

/-! ## Clauses and alternatives -/

theorem skips_block (hw : w.2 ≠ "\x7b") : ∀ depth : Nat, (block depth).Skips (w :: us)
  | 0 => fun _ _ _ => rfl
  | _ + 1 => (Rule.skips_literal hw).followedBy.named

theorem skips_block_nil : ∀ depth : Nat, (block depth).Skips []
  | 0 => fun _ _ _ => rfl
  | _ + 1 => Rule.skips_literal_nil.followedBy.named

def NoClause (ws : List Symbol) : Prop :=
  ∀ w v us, ws = w :: v :: us → v.2 = "\x7b" → w.2 ≠ "else" ∧ w.2 ≠ "step" ∧ w.2 ≠ "case"

theorem reads_clause {text : String} {p : Rule Block} {P : Block → Prop} {ws : List Symbol}
    (h : p.Reads ws rest P) : (clause text p).Reads (keyword text :: ws) rest P :=
  (Rule.reads_literal_then (show TokenKind.ident ≠ .endOfInput by decide)
    (Remainder.reads_last h)).map fun _ h => h

theorem declines_clause {keyword : String} {ws : List Symbol}
    (h : ∀ w v us, ws = w :: v :: us → v.2 = "\x7b" → w.2 ≠ keyword) (depth : Nat) :
    (clause keyword (block depth)).Declines ws := by
  match ws, h with
  | [], _ => exact .inl Rule.skips_literal_nil.followedBy.map
  | [w], _ =>
    exact (Rule.declines_literal_then (Remainder.fails_here (skips_block_nil depth))
      (by decide)).map
  | w :: v :: us, h =>
    by_cases hv : v.2 = "\x7b"
    · exact .inl (Rule.skips_literal (h w v us rfl hv)).followedBy.map
    · exact (Rule.declines_literal_then (Remainder.fails_here (skips_block hv depth))
        (by decide)).map

/-- A statement of a keyword and a block declines when the second symbol opens none. -/
theorem declines_keyword {β γ : Type} {name keyword : String} {q : Remainder β} {depth : Nat}
    {build : Position → Position → Unit × Block × β → γ} (hv : v.2 ≠ "\x7b") :
    (Rule.named name ((Rule.literal keyword).followedBy <| .andThen (block depth) q) build).Declines
      (w :: v :: us) :=
  (Rule.declines_literal_then (Remainder.fails_here (skips_block hv depth)) (by decide)).named

theorem declines_declare (hv : v.1 = .ident → (Rule.literal ":").Skips us) :
    declare.Declines (w :: v :: us) := by
  refine Rule.Declines.named ?_
  by_cases hident : v.1 = .ident
  · obtain ⟨kind, text⟩ := v
    subst hident
    exact Rule.declines_literal_then (Remainder.fails_later (reads_name ⟨text, .start, .start⟩)
      (Remainder.fails_here (hv rfl))) (show 1 < 3 by decide)
  · exact Rule.declines_literal_then (Remainder.fails_here (skips_name hident)) (by decide)

theorem declines_other {β γ : Type} {name keyword : String} {q : Remainder β}
    {build : Position → Position → Unit × β → γ} (hw : w.2 ≠ keyword) :
    (Rule.named name ((Rule.literal keyword).followedBy q) build).Declines (w :: us) :=
  .inl (Rule.skips_literal hw).followedBy.named

theorem declines_comment {γ : Type} {f : Position × String → γ} (hw : w.1 ≠ .comment) :
    (comment.map f).Declines (w :: us) :=
  .inl (Rule.skips_token hw).named.map

/-- Symbols that start with a name and go on neither like a block nor like a declaration are left to
the last two alternatives. -/
theorem reads_plain {ws : List Symbol} {depth : Nat} {P : Statement → Prop}
    (hws : ws ++ rest = w :: v :: us) (hw : w.1 = .ident) (hopen : w.2 ≠ "\x7b")
    (hv : v.2 ≠ "\x7b") (hcolon : v.1 = .ident → (Rule.literal ":").Skips us)
    (h : ChoiceReads [assign, inst.map .plain] ws rest P) :
    (statement (block depth)).Reads ws rest P := by
  refine (Rule.reads_choice ?_).named fun _ _ _ h => h
  refine Rule.choiceReads_later ?_ (Rule.choiceReads_later ?_ (Rule.choiceReads_later ?_
    (Rule.choiceReads_later ?_ (Rule.choiceReads_later ?_ (Rule.choiceReads_later ?_
      (Rule.choiceReads_later ?_ h))))))
  · exact hws ▸ declines_comment (by rw [hw]; decide)
  · exact hws ▸ declines_declare hcolon
  · exact hws ▸ declines_keyword hv
  · exact hws ▸ declines_keyword hv
  · exact hws ▸ declines_keyword hv
  · exact hws ▸ declines_keyword hv
  · exact hws ▸ .inl (skips_block hopen depth).map

theorem skips_statement {depth : Nat} : (statement (block depth)).Skips (mark "\x7d" :: rest) := by
  refine (Rule.skips_choice ?_).named
  simp only [List.forall_mem_cons, List.not_mem_nil, false_imp_iff, implies_true, and_true]
  refine ⟨(Rule.skips_token (by decide)).named.map, ?_, ?_, ?_, ?_, ?_,
    (skips_block (by decide) depth).map, (skips_name (by decide)).followedBy.named,
    (skips_name (by decide)).followedBy.named.map⟩
  all_goals exact (Rule.skips_literal (by decide)).followedBy.named

/-! ## Statements -/

/-- The symbol after the name of an instruction opens no block, is no assignment sign and starts no
type. -/
theorem Inst.Writable.second {i : Inst} (h : i.Writable) (rest : List Symbol) :
    ∃ v us, i.symbols ++ rest = i.op.symbol :: v :: us ∧ v.2 ≠ "\x7b" ∧ v.2 ≠ "=" ∧
      (v.1 = .ident → (Rule.literal ":").Skips us) := by
  obtain ⟨start, op, operands⟩ := i
  cases operands with
  | nil => exact ⟨mark ";", rest, rfl, by decide, by decide, nofun⟩
  | cons o os =>
    have ho := h.2 o List.mem_cons_self
    refine ⟨o.value.symbol, (os.flatMap fun b => mark "," :: b.symbols) ++ mark ";" :: rest, ?_,
      ho.ne rfl (by decide), ho.ne rfl (by decide), fun _ => ?_⟩
    · simp [Inst.symbols, separatedSymbols, Operand.symbols]
    · cases os with
      | nil => exact Rule.skips_literal (by decide)
      | cons o os => exact Rule.skips_literal (by decide)

theorem noClause_cons {ws : List Symbol}
    (hw : w.2 ≠ "else" ∧ w.2 ≠ "step" ∧ w.2 ≠ "case") : NoClause (w :: ws) := by
  rintro _ v us ⟨⟩ _
  exact hw

theorem noClause_second (hv : v.2 ≠ "\x7b") : NoClause (w :: v :: us) := by
  rintro _ _ _ ⟨⟩ h
  exact absurd h hv

/-- A statement does not start like a clause of the statement before it. -/
theorem Statement.Writable.noClause {s : Statement} (h : s.Writable) :
    NoClause (s.symbols ++ rest) := by
  cases s with
  | comment _ text =>
    rw [Statement.Writable] at h
    rw [Statement.symbols]
    exact noClause_cons ⟨h.ne rfl (by decide), h.ne rfl (by decide), h.ne rfl (by decide)⟩
  | branch _ _ _ no =>
    cases no <;> exact noClause_cons (by decide)
  | whileLoop _ _ _ advance =>
    cases advance <;> exact noClause_cons (by decide)
  | nested block =>
    cases block
    exact noClause_cons (by decide)
  | assign => exact noClause_second (show "=" ≠ "\x7b" by decide)
  | plain inst =>
    rw [Statement.Writable] at h
    obtain ⟨v, us, hsymbols, hv, -⟩ := h.second rest
    rw [Statement.symbols, hsymbols]
    exact noClause_second hv
  | _ => exact noClause_cons (by decide)

theorem statements_noClause {l : List Statement} (h : StatementsWritable l) :
    NoClause (statementsSymbols l ++ mark "\x7d" :: rest) := by
  cases l with
  | nil => exact noClause_cons (by decide)
  | cons s l =>
    rw [StatementsWritable] at h
    rw [statementsSymbols, List.append_assoc]
    exact h.1.noClause

theorem Statement.symbols_ne_nil (s : Statement) : s.symbols ≠ [] := by
  cases s with
  | branch _ _ _ no => cases no <;> nofun
  | whileLoop _ _ _ advance => cases advance <;> nofun
  | nested block => cases block; nofun
  | _ => nofun

theorem Block.symbols_ne_nil (b : Block) : b.symbols ≠ [] := by
  cases b
  rw [Block.symbols]
  nofun

section

variable {depth : Nat} {P : Statement → Prop}

theorem reads_of_branch (h : (branch (block depth)).Reads (keyword "if" :: us) rest P) :
    (statement (block depth)).Reads (keyword "if" :: us) rest P := by
  refine (Rule.reads_choice ?_).named fun _ _ _ h => h
  exact Rule.choiceReads_later (declines_comment (by decide)) (Rule.choiceReads_later
    (declines_other (show "if" ≠ "var" by decide)) (Rule.choiceReads_here h))

theorem reads_of_select (h : (select (block depth)).Reads (keyword "switch" :: us) rest P) :
    (statement (block depth)).Reads (keyword "switch" :: us) rest P := by
  refine (Rule.reads_choice ?_).named fun _ _ _ h => h
  exact Rule.choiceReads_later (declines_comment (by decide)) (Rule.choiceReads_later
    (declines_other (show "switch" ≠ "var" by decide)) (Rule.choiceReads_later
      (declines_other (show "switch" ≠ "if" by decide)) (Rule.choiceReads_here h)))

theorem reads_of_whileLoop (h : (whileLoop (block depth)).Reads (keyword "while" :: us) rest P) :
    (statement (block depth)).Reads (keyword "while" :: us) rest P := by
  refine (Rule.reads_choice ?_).named fun _ _ _ h => h
  exact Rule.choiceReads_later (declines_comment (by decide)) (Rule.choiceReads_later
    (declines_other (show "while" ≠ "var" by decide)) (Rule.choiceReads_later
      (declines_other (show "while" ≠ "if" by decide)) (Rule.choiceReads_later
        (declines_other (show "while" ≠ "switch" by decide)) (Rule.choiceReads_here h))))

theorem reads_of_forLoop (h : (forLoop (block depth)).Reads (keyword "for" :: us) rest P) :
    (statement (block depth)).Reads (keyword "for" :: us) rest P := by
  refine (Rule.reads_choice ?_).named fun _ _ _ h => h
  exact Rule.choiceReads_later (declines_comment (by decide)) (Rule.choiceReads_later
    (declines_other (show "for" ≠ "var" by decide)) (Rule.choiceReads_later
      (declines_other (show "for" ≠ "if" by decide)) (Rule.choiceReads_later
        (declines_other (show "for" ≠ "switch" by decide)) (Rule.choiceReads_later
          (declines_other (show "for" ≠ "while" by decide)) (Rule.choiceReads_here h)))))

/-- What starts with a brace is read as a block of its own. -/
theorem reads_of_nested
    (h : ((block depth).map Statement.nested).Reads (mark "\x7b" :: us) rest P) :
    (statement (block depth)).Reads (mark "\x7b" :: us) rest P := by
  refine (Rule.reads_choice ?_).named fun _ _ _ h => h
  exact Rule.choiceReads_later (declines_comment (by decide)) (Rule.choiceReads_later
    (declines_other (show "\x7b" ≠ "var" by decide)) (Rule.choiceReads_later
      (declines_other (show "\x7b" ≠ "if" by decide)) (Rule.choiceReads_later
        (declines_other (show "\x7b" ≠ "switch" by decide)) (Rule.choiceReads_later
          (declines_other (show "\x7b" ≠ "while" by decide)) (Rule.choiceReads_later
            (declines_other (show "\x7b" ≠ "for" by decide)) (Rule.choiceReads_here h))))))

end

mutual
/-- A statement is read back in front of what starts none of its clauses. -/
theorem Statement.reads : ∀ (depth : Nat) (s : Statement), s.Writable → s.symbols.length ≤ depth →
    ∀ {rest : List Symbol}, NoClause rest →
      (statement (block depth)).Reads s.symbols rest fun a => a.bare = s.bare
  | depth, .comment _ text, _, _, rest, _ => by
    rw [Statement.symbols]
    refine (Rule.reads_choice (Rule.choiceReads_here ?_)).named fun _ _ _ h => h
    refine (Rule.reads_token.named fun _ _ _ h => h).map (P := fun x => x.2 = text) ?_
    rintro ⟨start, _⟩ rfl
    simp only [Statement.bare]
  | depth, .declare _ name type, _, _, rest, _ => by
    rw [Statement.symbols]
    refine (Rule.reads_choice (Rule.choiceReads_later (declines_comment (by decide))
      (Rule.choiceReads_here ?_))).named fun _ _ _ h => h
    refine (Rule.reads_literal_then (by decide) (.andThen (reads_name name)
      (Remainder.reads_literal_then (by decide) (.andThen (reads_name type)
        (Remainder.reads_last (Rule.reads_literal (by decide))))))).named ?_
    rintro start stop ⟨_, n, _, t, _⟩ ⟨hn, ht, -⟩
    simp only [Statement.bare, hn, ht]
  | depth, .branch _ cond yes none, h, hd, rest, hrest => by
    rw [Statement.Writable] at h
    rw [Statement.symbols] at hd ⊢
    simp only [List.length_cons, List.length_append] at hd
    refine reads_of_branch ((Rule.reads_literal_then (by decide)
      (.andThen (cond.reads depth h.1 (by omega)) (Remainder.reads_literal_then (by decide)
        (.andThen_nil (yes.reads depth h.2 (by omega)) (Remainder.reads_last
          (Rule.reads_optional_none (declines_clause ?_ depth))))))).named ?_)
    · exact fun w v us he hv => (hrest w v us he hv).1
    · rintro start stop ⟨_, c, _, y, _, _⟩ ⟨hc, hy, rfl⟩
      simp only [Statement.bare, hc, hy]
  | depth, .branch _ cond yes (some no), h, hd, rest, _ => by
    rw [Statement.Writable] at h
    rw [Statement.symbols] at hd ⊢
    simp only [List.length_cons, List.length_append] at hd
    refine reads_of_branch ((Rule.reads_literal_then (by decide)
      (.andThen (cond.reads depth h.1 (by omega)) (Remainder.reads_literal_then (by decide)
        (.andThen (yes.reads depth h.2.1 (by omega)) (Remainder.reads_last
          (Rule.reads_optional (reads_clause (no.reads depth h.2.2 (by omega))))))))).named ?_)
    rintro start stop ⟨_, c, _, y, _, _⟩ ⟨hc, hy, n, rfl, hn⟩
    simp only [Statement.bare, hc, hy, hn]
  | depth, .select _ cond cases, h, hd, rest, hrest => by
    rw [Statement.Writable] at h
    rw [Statement.symbols] at hd ⊢
    simp only [List.length_cons, List.length_append] at hd
    refine reads_of_select ((Rule.reads_literal_then (by decide)
      (.andThen (cond.reads depth h.1 (by omega)) (Remainder.reads_last
        (Rule.reads_some (cases_reads depth cases h.2.2 (by omega) hrest) ?_)))).named ?_)
    · exact fun he => h.2.1 (List.map_eq_nil_iff.mp he.symm)
    · rintro start stop ⟨_, c, as, _⟩ ⟨hc, has⟩
      simp only [Statement.bare, hc, bareCases_eq, has]
  | depth, .whileLoop _ cond body none, h, hd, rest, hrest => by
    rw [Statement.Writable] at h
    rw [Statement.symbols] at hd ⊢
    simp only [List.length_cons, List.length_append] at hd
    refine reads_of_whileLoop ((Rule.reads_literal_then (by decide)
      (.andThen (cond.reads depth h.1 (by omega)) (Remainder.reads_literal_then (by decide)
        (.andThen_nil (body.reads depth h.2 (by omega)) (Remainder.reads_last
          (Rule.reads_optional_none (declines_clause ?_ depth))))))).named ?_)
    · exact fun w v us he hv => (hrest w v us he hv).2.1
    · rintro start stop ⟨_, c, _, b, _, _⟩ ⟨hc, hb, rfl⟩
      simp only [Statement.bare, hc, hb]
  | depth, .whileLoop _ cond body (some advance), h, hd, rest, _ => by
    rw [Statement.Writable] at h
    rw [Statement.symbols] at hd ⊢
    simp only [List.length_cons, List.length_append] at hd
    refine reads_of_whileLoop ((Rule.reads_literal_then (by decide)
      (.andThen (cond.reads depth h.1 (by omega)) (Remainder.reads_literal_then (by decide)
        (.andThen (body.reads depth h.2.1 (by omega)) (Remainder.reads_last
          (Rule.reads_optional (reads_clause (advance.reads depth h.2.2 (by omega))))))))).named ?_)
    rintro start stop ⟨_, c, _, b, _, _⟩ ⟨hc, hb, a, rfl, ha⟩
    simp only [Statement.bare, hc, hb, ha]
  | depth, .forLoop _ init cond body advance, h, hd, rest, _ => by
    rw [Statement.Writable] at h
    rw [Statement.symbols] at hd ⊢
    simp only [List.length_cons, List.length_append] at hd
    refine reads_of_forLoop ((Rule.reads_literal_then (by decide)
      (.andThen (init.reads depth h.1 (by omega)) (Remainder.reads_literal_then (by decide)
        (.andThen (cond.reads depth h.2.1 (by omega)) (Remainder.reads_literal_then (by decide)
          (.andThen (body.reads depth h.2.2.1 (by omega)) (Remainder.reads_literal_then (by decide)
            (Remainder.reads_last (advance.reads depth h.2.2.2 (by omega)))))))))).named ?_)
    rintro start stop ⟨_, i, _, c, _, b, _, a, _⟩ ⟨hi, hc, hb, ha⟩
    simp only [Statement.bare, hi, hc, hb, ha]
  | depth, .nested (.mk start stop l), h, hd, rest, _ => by
    rw [Statement.Writable] at h
    rw [Statement.symbols] at hd ⊢
    have hblock : (block depth).Reads _ rest _ := (Block.mk start stop l).reads depth h hd
    rw [Block.symbols] at hblock ⊢
    refine reads_of_nested (hblock.map ?_)
    intro b hb
    simp only [Statement.bare, hb]
  | depth, .assign _ dest inst, h, _, rest, _ => by
    rw [Statement.Writable] at h
    rw [Statement.symbols]
    refine reads_plain (w := dest.symbol) (v := mark "=") rfl rfl (h.1.ne rfl (by decide))
      (by decide) nofun (Rule.choiceReads_here ?_)
    refine ((reads_name dest).followedBy (Remainder.reads_literal_then (by decide)
      (Remainder.reads_last (reads_inst h.2)))).named ?_
    rintro start stop ⟨d, _, i, _⟩ ⟨hd, hi⟩
    simp only [Statement.bare, hd, hi]
  | depth, .plain inst, h, _, rest, _ => by
    rw [Statement.Writable] at h
    obtain ⟨v, us, hsymbols, hopen, hassign, hcolon⟩ := h.second rest
    rw [Statement.symbols]
    refine reads_plain hsymbols rfl (h.1.ne rfl (by decide)) hopen hcolon
      (Rule.choiceReads_later (.inr ?_) (Rule.choiceReads_here ((reads_inst h).map ?_)))
    · rw [hsymbols]
      exact (((reads_name inst.op).followedBy_fails (Remainder.fails_here
        (Rule.skips_literal hassign))).mono (show 1 ≤ 3 by decide)).named
    · intro i hi
      simp only [Statement.bare, hi]

/-- A block is read back by a rule that is as deep as the block has symbols. -/
theorem Block.reads : ∀ (depth : Nat) (b : Block), b.Writable → b.symbols.length ≤ depth →
    ∀ {rest : List Symbol}, (block depth).Reads b.symbols rest fun a => a.bare = b.bare
  | 0, b, h, hd, rest => by
    have := List.length_pos_iff.mpr b.symbols_ne_nil
    omega
  | depth + 1, .mk _ _ statements, h, hd, rest => by
    rw [Block.Writable] at h
    rw [Block.symbols] at hd ⊢
    simp only [List.length_cons, List.length_append] at hd
    refine (Rule.reads_literal_then (by decide) (.andThen
      (Rule.reads_many (statements_reads depth statements h (by omega)))
      (Remainder.reads_last (Rule.reads_literal (by decide))))).named ?_
    rintro start stop ⟨_, as, _⟩ ⟨has, -⟩
    simp only [Block.bare, bareStatements_eq, has]

theorem cases_reads : ∀ (depth : Nat) (l : List Block), CasesWritable l →
    (casesSymbols l).length ≤ depth → ∀ {rest : List Symbol}, NoClause rest →
      (clause "case" (block depth)).Repeats (casesSymbols l) rest
        fun as => as.map Block.bare = l.map Block.bare
  | depth, [], _, _, rest, hrest =>
    Rule.repeats_nil (declines_clause (fun w v us he hv => (hrest w v us he hv).2.2) depth) rfl
  | depth, b :: l, h, hd, rest, hrest => by
    rw [CasesWritable] at h
    rw [casesSymbols] at hd ⊢
    simp only [List.length_cons, List.length_append] at hd
    refine Rule.repeats_cons (reads_clause (b.reads depth h.1 (by omega))) (by simp)
      (cases_reads depth l h.2 (by omega) hrest) ?_
    intro a as ha has
    rw [List.map_cons, ha, has, List.map_cons]

theorem statements_reads : ∀ (depth : Nat) (l : List Statement), StatementsWritable l →
    (statementsSymbols l).length ≤ depth → ∀ {rest : List Symbol},
      (statement (block depth)).Repeats (statementsSymbols l) (mark "\x7d" :: rest)
        fun as => as.map Statement.bare = l.map Statement.bare
  | depth, [], _, _, rest => Rule.repeats_nil (.inl skips_statement) rfl
  | depth, s :: l, h, hd, rest => by
    rw [StatementsWritable] at h
    rw [statementsSymbols] at hd ⊢
    rw [List.length_append] at hd
    refine Rule.repeats_cons (s.reads depth h.1 (by omega) (statements_noClause h.2))
      s.symbols_ne_nil (statements_reads depth l h.2 (by omega)) ?_
    intro a as ha has
    rw [List.map_cons, ha, has, List.map_cons]
end

/-! ## Functions and files -/

theorem reads_returns (rs : List Param) (hrest : (Rule.literal "->").Skips rest) :
    returns.Reads (returnsSymbols rs) rest fun qs => qs.map Param.bare = rs.map Param.bare := by
  cases rs with
  | nil =>
    refine (Rule.reads_optional_none (.inl hrest.followedBy)).map ?_
    rintro _ rfl
    rfl
  | cons r rs =>
    refine (Rule.reads_optional (Rule.reads_literal_then (by decide)
      (Remainder.reads_literal_then (by decide) (.andThen (reads_params (r :: rs))
        (Remainder.reads_last (Rule.reads_literal (by decide))))))).map ?_
    rintro _ ⟨⟨_, _, ps, _⟩, rfl, hps, -⟩
    exact hps

theorem Function.reads {depth : Nat} {f : Function} (h : f.Writable)
    (hd : f.symbols.length ≤ depth) :
    (function depth).Reads f.symbols rest fun a => a.bare = f.bare := by
  have hbody : f.body.symbols.length ≤ depth := by
    simp only [Function.symbols, List.length_cons, List.length_append] at hd
    omega
  have harrow : (Rule.literal "->").Skips (f.body.symbols ++ rest) := by
    cases f.body
    rw [Block.symbols]
    exact Rule.skips_literal (by decide)
  refine (Rule.reads_literal_then (by decide) (.andThen (reads_name f.name)
    (Remainder.reads_literal_then (by decide) (.andThen (reads_params f.params)
      (Remainder.reads_literal_then (by decide) (.andThen (reads_returns f.returns harrow)
        (Remainder.reads_last (f.body.reads depth h.body hbody)))))))).named ?_
  rintro start stop ⟨_, n, _, ps, _, rs, b, _⟩ ⟨hn, hps, hrs, hb⟩
  simp only [Function.bare, hn, hps, hrs, hb]

theorem Element.reads {depth : Nat} {e : Element} (h : e.Writable) (hd : e.symbols.length ≤ depth) :
    (element depth).Reads e.symbols rest fun a => a.bare = e.bare := by
  refine (Rule.reads_choice ?_).named fun _ _ _ h => h
  cases e with
  | comment _ text =>
    refine Rule.choiceReads_here ((Rule.reads_token.named fun _ _ _ h => h).map
      (P := fun x => x.2 = text) ?_)
    rintro ⟨start, _⟩ rfl
    rfl
  | version _ value =>
    refine Rule.choiceReads_later (declines_comment nofun) (Rule.choiceReads_here
      ((Rule.reads_literal_then (by decide) (.andThen Rule.reads_token
        (Remainder.reads_last (Rule.reads_literal (by decide))))).named ?_))
    rintro start stop ⟨_, _, _⟩ ⟨rfl, -⟩
    rfl
  | function f =>
    refine Rule.choiceReads_later (declines_comment nofun) (Rule.choiceReads_later
      (declines_other (show "func" ≠ "version" by decide))
      (Rule.choiceReads_here ((Function.reads h hd).map ?_)))
    exact fun _ => congrArg Element.function

theorem skips_element {depth : Nat} : (element depth).Skips [] := by
  refine (Rule.skips_choice ?_).named
  simp only [List.forall_mem_cons, List.not_mem_nil, false_imp_iff, implies_true, and_true]
  exact ⟨(Rule.skips_token_nil (by decide)).named.map, Rule.skips_literal_nil.followedBy.named,
    Rule.skips_literal_nil.followedBy.named.map⟩

theorem Element.symbols_ne_nil (e : Element) : e.symbols ≠ [] := by
  cases e <;> nofun

theorem elements_reads {depth : Nat} : ∀ l : List Element, (∀ e ∈ l, e.Writable) →
    (l.flatMap Element.symbols).length ≤ depth →
      (element depth).Repeats (l.flatMap Element.symbols) []
        fun as => as.map Element.bare = l.map Element.bare
  | [], _, _ => Rule.repeats_nil (.inl skips_element) rfl
  | e :: l, h, hd => by
    obtain ⟨he, hl⟩ := List.forall_mem_cons.mp h
    rw [List.flatMap_cons] at hd ⊢
    rw [List.length_append] at hd
    refine Rule.repeats_cons (Element.reads he (by omega)) e.symbols_ne_nil
      (elements_reads l hl (by omega)) ?_
    intro a as ha has
    rw [List.map_cons, ha, has, List.map_cons]

theorem File.Writable.reads {depth : Nat} {f : File} (h : f.Writable)
    (hd : f.symbols.length ≤ depth) : (file depth).Reads f.symbols [] fun a => a.bare = f.bare := by
  refine (Rule.reads_many (elements_reads f.elements h hd)).named ?_
  intro start stop as has
  simp only [File.bare, has]

/-- The canonical text of a writable file parses to the file, up to places. -/
theorem File.Writable.parse {f : File} (h : f.Writable) :
    ∃ again, parse f.text = .ok again ∧ again.bare = f.bare := by
  obtain ⟨s, hscan, hsymbols⟩ := h.scans.scanFrom .start
  have hd : f.symbols.length ≤ s.tokens.length + 1 := by
    rw [← hsymbols, List.length_map]
    omega
  have hstart : Cursor.At ⟨s.tokens, s.endToken, 0, .start, 0, none⟩ 0 (f.symbols ++ []) :=
    ⟨by rw [List.append_nil]; exact hsymbols, rfl, rfl⟩
  obtain ⟨again, c, hrun, hagain, hc⟩ := h.reads hd hstart
  refine ⟨again, ?_, hagain⟩
  simp only [DefFlow.Syntax.parse, scan, hscan, parseTokens, hrun,
    List.map_eq_nil_iff.mp hc.symbols, List.isEmpty_nil, if_true]

end DefFlow.Syntax
