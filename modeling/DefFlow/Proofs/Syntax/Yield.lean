import DefFlow.Proofs.Syntax.Recovery
import DefFlow.Proofs.Syntax.Writing
import DefFlow.Syntax.Grammar

/-!
# The grammar yields writable trees

`Yields p P` says that whatever the rule `p` gives from sound tokens has the property `P`; sound
tokens are left behind in any case. Each rule of the grammar yields writable trees, but for the
double quotes that a version may have.

Main statement: a text that parses is laid out as a text that parses again, to the same tree up to
places, and a second layout changes nothing. A version with a double quote is left out: the scanner
ends a quoted text at the first quote inside, escaped or not.
-/

set_option autoImplicit false

namespace DefFlow.Syntax

structure Cursor.Sound (c : Cursor) : Prop where
  rest : ∀ t ∈ c.rest, t.symbol.Sound
  finish : c.finish.kind = .endOfInput

namespace Cursor.Sound

variable {c b : Cursor}

theorem step (h : c.Sound) : c.step.Sound := by
  rw [Cursor.step]
  split
  · exact h
  · next t rest hrest =>
    refine ⟨fun u hu => h.rest u ?_, h.finish⟩
    rw [hrest]
    exact List.mem_cons_of_mem t hu

theorem accept (h : c.Sound) (hb : b.Sound) : (c.accept b).Sound := by
  rw [Cursor.accept]
  split <;> exact ⟨hb.rest, h.finish⟩

theorem note (h : c.Sound) (e : SyntaxError) : (c.note e).Sound := by
  rw [Cursor.note]
  split
  · exact ⟨h.rest, h.finish⟩
  · exact h

theorem abandon (h : c.Sound) (e : SyntaxError) (hb : b.Sound) : (c.abandon e b).2.Sound := by
  rw [Cursor.abandon]
  generalize hn : (if c.depth < b.depth then { c with furthest := b.furthest, depth := b.depth }
    else if c.depth ≤ b.count then { c with furthest := some e, depth := max b.count b.depth }
    else c) = noted
  have hnoted : noted.Sound := by
    subst hn
    split
    · exact ⟨h.rest, h.finish⟩
    split
    · exact ⟨h.rest, h.finish⟩
    · exact h
  split
  · exact hnoted.accept hb
  · exact hnoted

/-- A token of a class other than the end is one of the sound tokens. -/
theorem peek (h : c.Sound) (hpeek : c.peek.kind ≠ .endOfInput) : c.peek.symbol.Sound := by
  rw [Cursor.peek] at hpeek ⊢
  cases hrest : c.rest with
  | nil =>
    rw [hrest] at hpeek
    exact absurd h.finish hpeek
  | cons t rest => exact h.rest t (by simp [hrest])

end Cursor.Sound

section

variable {α : Type}

def Rule.Yields (p : Rule α) (P : α → Prop) : Prop :=
  ∀ c : Cursor, c.Sound → (p.run c).2.Sound ∧ ∀ a, (p.run c).1 = .ok a → P a

def Remainder.Yields (q : Remainder α) (P : α → Prop) : Prop :=
  ∀ c : Cursor, c.Sound → (q.run c).2.Sound ∧ ∀ a, (q.run c).1 = .ok a → P a

end

section

variable {α β : Type} {p : Rule α} {q : Remainder β} {ps : List (Rule α)} {P : α → Prop}
  {Q : β → Prop}

namespace Rule

theorem yields_literal {text : String} : (literal text).Yields fun _ => True := by
  intro c hc
  simp only [literal]
  split
  · exact ⟨hc.step, fun _ _ => trivial⟩
  · exact ⟨hc, fun _ _ => trivial⟩

theorem yields_token {kind : TokenKind} (hkind : kind ≠ .endOfInput) :
    (token kind).Yields fun text => Symbol.Sound (kind, text) := by
  intro c hc
  simp only [token]
  split
  · next hpeek =>
    refine ⟨hc.step, ?_⟩
    rintro a ⟨⟩
    have := hc.peek (hpeek ▸ hkind)
    rwa [Token.symbol, hpeek] at this
  · exact ⟨hc, by rintro _ ⟨⟩⟩

theorem Yields.map {f : α → β} (h : p.Yields P) (hf : ∀ a, P a → Q (f a)) :
    (p.map f).Yields Q := by
  intro c hc
  obtain ⟨hb, ha⟩ := h c hc
  refine ⟨hb, fun b hrun => ?_⟩
  simp only [Rule.map] at hrun
  cases hr : (p.run c).1 with
  | ok a =>
    rw [hr] at hrun
    cases hrun
    exact hf a (ha a hr)
  | absent =>
    rw [hr] at hrun
    cases hrun
  | fail e =>
    rw [hr] at hrun
    cases hrun

theorem Yields.named {name : String} {build : Position → Position → α → β} (h : p.Yields P)
    (hbuild : ∀ start stop a, P a → Q (build start stop a)) :
    (Rule.named name p build).Yields Q := by
  intro c hc
  obtain ⟨hb, ha⟩ := h c hc
  simp only [Rule.named]
  rcases hr : p.run c with ⟨_ | a | e, b⟩ <;> rw [hr] at hb ha
  · exact ⟨hb, by rintro _ ⟨⟩⟩
  · refine ⟨hb, ?_⟩
    rintro _ ⟨⟩
    exact hbuild _ _ a (ha a rfl)
  · exact ⟨hb.note e, by rintro _ ⟨⟩⟩

theorem Yields.followedBy (h : p.Yields P) (hq : q.Yields Q) :
    (p.followedBy q).Yields fun x => P x.1 ∧ Q x.2 := by
  intro c hc
  obtain ⟨hb, ha⟩ := h c hc
  simp only [Rule.followedBy]
  rcases hr : p.run c with ⟨_ | a | e, b⟩ <;> rw [hr] at hb ha
  · exact ⟨hb, by rintro _ ⟨⟩⟩
  · obtain ⟨hb', ha'⟩ := hq b hb
    dsimp only
    rcases hr' : q.run b with ⟨e | a', b'⟩ <;> rw [hr'] at hb' ha'
    · exact ⟨hb', by rintro _ ⟨⟩⟩
    · refine ⟨hb', ?_⟩
      rintro _ ⟨⟩
      exact ⟨ha a rfl, ha' a' rfl⟩
  · exact ⟨hb, by rintro _ ⟨⟩⟩

theorem yields_firstOf (h : ∀ p ∈ ps, p.Yields P) (failed : Option SyntaxError) (depth : Nat)
    {c : Cursor} (hc : c.Sound) :
    (firstOf ps failed depth c).2.Sound ∧ ∀ a, (firstOf ps failed depth c).1 = .ok a → P a := by
  induction ps generalizing failed depth c with
  | nil =>
    cases failed with
    | none => exact ⟨hc, by rintro _ ⟨⟩⟩
    | some e => exact ⟨hc.note e, by rintro _ ⟨⟩⟩
  | cons p ps ih =>
    obtain ⟨hp, hps⟩ := List.forall_mem_cons.mp h
    obtain ⟨hb, ha⟩ := hp c hc
    simp only [firstOf]
    rcases hr : p.run c with ⟨_ | a | e, b⟩ <;> rw [hr] at hb ha
    · exact ih hps failed depth hc
    · refine ⟨hc.accept hb, ?_⟩
      rintro _ ⟨⟩
      exact ha a rfl
    · have habandon := hc.abandon e hb
      dsimp only
      rcases hab : c.abandon e b with ⟨_ | _, c'⟩ <;> rw [hab] at habandon
      · dsimp only
        split
        · exact ih hps _ _ habandon
        · exact ih hps _ _ habandon
      · exact ⟨habandon, by rintro _ ⟨⟩⟩

theorem yields_choice (h : ∀ p ∈ ps, p.Yields P) : (choice ps).Yields P :=
  fun _ hc => yields_firstOf h none 0 hc

theorem yields_repeated (h : p.Yields P) : ∀ (limit : Nat) {c : Cursor}, c.Sound →
    (repeated p limit c).2.Sound ∧ ∀ as, (repeated p limit c).1 = .ok as → ∀ a ∈ as, P a
  | 0, c, hc => ⟨hc, by rintro _ ⟨⟩; nofun⟩
  | limit + 1, c, hc => by
    obtain ⟨hb, ha⟩ := h c hc
    simp only [repeated]
    rcases hr : p.run c with ⟨_ | a | e, b⟩ <;> rw [hr] at hb ha
    · exact ⟨hc.accept hb, by rintro _ ⟨⟩; nofun⟩
    · obtain ⟨hb', has⟩ := yields_repeated h limit (hc.accept hb)
      dsimp only
      rcases hr' : repeated p limit (c.accept b) with ⟨e | as, b'⟩ <;> rw [hr'] at hb' has
      · exact ⟨hb', by rintro _ ⟨⟩⟩
      · refine ⟨hb', ?_⟩
        rintro _ ⟨⟩
        exact List.forall_mem_cons.mpr ⟨ha a rfl, has as rfl⟩
    · have habandon := (hc.note e).abandon e hb
      dsimp only
      rcases hab : (c.note e).abandon e b with ⟨_ | _, c'⟩ <;> rw [hab] at habandon
      · exact ⟨habandon, by rintro _ ⟨⟩; nofun⟩
      · exact ⟨habandon, by rintro _ ⟨⟩⟩

theorem yields_many (h : p.Yields P) : p.many.Yields fun as => ∀ a ∈ as, P a := by
  intro c hc
  obtain ⟨hb, has⟩ := yields_repeated h (c.rest.length + 1) hc
  simp only [many]
  rcases hr : repeated p (c.rest.length + 1) c with ⟨e | as, b⟩ <;> rw [hr] at hb has
  · exact ⟨hb, by rintro _ ⟨⟩⟩
  · refine ⟨hb, ?_⟩
    rintro _ ⟨⟩
    exact has as rfl

theorem yields_some (h : p.Yields P) : p.some.Yields fun as => as ≠ [] ∧ ∀ a ∈ as, P a := by
  intro c hc
  obtain ⟨hb, has⟩ := yields_repeated h (c.rest.length + 1) hc
  simp only [Rule.some]
  rcases hr : repeated p (c.rest.length + 1) c with ⟨e | _ | ⟨a, as⟩, b⟩ <;> rw [hr] at hb has
  · exact ⟨hb, by rintro _ ⟨⟩⟩
  · exact ⟨hb, by rintro _ ⟨⟩⟩
  · refine ⟨hb, ?_⟩
    rintro _ ⟨⟩
    exact ⟨List.cons_ne_nil a as, has _ rfl⟩

theorem yields_optional (h : p.Yields P) : p.optional.Yields fun o => ∀ a ∈ o, P a := by
  intro c hc
  obtain ⟨hb, has⟩ := yields_repeated h 1 hc
  simp only [optional]
  rcases hr : repeated p 1 c with ⟨e | as, b⟩ <;> rw [hr] at hb has
  · exact ⟨hb, by rintro _ ⟨⟩⟩
  · refine ⟨hb, ?_⟩
    rintro _ ⟨⟩ a ha
    exact has as rfl a (List.mem_of_head? ha)

end Rule

namespace Remainder

theorem Yields.done : Remainder.done.Yields fun _ => True :=
  fun _ hc => ⟨hc, fun _ _ => trivial⟩

theorem Yields.andThen (h : p.Yields P) (hq : q.Yields Q) :
    (Remainder.andThen p q).Yields fun x => P x.1 ∧ Q x.2 := by
  intro c hc
  obtain ⟨hb, ha⟩ := h c hc
  simp only [Remainder.andThen]
  rcases hr : p.run c with ⟨_ | a | e, b⟩ <;> rw [hr] at hb ha
  · exact ⟨hb, by rintro _ ⟨⟩⟩
  · obtain ⟨hb', ha'⟩ := hq b hb
    dsimp only
    rcases hr' : q.run b with ⟨e | a', b'⟩ <;> rw [hr'] at hb' ha'
    · exact ⟨hb', by rintro _ ⟨⟩⟩
    · refine ⟨hb', ?_⟩
      rintro _ ⟨⟩
      exact ⟨ha a rfl, ha' a' rfl⟩
  · exact ⟨hb, by rintro _ ⟨⟩⟩

end Remainder

theorem Rule.yields_separated (h : p.Yields P) : p.separated.Yields fun as => ∀ a ∈ as, P a := by
  refine (h.followedBy (.andThen (Rule.yields_many (Rule.yields_literal.followedBy
    (.andThen h .done))) .done)).map ?_
  rintro ⟨a, rest, _⟩ ⟨ha, hrest, -⟩
  refine List.forall_mem_cons.mpr ⟨ha, ?_⟩
  intro b hb
  obtain ⟨x, hx, rfl⟩ := List.mem_map.mp hb
  exact (hrest x hx).2.1

end

/-! ## The grammar -/

open Grammar

theorem name_yields : name.Yields Name.Writable :=
  (Rule.yields_token (by decide)).named fun _ _ _ h => h

theorem param_yields : param.Yields Param.Writable :=
  (name_yields.followedBy (.andThen Rule.yields_literal (.andThen name_yields .done))).named
    fun _ _ _ h => ⟨h.1, h.2.2.1⟩

theorem params_yields : params.Yields fun ps => ∀ p ∈ ps, p.Writable := by
  refine (Rule.yields_optional (Rule.yields_separated param_yields)).map ?_
  rintro (_ | ps) h
  · nofun
  · exact h ps rfl

theorem boolOperand_run (c : Cursor) :
    boolOperand.run c =
      if c.peek.kind ≠ .endOfInput ∧ c.peek.value = "true" then (.ok (.bool true), c.accept c.step)
      else if c.peek.kind ≠ .endOfInput ∧ c.peek.value = "false" then
        (.ok (.bool false), c.accept c.step)
      else (.absent, c) := by
  simp only [boolOperand, Rule.choice, Rule.firstOf, Rule.map, Rule.literal, Bool.and_eq_true,
    decide_eq_true_eq]
  by_cases htrue : c.peek.kind ≠ .endOfInput ∧ c.peek.value = "true"
  · simp only [if_pos htrue, Outcome.map]
  · by_cases hfalse : c.peek.kind ≠ .endOfInput ∧ c.peek.value = "false"
    · simp only [if_neg htrue, if_pos hfalse, Outcome.map]
    · simp only [if_neg htrue, if_neg hfalse, Outcome.map]

theorem operand_yields : operand.Yields fun o => o.value.Writable := by
  refine Rule.Yields.named (P := OperandValue.Writable) ?_ fun _ _ _ h => h
  intro c hc
  have hnext : (c.accept c.step).Sound := hc.accept hc.step
  simp only [Rule.choice, Rule.firstOf, boolOperand_run, Rule.map, Rule.token]
  by_cases htrue : c.peek.kind ≠ .endOfInput ∧ c.peek.value = "true"
  · rw [if_pos htrue]
    exact ⟨hc.accept hnext, by rintro _ ⟨⟩; trivial⟩
  by_cases hfalse : c.peek.kind ≠ .endOfInput ∧ c.peek.value = "false"
  · rw [if_neg htrue, if_pos hfalse]
    exact ⟨hc.accept hnext, by rintro _ ⟨⟩; trivial⟩
  rw [if_neg htrue, if_neg hfalse]
  by_cases hinteger : c.peek.kind = .integer
  · have hpeek := hc.peek (by rw [hinteger]; decide)
    rw [Token.symbol, hinteger] at hpeek
    simp only [if_pos hinteger, Outcome.map]
    exact ⟨hnext, by rintro _ ⟨⟩; exact hpeek⟩
  by_cases hident : c.peek.kind = .ident
  · have hkind : c.peek.kind ≠ .endOfInput := by rw [hident]; decide
    have hpeek := hc.peek hkind
    rw [Token.symbol, hident] at hpeek
    simp only [if_neg hinteger, if_pos hident, Outcome.map]
    refine ⟨hnext, ?_⟩
    rintro _ ⟨⟩
    exact ⟨hpeek, fun h => htrue ⟨hkind, h⟩, fun h => hfalse ⟨hkind, h⟩⟩
  · simp only [if_neg hinteger, if_neg hident, Outcome.map]
    exact ⟨hc, by rintro _ ⟨⟩⟩

theorem inst_yields : inst.Yields Inst.Writable := by
  refine (name_yields.followedBy (.andThen (Rule.yields_optional
    (Rule.yields_separated operand_yields)) (.andThen Rule.yields_literal .done))).named ?_
  rintro start _ ⟨op, _ | os, _⟩ ⟨hop, hos, -⟩
  · exact ⟨hop, by rintro _ ⟨⟩⟩
  · exact ⟨hop, hos os rfl⟩

theorem declare_yields : declare.Yields Statement.Writable := by
  refine (Rule.yields_literal.followedBy (.andThen name_yields (.andThen Rule.yields_literal
    (.andThen name_yields (.andThen Rule.yields_literal .done))))).named ?_
  rintro start _ ⟨_, n, _, t, _⟩ ⟨-, hn, -, ht, -⟩
  rw [Statement.Writable]
  exact ⟨hn, ht⟩

theorem assign_yields : assign.Yields Statement.Writable := by
  refine (name_yields.followedBy (.andThen Rule.yields_literal
    (.andThen inst_yields .done))).named ?_
  rintro start _ ⟨d, _, i, _⟩ ⟨hd, -, hi, -⟩
  rw [Statement.Writable]
  exact ⟨hd, hi⟩

theorem comment_yields : comment.Yields fun x => IsComment x.2.toList :=
  (Rule.yields_token (by decide)).named fun _ _ _ h => h

section

variable {p : Rule Block}

theorem clause_yields (h : p.Yields Block.Writable) (keyword : String) :
    (clause keyword p).Yields Block.Writable :=
  (Rule.yields_literal.followedBy (.andThen h .done)).map fun _ h => h.2.1

theorem branch_yields (h : p.Yields Block.Writable) : (branch p).Yields Statement.Writable := by
  refine (Rule.yields_literal.followedBy (.andThen h (.andThen Rule.yields_literal (.andThen h
    (.andThen (Rule.yields_optional (clause_yields h "else")) .done))))).named ?_
  rintro start _ ⟨_, c, _, y, _ | n, _⟩ ⟨-, hc, -, hy, hn, -⟩
  · rw [Statement.Writable]
    exact ⟨hc, hy⟩
  · rw [Statement.Writable]
    exact ⟨hc, hy, hn n rfl⟩

theorem select_yields (h : p.Yields Block.Writable) : (select p).Yields Statement.Writable := by
  refine (Rule.yields_literal.followedBy (.andThen h
    (.andThen (Rule.yields_some (clause_yields h "case")) .done))).named ?_
  rintro start _ ⟨_, c, bs, _⟩ ⟨-, hc, ⟨hne, hbs⟩, -⟩
  rw [Statement.Writable, casesWritable_iff]
  exact ⟨hc, hne, hbs⟩

theorem whileLoop_yields (h : p.Yields Block.Writable) :
    (whileLoop p).Yields Statement.Writable := by
  refine (Rule.yields_literal.followedBy (.andThen h (.andThen Rule.yields_literal (.andThen h
    (.andThen (Rule.yields_optional (clause_yields h "step")) .done))))).named ?_
  rintro start _ ⟨_, c, _, b, _ | a, _⟩ ⟨-, hc, -, hb, ha, -⟩
  · rw [Statement.Writable]
    exact ⟨hc, hb⟩
  · rw [Statement.Writable]
    exact ⟨hc, hb, ha a rfl⟩

theorem forLoop_yields (h : p.Yields Block.Writable) : (forLoop p).Yields Statement.Writable := by
  refine (Rule.yields_literal.followedBy (.andThen h (.andThen Rule.yields_literal (.andThen h
    (.andThen Rule.yields_literal (.andThen h (.andThen Rule.yields_literal
      (.andThen h .done)))))))).named ?_
  rintro start _ ⟨_, i, _, c, _, b, _, a, _⟩ ⟨-, hi, -, hc, -, hb, -, ha, -⟩
  rw [Statement.Writable]
  exact ⟨hi, hc, hb, ha⟩

theorem statement_yields (h : p.Yields Block.Writable) :
    (statement p).Yields Statement.Writable := by
  refine (Rule.yields_choice ?_).named fun _ _ _ h => h
  simp only [List.forall_mem_cons, List.not_mem_nil, false_imp_iff, implies_true, and_true]
  refine ⟨comment_yields.map ?_, declare_yields, branch_yields h, select_yields h,
    whileLoop_yields h, forLoop_yields h, h.map ?_, assign_yields, inst_yields.map ?_⟩
  · intro x hx
    rwa [Statement.Writable]
  · intro b hb
    rwa [Statement.Writable]
  · intro i hi
    rwa [Statement.Writable]

end

theorem block_yields : ∀ depth : Nat, (block depth).Yields Block.Writable
  | 0 => fun _ hc => ⟨hc, nofun⟩
  | depth + 1 => by
    refine (Rule.yields_literal.followedBy (.andThen (Rule.yields_many
      (statement_yields (block_yields depth))) (.andThen Rule.yields_literal .done))).named ?_
    rintro start stop ⟨_, l, _⟩ ⟨-, hl, -⟩
    rwa [Block.Writable, statementsWritable_iff]

theorem returns_yields : returns.Yields fun ps => ∀ p ∈ ps, p.Writable := by
  refine (Rule.yields_optional (Rule.yields_literal.followedBy (.andThen Rule.yields_literal
    (.andThen params_yields (.andThen Rule.yields_literal .done))))).map ?_
  rintro (_ | ⟨_, _, ps, _⟩) h
  · nofun
  · exact (h _ rfl).2.2.1

theorem function_yields (depth : Nat) : (function depth).Yields Function.Writable := by
  refine (Rule.yields_literal.followedBy (.andThen name_yields (.andThen Rule.yields_literal
    (.andThen params_yields (.andThen Rule.yields_literal (.andThen returns_yields
      (.andThen (block_yields depth) .done))))))).named ?_
  rintro start stop ⟨_, n, _, ps, _, rs, b, _⟩ ⟨-, hn, -, hps, -, hrs, hb, -⟩
  exact ⟨hn, hps, hrs, hb⟩

def Element.Plain (e : Element) : Prop :=
  (∀ start value, e = .version start value → '"' ∉ value.toList) → e.Writable

theorem element_yields (depth : Nat) : (element depth).Yields Element.Plain := by
  refine (Rule.yields_choice ?_).named fun _ _ _ h => h
  simp only [List.forall_mem_cons, List.not_mem_nil, false_imp_iff, implies_true, and_true]
  refine ⟨comment_yields.map fun x hx _ => hx, ?_, (function_yields depth).map fun f hf _ => hf⟩
  refine (Rule.yields_literal.followedBy (.andThen (Rule.yields_token (by decide))
    (.andThen Rule.yields_literal .done))).named ?_
  rintro start _ ⟨_, value, _⟩ -
  exact fun h => h start value rfl

theorem file_yields (depth : Nat) : (file depth).Yields fun f => ∀ e ∈ f.elements, e.Plain :=
  (Rule.yields_many (element_yields depth)).named fun _ _ _ h => h

theorem parseTokens_run {s : Scanned} {f : File} (h : parseTokens s = .ok f) :
    ((file (s.tokens.length + 1)).run ⟨s.tokens, s.endToken, 0, .start, 0, none⟩).1 = .ok f := by
  rw [parseTokens] at h
  split at h
  · cases h
  · cases h
  · next file c hrun =>
    rw [hrun]
    split at h
    · cases h
      rfl
    · split at h
      · split at h <;> cases h
      · cases h

/-- The elements of a file that was parsed are writable but for versions with a double quote. -/
theorem plain_of_parse {source : String} {f : File} (h : parse source = .ok f) :
    ∀ e ∈ f.elements, e.Plain := by
  rw [parse] at h
  split at h
  · cases h
  · next s hscan =>
    have hsound : Cursor.Sound ⟨s.tokens, s.endToken, 0, .start, 0, none⟩ :=
      ⟨fun t ht => (scans_of_scanFrom hscan).sound t.symbol (List.mem_map_of_mem ht), rfl⟩
    obtain ⟨-, hyields⟩ := file_yields (s.tokens.length + 1) _ hsound
    exact hyields f (parseTokens_run h)

/-- A file that was parsed and has no version with a double quote is writable. -/
theorem writable_of_parse {source : String} {f : File} (h : parse source = .ok f)
    (hversions : ∀ v ∈ f.versions, '"' ∉ v.2.toList) : f.Writable := by
  intro e he
  refine plain_of_parse h e he fun start value hv => hversions (start, value) ?_
  exact List.mem_filterMap.mpr ⟨e, he, by rw [hv]⟩

end DefFlow.Syntax

/-! ## The layout loses nothing -/

namespace DefFlow.Syntax

theorem File.text_of_bare {f g : File} (h : f.bare = g.bare) : f.text = g.text := by
  rw [← f.text_bare, h, g.text_bare]

/-- The layout of a parsed file without double quotes in its versions parses to the same file, up to
places, and is laid out the same again. -/
theorem formatting_is_lossless {source : String} {file : File} (hparse : parse source = .ok file)
    (hversions : ∀ v ∈ file.versions, '"' ∉ v.2.toList) :
    ∃ again, parse file.text = .ok again ∧ again.bare = file.bare ∧ again.text = file.text := by
  obtain ⟨again, hagain, hbare⟩ := (writable_of_parse hparse hversions).parse
  exact ⟨again, hagain, hbare, File.text_of_bare hbare⟩

/-- Keywords stand for names, quoted texts for braces, and statements follow each other that look
like clauses. -/
def disguised : String :=
  "// head\nversion \"1.\\u0041\";func if(var:int)->(else : int)\"\x7b\"// body\n" ++
  "while=add 0x1F,-3,true;if\x7blt var,while;\x7dthen\x7bstep;\x7delse x;" ++
  "while\x7b\x7ddo\x7b\x7dstep=case;switch\x7b\x7dcase\x7b// c\n\x7dcase;" ++
  "for\x7bvar;\x7dwhile\x7bvar then;\x7ddo\x7b\x7b\x7d\x7dstep\x7bvar do:int;\x7d\"\x7d\""

theorem formatting_is_lossless_disguised : ∃ file, parse disguised = .ok file ∧
    (∀ v ∈ file.versions, '"' ∉ v.2.toList) ∧
    ∃ again, parse file.text = .ok again ∧ again.bare = file.bare ∧ again.text = file.text := by
  have hchecked : (match parse disguised with
      | .ok file => decide (∀ v ∈ file.versions, '"' ∉ v.2.toList)
      | .error _ => false) = true := by
    decide +kernel
  cases hparse : parse disguised with
  | error e =>
    rw [hparse] at hchecked
    cases hchecked
  | ok file =>
    rw [hparse] at hchecked
    have hversions := of_decide_eq_true hchecked
    exact ⟨file, rfl, hversions, formatting_is_lossless hparse hversions⟩

end DefFlow.Syntax
