import DefFlow.Syntax.Rule
import DefFlow.Proofs.Syntax.Symbols

/-!
# What rules read

`Reads p ws rest P` says that the rule `p` succeeds on the symbols `ws` when `rest` follows, reads
all of `ws` and nothing else, and gives a value with the property `P`. A rule that declines does not
apply or fails within the lookahead, and so leaves the choice to the next alternative. Neither
depends on the failures met before.
-/

set_option autoImplicit false

namespace DefFlow.Syntax

structure Cursor.At (c : Cursor) (n : Nat) (ws : List Symbol) : Prop where
  symbols : c.rest.map Token.symbol = ws
  count : c.count = n
  finish : c.finish.kind = .endOfInput

namespace Cursor.At

variable {c b : Cursor} {n m : Nat} {w : Symbol} {ws us : List Symbol}

theorem peek (h : c.At n (w :: ws)) : c.peek.kind = w.1 ∧ c.peek.value = w.2 := by
  obtain ⟨t, rest, hrest, rfl, -⟩ := List.map_eq_cons_iff.mp h.symbols
  rw [Cursor.peek, hrest]
  exact ⟨rfl, rfl⟩

/-- A repetition that stands before its items has rounds enough for them. -/
theorem lt_limit (h : c.At n (ws ++ us)) : ws.length < c.rest.length + 1 := by
  have hlength := congrArg List.length h.symbols
  rw [List.length_map, List.length_append] at hlength
  omega

theorem peek_nil (h : c.At n []) : c.peek.kind = .endOfInput := by
  rw [Cursor.peek, List.map_eq_nil_iff.mp h.symbols]
  exact h.finish

theorem step (h : c.At n (w :: ws)) : c.step.At (n + 1) ws := by
  obtain ⟨t, rest, hrest, -, hws⟩ := List.map_eq_cons_iff.mp h.symbols
  rw [Cursor.step, hrest]
  exact ⟨hws, congrArg (· + 1) h.count, h.finish⟩

theorem accept (h : c.At n ws) (hb : b.At m us) : (c.accept b).At m us := by
  rw [Cursor.accept]
  split <;> exact ⟨hb.symbols, hb.count, h.finish⟩

theorem note (h : c.At n ws) (e : SyntaxError) : (c.note e).At n ws := by
  rw [Cursor.note]
  split
  · exact ⟨h.symbols, h.count, h.finish⟩
  · exact h

/-- An attempt that fails within the lookahead is given up at the place where it began. -/
theorem abandon (h : c.At n ws) (e : SyntaxError) (hb : b.count ≤ n + Cursor.lookahead) :
    ∃ c', c.abandon e b = (false, c') ∧ c'.At n ws := by
  rw [Cursor.abandon, if_neg (by rw [h.count]; omega)]
  refine ⟨_, rfl, ?_⟩
  split
  · exact ⟨h.symbols, h.count, h.finish⟩
  split
  · exact ⟨h.symbols, h.count, h.finish⟩
  · exact h

end Cursor.At

section

variable {α : Type}

def Rule.Reads (p : Rule α) (ws rest : List Symbol) (P : α → Prop) : Prop :=
  ∀ ⦃c : Cursor⦄ ⦃n : Nat⦄, c.At n (ws ++ rest) →
    ∃ a b, p.run c = (.ok a, b) ∧ P a ∧ b.At (n + ws.length) rest

def Remainder.Reads (q : Remainder α) (ws rest : List Symbol) (P : α → Prop) : Prop :=
  ∀ ⦃c : Cursor⦄ ⦃n : Nat⦄, c.At n (ws ++ rest) →
    ∃ a b, q.run c = (.ok a, b) ∧ P a ∧ b.At (n + ws.length) rest

def Rule.Skips (p : Rule α) (ws : List Symbol) : Prop :=
  ∀ ⦃c : Cursor⦄ ⦃n : Nat⦄, c.At n ws → p.run c = (.absent, c)

def Rule.Fails (p : Rule α) (ws : List Symbol) (k : Nat) : Prop :=
  ∀ ⦃c : Cursor⦄ ⦃n : Nat⦄, c.At n ws → ∃ e b, p.run c = (.fail e, b) ∧ b.count ≤ n + k

def Remainder.Fails (q : Remainder α) (ws : List Symbol) (k : Nat) : Prop :=
  ∀ ⦃c : Cursor⦄ ⦃n : Nat⦄, c.At n ws → ∃ e b, q.run c = (.error e, b) ∧ b.count ≤ n + k

def Rule.Declines (p : Rule α) (ws : List Symbol) : Prop :=
  p.Skips ws ∨ p.Fails ws Cursor.lookahead

def ChoiceReads (ps : List (Rule α)) (ws rest : List Symbol) (P : α → Prop) : Prop :=
  ∀ (failed : Option SyntaxError) (depth : Nat) ⦃c : Cursor⦄ ⦃n : Nat⦄, c.At n (ws ++ rest) →
    ∃ a b, Rule.firstOf ps failed depth c = (.ok a, b) ∧ P a ∧ b.At (n + ws.length) rest

/-- The rule is applied over and over up to the end of the symbols `ws`, unless a limit stops it. -/
def Rule.Repeats (p : Rule α) (ws rest : List Symbol) (P : List α → Prop) : Prop :=
  ∀ (limit : Nat) ⦃c : Cursor⦄ ⦃n : Nat⦄, ws.length < limit → c.At n (ws ++ rest) →
    ∃ as b, Rule.repeated p limit c = (.ok as, b) ∧ P as ∧ b.At (n + ws.length) rest

end

section

variable {α β : Type} {p : Rule α} {q : Remainder β} {ps : List (Rule α)}
  {ws us rest : List Symbol} {w : Symbol} {P : α → Prop} {Q : β → Prop} {k : Nat}

namespace Rule

/-! ## Single symbols -/

theorem reads_literal {kind : TokenKind} {text : String} (hkind : kind ≠ .endOfInput) :
    (literal text).Reads [(kind, text)] rest fun _ => True := by
  intro c n h
  obtain ⟨hk, hv⟩ := h.peek
  refine ⟨(), c.step, ?_, trivial, h.step⟩
  simp only [literal, hk, hv, ne_eq, hkind, not_false_eq_true, decide_true, Bool.and_self, if_true]

theorem skips_literal {text : String} (hw : w.2 ≠ text) : (literal text).Skips (w :: ws) := by
  intro c n h
  simp only [literal, h.peek.2, hw, decide_false, Bool.and_false, Bool.false_eq_true, if_false]

theorem skips_literal_nil {text : String} : (literal text).Skips [] := by
  intro c n h
  simp [literal, h.peek_nil]

theorem reads_token {kind : TokenKind} {text : String} :
    (token kind).Reads [(kind, text)] rest (· = text) := by
  intro c n h
  obtain ⟨hk, hv⟩ := h.peek
  refine ⟨text, c.step, ?_, rfl, h.step⟩
  simp only [token, hk, hv, if_true]

theorem skips_token {kind : TokenKind} (hw : w.1 ≠ kind) : (token kind).Skips (w :: ws) := by
  intro c n h
  simp only [token, h.peek.1, hw, if_false]

theorem skips_token_nil {kind : TokenKind} (hkind : kind ≠ .endOfInput) :
    (token kind).Skips [] := by
  intro c n h
  simp only [token, h.peek_nil, hkind.symm, if_false]

/-! ## Sequences -/

theorem Reads.map {f : α → β} (h : p.Reads ws rest P) (hf : ∀ a, P a → Q (f a)) :
    (p.map f).Reads ws rest Q := by
  intro c n hc
  obtain ⟨a, b, hrun, ha, hb⟩ := h hc
  exact ⟨f a, b, by simp only [Rule.map, hrun, Outcome.map], hf a ha, hb⟩

theorem Reads.named {name : String} {build : Position → Position → α → β} (h : p.Reads ws rest P)
    (hbuild : ∀ start stop a, P a → Q (build start stop a)) :
    (Rule.named name p build).Reads ws rest Q := by
  intro c n hc
  obtain ⟨a, b, hrun, ha, hb⟩ := h hc
  exact ⟨_, b, by simp only [Rule.named, hrun], hbuild c.peek.start b.reached a ha, hb⟩

theorem Reads.followedBy (h : p.Reads ws (us ++ rest) P) (hq : q.Reads us rest Q) :
    (p.followedBy q).Reads (ws ++ us) rest fun x => P x.1 ∧ Q x.2 := by
  intro c n hc
  rw [List.append_assoc] at hc
  obtain ⟨a, b, hrun, ha, hb⟩ := h hc
  obtain ⟨a', b', hrun', ha', hb'⟩ := hq hb
  refine ⟨(a, a'), b', by simp only [Rule.followedBy, hrun, hrun'], ⟨ha, ha'⟩, ?_⟩
  rwa [List.length_append, ← Nat.add_assoc]

theorem Skips.map {f : α → β} (h : p.Skips ws) : (p.map f).Skips ws := by
  intro c n hc
  simp only [Rule.map, h hc, Outcome.map]

theorem Skips.named {name : String} {build : Position → Position → α → β} (h : p.Skips ws) :
    (Rule.named name p build).Skips ws := by
  intro c n hc
  simp only [Rule.named, h hc]

theorem Skips.followedBy (h : p.Skips ws) : (p.followedBy q).Skips ws := by
  intro c n hc
  simp only [Rule.followedBy, h hc]

theorem Fails.named {name : String} {build : Position → Position → α → β} (h : p.Fails ws k) :
    (Rule.named name p build).Fails ws k := by
  intro c n hc
  obtain ⟨e, b, hrun, hb⟩ := h hc
  refine ⟨e, b.note e, by simp only [Rule.named, hrun], ?_⟩
  rw [Cursor.note]
  split <;> exact hb

theorem Fails.map {f : α → β} (h : p.Fails ws k) : (p.map f).Fails ws k := by
  intro c n hc
  obtain ⟨e, b, hrun, hb⟩ := h hc
  exact ⟨e, b, by simp only [Rule.map, hrun, Outcome.map], hb⟩

/-- A sequence whose first item was read fails where its remainder does. -/
theorem Reads.followedBy_fails (h : p.Reads ws us P) (hq : q.Fails us k) :
    (p.followedBy q).Fails (ws ++ us) (ws.length + k) := by
  intro c n hc
  obtain ⟨a, b, hrun, -, hb⟩ := h hc
  obtain ⟨e, b', hrun', hb'⟩ := hq hb
  refine ⟨e, b', by simp only [Rule.followedBy, hrun, hrun'], ?_⟩
  rwa [← Nat.add_assoc]

theorem reads_literal_then {kind : TokenKind} {text : String} (hkind : kind ≠ .endOfInput)
    (hq : q.Reads us rest Q) :
    ((literal text).followedBy q).Reads ((kind, text) :: us) rest fun x => Q x.2 := by
  intro c n hc
  obtain ⟨a, b, hrun, ha, hb⟩ := (reads_literal hkind).followedBy hq hc
  exact ⟨a, b, hrun, ha.2, hb⟩

theorem Fails.mono {k' : Nat} (h : p.Fails ws k) (hk : k ≤ k') : p.Fails ws k' := by
  intro c n hc
  obtain ⟨e, b, hrun, hb⟩ := h hc
  exact ⟨e, b, hrun, by omega⟩

/-- Whether or not the literal is there, a remainder that fails early makes the sequence decline. -/
theorem declines_literal_then {text : String} (hq : q.Fails us k) (hk : k < Cursor.lookahead) :
    ((literal text).followedBy q).Declines (w :: us) := by
  obtain ⟨kind, value⟩ := w
  by_cases hvalue : value = text
  · by_cases hkind : kind = .endOfInput
    · refine .inl (Skips.followedBy fun c n hc => ?_)
      simp [literal, hc.peek.1, hkind]
    · subst hvalue
      exact .inr (((reads_literal hkind).followedBy_fails hq).mono (by simp; omega))
  · exact .inl (Skips.followedBy (skips_literal hvalue))

theorem Declines.named {name : String} {build : Position → Position → α → β}
    (h : p.Declines ws) : (Rule.named name p build).Declines ws :=
  h.imp Skips.named Fails.named

theorem Declines.map {f : α → β} (h : p.Declines ws) : (p.map f).Declines ws :=
  h.imp Skips.map Fails.map

/-! ## Choices -/

theorem choiceReads_here (h : p.Reads ws rest P) : ChoiceReads (p :: ps) ws rest P := by
  intro failed depth c n hc
  obtain ⟨a, b, hrun, ha, hb⟩ := h hc
  exact ⟨a, c.accept b, by simp only [firstOf, hrun], ha, hc.accept hb⟩

theorem choiceReads_later (h : p.Declines (ws ++ rest)) (hps : ChoiceReads ps ws rest P) :
    ChoiceReads (p :: ps) ws rest P := by
  intro failed depth c n hc
  rcases h with h | h
  · simp only [firstOf, h hc]
    exact hps failed depth hc
  · obtain ⟨e, b, hrun, hb⟩ := h hc
    obtain ⟨c', habandon, hc'⟩ := hc.abandon e hb
    simp only [firstOf, hrun, habandon]
    split
    · exact hps (Option.some e) b.count hc'
    · exact hps failed depth hc'

theorem reads_choice (h : ChoiceReads ps ws rest P) : (choice ps).Reads ws rest P :=
  fun _ _ hc => h none 0 hc

theorem skips_choice (h : ∀ p ∈ ps, p.Skips ws) : (choice ps).Skips ws := by
  intro c n hc
  show firstOf ps none 0 c = _
  induction ps with
  | nil => rfl
  | cons p ps ih =>
    obtain ⟨hp, hps⟩ := List.forall_mem_cons.mp h
    simp only [firstOf, hp hc]
    exact ih hps

/-! ## Repetitions -/

theorem repeats_nil {R : List α → Prop} (h : p.Declines rest) (hR : R []) :
    p.Repeats [] rest R := by
  intro limit c n hlimit hc
  obtain ⟨limit, rfl⟩ := Nat.exists_eq_succ_of_ne_zero (Nat.ne_of_gt hlimit)
  rcases h with h | h
  · exact ⟨[], c.accept c, by simp only [repeated, h hc], hR, hc.accept hc⟩
  · obtain ⟨e, b, hrun, hb⟩ := h hc
    obtain ⟨c', habandon, hc'⟩ := (hc.note e).abandon e hb
    exact ⟨[], c', by simp only [repeated, hrun, habandon], hR, hc'⟩

theorem repeats_cons {Q R : List α → Prop} (h : p.Reads ws (us ++ rest) P) (hws : ws ≠ [])
    (hrest : p.Repeats us rest Q) (hcons : ∀ a as, P a → Q as → R (a :: as)) :
    p.Repeats (ws ++ us) rest R := by
  intro limit c n hlimit hc
  have hpos := List.length_pos_iff.mpr hws
  rw [List.length_append] at hlimit ⊢
  rw [List.append_assoc] at hc
  obtain ⟨limit, rfl⟩ := Nat.exists_eq_succ_of_ne_zero (Nat.ne_of_gt (Nat.zero_lt_of_lt hlimit))
  obtain ⟨a, b, hrun, ha, hb⟩ := h hc
  obtain ⟨as, b', hrun', has, hb'⟩ := hrest limit (by omega) (hc.accept hb)
  refine ⟨a :: as, b', by simp only [repeated, hrun, hrun'], hcons a as ha has, ?_⟩
  rwa [← Nat.add_assoc]

theorem reads_many {R : List α → Prop} (h : p.Repeats ws rest R) : p.many.Reads ws rest R := by
  intro c n hc
  obtain ⟨as, b, hrun, has, hb⟩ := h _ hc.lt_limit hc
  exact ⟨as, b, by simp only [many, hrun], has, hb⟩

theorem reads_some {R : List α → Prop} (h : p.Repeats ws rest R) (hR : ¬ R []) :
    p.some.Reads ws rest R := by
  intro c n hc
  obtain ⟨as, b, hrun, has, hb⟩ := h _ hc.lt_limit hc
  cases as with
  | nil => exact absurd has hR
  | cons a as => exact ⟨a :: as, b, by simp only [Rule.some, hrun], has, hb⟩

theorem reads_optional (h : p.Reads ws rest P) :
    p.optional.Reads ws rest fun o => ∃ a, o = Option.some a ∧ P a := by
  intro c n hc
  obtain ⟨a, b, hrun, ha, hb⟩ := h hc
  exact ⟨Option.some a, c.accept b, by simp only [optional, repeated, hrun, List.head?_cons],
    ⟨a, rfl, ha⟩, hc.accept hb⟩

theorem reads_optional_none (h : p.Declines rest) : p.optional.Reads [] rest (· = none) := by
  intro c n hc
  obtain ⟨as, b, hrun, rfl, hb⟩ := repeats_nil (R := (· = [])) h rfl 1 Nat.one_pos hc
  exact ⟨none, b, by simp only [optional, hrun, List.head?_nil], rfl, hb⟩

end Rule

namespace Remainder

theorem Reads.andThen (h : p.Reads ws (us ++ rest) P) (hq : q.Reads us rest Q) :
    (Remainder.andThen p q).Reads (ws ++ us) rest fun x => P x.1 ∧ Q x.2 := by
  intro c n hc
  rw [List.append_assoc] at hc
  obtain ⟨a, b, hrun, ha, hb⟩ := h hc
  obtain ⟨a', b', hrun', ha', hb'⟩ := hq hb
  refine ⟨(a, a'), b', by simp only [Remainder.andThen, hrun, hrun'], ⟨ha, ha'⟩, ?_⟩
  rwa [List.length_append, ← Nat.add_assoc]

theorem Reads.andThen_nil (h : p.Reads ws rest P) (hq : q.Reads [] rest Q) :
    (Remainder.andThen p q).Reads ws rest fun x => P x.1 ∧ Q x.2 :=
  List.append_nil ws ▸ Reads.andThen h hq

theorem reads_last (h : p.Reads ws rest P) :
    (Remainder.andThen p .done).Reads ws rest fun x => P x.1 := by
  intro c n hc
  obtain ⟨a, b, hrun, ha, hb⟩ := h hc
  exact ⟨(a, ()), b, by simp only [Remainder.andThen, hrun, Remainder.done], ha, hb⟩

theorem reads_literal_then {kind : TokenKind} {text : String} (hkind : kind ≠ .endOfInput)
    (hq : q.Reads us rest Q) :
    (Remainder.andThen (.literal text) q).Reads ((kind, text) :: us) rest fun x => Q x.2 := by
  intro c n hc
  obtain ⟨a, b, hrun, ha, hb⟩ := Reads.andThen (Rule.reads_literal hkind) hq hc
  exact ⟨a, b, hrun, ha.2, hb⟩

theorem fails_here (h : p.Skips ws) : (Remainder.andThen p q).Fails ws 0 := by
  intro c n hc
  refine ⟨c.unexpected (some (.sequence (p.shape :: q.shapes))), c, ?_, Nat.le_of_eq hc.count⟩
  simp only [Remainder.andThen, h hc]

theorem fails_later (h : p.Reads ws us P) (hq : q.Fails us k) :
    (Remainder.andThen p q).Fails (ws ++ us) (ws.length + k) := by
  intro c n hc
  obtain ⟨a, b, hrun, -, hb⟩ := h hc
  obtain ⟨e, b', hrun', hb'⟩ := hq hb
  refine ⟨e, b', by simp only [Remainder.andThen, hrun, hrun'], ?_⟩
  rwa [← Nat.add_assoc]

end Remainder

end

end DefFlow.Syntax
