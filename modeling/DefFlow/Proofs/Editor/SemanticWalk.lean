import DefFlow.Editor.SemanticToken
import DefFlow.Syntax.Grammar
import DefFlow.Proofs.Syntax.Places
import Mathlib.Data.List.Forall2

/-!
# Where semantic tokens lie

`RuleDraws p ts` says that the semantic tokens `ts` of whatever the rule `p` gives lie on tokens
that the rule has read, in the same order. Main statement: so do those of a file.
-/

set_option autoImplicit false

namespace DefFlow.Editor.SemanticToken

open Syntax

/-! ## Tokens that lie on tokens of the text -/

structure LiesOn (u : Token) (t : SemanticToken) : Prop where
  line : t.line = UInt32.ofNat (u.start.line - 1)
  start : t.start = UInt32.ofNat (u.start.column - 1)
  width : u.kind = .comment ∨ u.start.column + t.length.toNat ≤ u.stop.column

def LieOn (us : List Token) (ts : List SemanticToken) : Prop :=
  ∃ vs, vs.Sublist us ∧ List.Forall₂ LiesOn vs ts

section

variable {us vs : List Token} {u : Token} {ts rest : List SemanticToken} {n : Nat}

theorem LieOn.nil (us : List Token) : LieOn us [] := ⟨[], List.nil_sublist us, .nil⟩

theorem LieOn.append (h : LieOn us ts) (h' : LieOn vs rest) : LieOn (us ++ vs) (ts ++ rest) := by
  obtain ⟨us', hus, hts⟩ := h
  obtain ⟨vs', hvs, hrest⟩ := h'
  exact ⟨us' ++ vs', hus.append hvs, List.rel_append hts hrest⟩

theorem lieOn_make (h : u.kind = .comment ∨ u.start.column + n ≤ u.stop.column)
    (kind : TokenClass) (declares : Bool) : LieOn [u] (make u.start n kind declares) := by
  rw [make]
  split
  · exact .nil [u]
  · refine ⟨[u], .refl [u], .cons ⟨rfl, rfl, h.imp_right fun h => ?_⟩ .nil⟩
    have hmod : (UInt32.ofNat n).toNat ≤ n := Nat.mod_le n _
    exact Nat.le_trans (Nat.add_le_add_left hmod _) h

theorem lieOn_word (hu : u.Placed) (h : u.value.utf8ByteSize = u.value.length) (kind : TokenClass)
    (declares : Bool) : LieOn [u] (make u.start u.value.utf8ByteSize kind declares) :=
  lieOn_make (.inr (h ▸ hu.width)) kind declares

end

/-! ## Rules -/

structure Ready (c : Cursor) : Prop where
  placed : ∀ t ∈ c.rest, t.Placed
  finish : c.finish.kind = .endOfInput

def Past (c : Cursor) (us : List Token) (b : Cursor) : Prop :=
  c.rest = us ++ b.rest ∧ b.finish = c.finish

section

variable {c b d : Cursor} {us vs : List Token} {t : Token}

theorem Past.refl (c : Cursor) : Past c [] c := ⟨rfl, rfl⟩

theorem Past.ready (h : Past c us b) (hc : Ready c) : Ready b :=
  ⟨fun t ht => hc.placed t (h.1 ▸ List.mem_append_right us ht), h.2 ▸ hc.finish⟩

theorem Past.trans (h : Past c us b) (h' : Past b vs d) : Past c (us ++ vs) d :=
  ⟨by rw [h.1, h'.1, List.append_assoc], h'.2.trans h.2⟩

theorem Past.peek (h : Past c [] b) : b.peek = c.peek := by
  rw [Cursor.peek, Cursor.peek, h.2, h.1]
  rfl

theorem Past.accept (h : Past c us b) : Past c us (c.accept b) := by
  rw [Cursor.accept]
  split <;> exact ⟨h.1, rfl⟩

theorem past_note (c : Cursor) (e : SyntaxError) : Past c [] (c.note e) := by
  rw [Cursor.note]
  split <;> exact ⟨rfl, rfl⟩

theorem past_abandon {e : SyntaxError} (h : c.abandon e b = (false, d)) : Past c [] d := by
  rw [Cursor.abandon] at h
  split at h
  · cases h
  · cases h
    split
    · exact ⟨rfl, rfl⟩
    split
    · exact ⟨rfl, rfl⟩
    · exact .refl c

theorem Ready.step (hc : Ready c) (hpeek : c.peek.kind ≠ .endOfInput) :
    c.peek.Placed ∧ Past c [c.peek] c.step := by
  rw [Cursor.peek] at hpeek ⊢
  rw [Cursor.step]
  cases hrest : c.rest with
  | nil =>
    rw [hrest] at hpeek
    exact absurd hc.finish hpeek
  | cons t rest =>
    exact ⟨hc.placed t (hrest ▸ List.mem_cons_self), hrest, rfl⟩

end

section

variable {α β : Type}

def Draws (c : Cursor) (ts : α → List SemanticToken) : Outcome α × Cursor → Prop
  | (.absent, b) => ∃ us, Past c us b
  | (.ok a, b) => ∃ us, Past c us b ∧ LieOn us (ts a)
  | (.fail _, _) => True

def DrawsRest (c : Cursor) (ts : α → List SemanticToken) : Except SyntaxError α × Cursor → Prop
  | (.ok a, b) => ∃ us, Past c us b ∧ LieOn us (ts a)
  | (.error _, _) => True

def RuleDraws (p : Rule α) (ts : Position → α → List SemanticToken) : Prop :=
  ∀ c : Cursor, Ready c → Draws c (ts c.peek.start) (p.run c)

def RemainderDraws (q : Remainder α) (ts : α → List SemanticToken) : Prop :=
  ∀ c : Cursor, Ready c → DrawsRest c ts (q.run c)

theorem Draws.behind {c d : Cursor} {ts : α → List SemanticToken} {r : Outcome α × Cursor}
    (h : Draws d ts r) (hd : Past c [] d) : Draws c ts r := by
  rcases r with ⟨_ | a | e, b⟩
  · exact h.imp fun _ => hd.trans
  · exact h.imp fun _ h => ⟨hd.trans h.1, h.2⟩
  · trivial

variable {p : Rule α} {q : Remainder β} {ps : List (Rule α)}
  {g : Position → α → List SemanticToken} {ta : α → List SemanticToken}
  {tq : β → List SemanticToken}

theorem draws_token {k : TokenKind} (hk : k ≠ .endOfInput)
    {ts : Position → String → List SemanticToken}
    (hts : ∀ u : Token, u.Placed → u.kind = k → LieOn [u] (ts u.start u.value)) :
    RuleDraws (.token k) ts := by
  intro c hc
  simp only [Rule.token]
  split
  · next hpeek =>
    obtain ⟨hplaced, hpast⟩ := hc.step (hpeek ▸ hk)
    exact ⟨_, hpast, hts _ hplaced hpeek⟩
  · exact ⟨[], .refl c⟩

theorem draws_literal {text : String} {ts : Position → List SemanticToken}
    (hts : ∀ u : Token, u.Placed → u.value = text → LieOn [u] (ts u.start)) :
    RuleDraws (.literal text) fun start _ => ts start := by
  intro c hc
  simp only [Rule.literal]
  split
  · next hpeek =>
    rw [Bool.and_eq_true, decide_eq_true_eq, decide_eq_true_eq] at hpeek
    obtain ⟨hplaced, hpast⟩ := hc.step hpeek.1
    exact ⟨_, hpast, hts _ hplaced hpeek.2⟩
  · exact ⟨[], .refl c⟩

theorem draws_mark (text : String) : RuleDraws (.literal text) fun _ _ => [] :=
  draws_literal fun u _ _ => .nil [u]

theorem draws_word {text : String} (htext : text.utf8ByteSize = text.length) (kind : TokenClass) :
    RuleDraws (.literal text) fun start _ => word start text kind := by
  refine draws_literal fun u hu hvalue => ?_
  subst hvalue
  exact lieOn_word hu htext kind false

theorem RuleDraws.map {f : α → β} {ts : Position → β → List SemanticToken} (h : RuleDraws p g)
    (hts : ∀ start a, ts start (f a) = g start a) : RuleDraws (p.map f) ts := by
  intro c hc
  have hrun := h c hc
  show Draws c _ ((p.run c).1.map f, (p.run c).2)
  rcases hr : p.run c with ⟨_ | a | e, b⟩ <;> rw [hr] at hrun
  · exact hrun
  · obtain ⟨us, hpast, hlie⟩ := hrun
    exact ⟨us, hpast, hts _ a ▸ hlie⟩
  · trivial

theorem RuleDraws.named {name : String} {build : Position → Position → α → β}
    {ts : β → List SemanticToken} (h : RuleDraws p g)
    (hts : ∀ start stop a, ts (build start stop a) = g start a) :
    RuleDraws (.named name p build) fun _ => ts := by
  intro c hc
  have hrun := h c hc
  simp only [Rule.named]
  rcases hr : p.run c with ⟨_ | a | e, b⟩ <;> rw [hr] at hrun
  · exact hrun
  · obtain ⟨us, hpast, hlie⟩ := hrun
    exact ⟨us, hpast, (hts _ _ a).symm ▸ hlie⟩
  · trivial

theorem RuleDraws.followedBy (h : RuleDraws p g) (hq : RemainderDraws q tq) :
    RuleDraws (p.followedBy q) fun start x => g start x.1 ++ tq x.2 := by
  intro c hc
  have hrun := h c hc
  simp only [Rule.followedBy]
  rcases hr : p.run c with ⟨_ | a | e, b⟩ <;> rw [hr] at hrun
  · exact hrun
  · obtain ⟨us, hpast, hlie⟩ := hrun
    have hrest := hq b (hpast.ready hc)
    dsimp only
    rcases hr' : q.run b with ⟨e | a', b'⟩ <;> rw [hr'] at hrest
    · trivial
    · obtain ⟨vs, hpast', hlie'⟩ := hrest
      exact ⟨us ++ vs, hpast.trans hpast', hlie.append hlie'⟩
  · trivial

theorem remainderDraws_done : RemainderDraws .done fun _ => [] :=
  fun c _ => ⟨[], .refl c, .nil []⟩

theorem RemainderDraws.andThen (h : RuleDraws p fun _ => ta) (hq : RemainderDraws q tq) :
    RemainderDraws (.andThen p q) fun x => ta x.1 ++ tq x.2 := by
  intro c hc
  have hrun := h c hc
  simp only [Remainder.andThen]
  rcases hr : p.run c with ⟨_ | a | e, b⟩ <;> rw [hr] at hrun
  · trivial
  · obtain ⟨us, hpast, hlie⟩ := hrun
    have hrest := hq b (hpast.ready hc)
    dsimp only
    rcases hr' : q.run b with ⟨e | a', b'⟩ <;> rw [hr'] at hrest
    · trivial
    · obtain ⟨vs, hpast', hlie'⟩ := hrest
      exact ⟨us ++ vs, hpast.trans hpast', hlie.append hlie'⟩
  · trivial

/-- An alternative that is given up leaves the next one where it was. -/
theorem draws_firstOf (h : ∀ p ∈ ps, RuleDraws p g) (failed : Option SyntaxError) (depth : Nat)
    {c : Cursor} (hc : Ready c) :
    Draws c (g c.peek.start) (Rule.firstOf ps failed depth c) := by
  induction ps generalizing failed depth c with
  | nil =>
    cases failed with
    | none => exact ⟨[], .refl c⟩
    | some e => trivial
  | cons p ps ih =>
    obtain ⟨hp, hps⟩ := List.forall_mem_cons.mp h
    have hrun := hp c hc
    simp only [Rule.firstOf]
    rcases hr : p.run c with ⟨_ | a | e, b⟩ <;> rw [hr] at hrun
    · exact ih hps failed depth hc
    · obtain ⟨us, hpast, hlie⟩ := hrun
      exact ⟨us, hpast.accept, hlie⟩
    · dsimp only
      rcases hab : c.abandon e b with ⟨_ | _, d⟩
      · have hpast := past_abandon hab
        have hnext : ∀ failed depth, Draws c (g c.peek.start) (Rule.firstOf ps failed depth d) := by
          intro failed depth
          have hd := ih hps failed depth (hpast.ready hc)
          rw [hpast.peek] at hd
          exact hd.behind hpast
        dsimp only
        split
        · exact hnext _ _
        · exact hnext _ _
      · trivial

theorem draws_choice (h : ∀ p ∈ ps, RuleDraws p g) : RuleDraws (.choice ps) g :=
  fun _ hc => draws_firstOf h none 0 hc

theorem draws_repeated (h : RuleDraws p fun _ => ta) : ∀ (limit : Nat) {c : Cursor}, Ready c →
    DrawsRest c (·.flatMap ta) (Rule.repeated p limit c)
  | 0, c, _ => ⟨[], .refl c, .nil []⟩
  | limit + 1, c, hc => by
    have hrun := h c hc
    simp only [Rule.repeated]
    rcases hr : p.run c with ⟨_ | a | e, b⟩ <;> rw [hr] at hrun
    · obtain ⟨us, hpast⟩ := hrun
      exact ⟨us, hpast.accept, .nil us⟩
    · obtain ⟨us, hpast, hlie⟩ := hrun
      have hrest := draws_repeated h limit (hpast.accept.ready hc)
      dsimp only
      rcases hr' : Rule.repeated p limit (c.accept b) with ⟨e | as, b'⟩ <;> rw [hr'] at hrest
      · trivial
      · obtain ⟨vs, hpast', hlie'⟩ := hrest
        exact ⟨us ++ vs, hpast.accept.trans hpast', hlie.append hlie'⟩
    · dsimp only
      rcases hab : (c.note e).abandon e b with ⟨_ | _, d⟩
      · exact ⟨[], (past_note c e).trans (past_abandon hab), .nil []⟩
      · trivial

theorem draws_many (h : RuleDraws p fun _ => ta) :
    RuleDraws p.many fun _ as => as.flatMap ta := by
  intro c hc
  have hrun := draws_repeated h (c.rest.length + 1) hc
  simp only [Rule.many]
  rcases hr : Rule.repeated p (c.rest.length + 1) c with ⟨e | as, b⟩ <;> rw [hr] at hrun
  · trivial
  · exact hrun

theorem draws_some (h : RuleDraws p fun _ => ta) :
    RuleDraws p.some fun _ as => as.flatMap ta := by
  intro c hc
  have hrun := draws_repeated h (c.rest.length + 1) hc
  simp only [Rule.some]
  rcases hr : Rule.repeated p (c.rest.length + 1) c with ⟨e | _ | ⟨a, as⟩, b⟩ <;> rw [hr] at hrun
  · trivial
  · exact hrun.imp fun _ => And.left
  · exact hrun

theorem length_le_of_repeated : ∀ {limit : Nat} {c b : Cursor} {as : List α},
    Rule.repeated p limit c = (.ok as, b) → as.length ≤ limit
  | 0, _, _, _, h => by
    cases h
    exact Nat.le_refl 0
  | limit + 1, c, b, as, h => by
    simp only [Rule.repeated] at h
    rcases hr : p.run c with ⟨_ | a | e, d⟩ <;> rw [hr] at h
    · cases h
      exact Nat.zero_le _
    · dsimp only at h
      rcases hr' : Rule.repeated p limit (c.accept d) with ⟨e | rest, d'⟩ <;> rw [hr'] at h <;>
        cases h
      exact Nat.succ_le_succ (length_le_of_repeated hr')
    · dsimp only at h
      rcases hab : (c.note e).abandon e d with ⟨_ | _, d'⟩ <;> rw [hab] at h <;> cases h
      exact Nat.zero_le _

theorem draws_optional (h : RuleDraws p fun _ => ta) :
    RuleDraws p.optional fun _ o => o.toList.flatMap ta := by
  intro c hc
  have hrun := draws_repeated h 1 hc
  simp only [Rule.optional]
  rcases hr : Rule.repeated p 1 c with ⟨e | as, b⟩ <;> rw [hr] at hrun
  · trivial
  · have hlen := length_le_of_repeated hr
    match as, hlen with
    | [], _ => exact hrun
    | [a], _ => exact hrun

theorem draws_separated (h : RuleDraws p fun _ => ta) :
    RuleDraws p.separated fun _ as => as.flatMap ta := by
  refine (h.followedBy (.andThen (draws_many ((draws_mark ",").followedBy
    (.andThen h remainderDraws_done))) remainderDraws_done)).map ?_
  rintro _ ⟨a, rest, _⟩
  simp [List.flatMap_map]

end

/-! ## The grammar -/

open Grammar

theorem draws_name (kind : TokenClass) (declares : Bool) :
    RuleDraws Grammar.name fun _ n => ofName n kind declares := by
  refine RuleDraws.named (g := fun start text => make start text.utf8ByteSize kind declares)
    (draws_token (by decide) fun u hu hident => ?_) fun _ _ _ => rfl
  have hsound := hu.sound
  rw [Token.symbol, hident] at hsound
  exact lieOn_word hu (IsIdent.utf8ByteSize hsound) kind declares

theorem draws_param (kind : TokenClass) : RuleDraws param fun _ => ofParam kind := by
  refine ((draws_name kind true).followedBy (.andThen (draws_mark ":")
    (.andThen (draws_name .type false) remainderDraws_done))).named ?_
  rintro _ _ ⟨n, _, t, _⟩
  simp [ofParam]

theorem draws_params (kind : TokenClass) :
    RuleDraws params fun _ ps => ps.flatMap (ofParam kind) := by
  refine (draws_optional (draws_separated (draws_param kind))).map ?_
  rintro _ (_ | ps) <;> simp

/-- A truth value is read before a name, also where it is quoted. -/
theorem draws_operand : RuleDraws operand fun _ => ofOperand := by
  refine RuleDraws.named (g := fun start value => ofOperand ⟨start, start, value⟩)
    (draws_choice ?_) fun _ _ _ => rfl
  simp only [List.forall_mem_cons, List.not_mem_nil, false_imp_iff, implies_true, and_true]
  refine ⟨draws_choice ?_, RuleDraws.map (g := fun start text => word start text .number)
    (draws_token (by decide) fun u hu hinteger => ?_) fun _ _ => rfl,
    RuleDraws.map (g := fun start text => word start text .binding)
    (draws_token (by decide) fun u hu hident => ?_) fun _ _ => rfl⟩
  · simp only [List.forall_mem_cons, List.not_mem_nil, false_imp_iff, implies_true, and_true]
    exact ⟨(draws_word (by decide) .keyword).map fun _ _ => rfl,
      (draws_word (by decide) .keyword).map fun _ _ => rfl⟩
  · have hsound := hu.sound
    rw [Token.symbol, hinteger] at hsound
    exact lieOn_word hu (IsInteger.utf8ByteSize hsound) .number false
  · have hsound := hu.sound
    rw [Token.symbol, hident] at hsound
    exact lieOn_word hu (IsIdent.utf8ByteSize hsound) .binding false

theorem draws_inst : RuleDraws inst fun _ => ofInst := by
  refine ((draws_name .operator false).followedBy (.andThen
    (draws_optional (draws_separated draws_operand))
    (.andThen (draws_mark ";") remainderDraws_done))).named ?_
  rintro _ _ ⟨op, _ | os, _⟩ <;> simp [ofInst]

theorem draws_comment : RuleDraws comment fun _ x => word x.1 x.2 .comment :=
  RuleDraws.named (g := fun start text => word start text .comment)
    (draws_token (by decide) fun _ _ hcomment => lieOn_make (.inl hcomment) .comment false)
    fun _ _ _ => rfl

theorem draws_declare : RuleDraws declare fun _ => ofStatement := by
  refine ((draws_word (by decide) .keyword).followedBy (.andThen (draws_name .binding true)
    (.andThen (draws_mark ":") (.andThen (draws_name .type false)
      (.andThen (draws_mark ";") remainderDraws_done))))).named ?_
  rintro _ _ ⟨_, n, _, t, _⟩
  simp [ofStatement]

theorem draws_assign : RuleDraws assign fun _ => ofStatement := by
  refine ((draws_name .binding false).followedBy (.andThen (draws_mark "=")
    (.andThen draws_inst remainderDraws_done))).named ?_
  rintro _ _ ⟨dest, _, i, _⟩
  simp [ofStatement]

theorem ofBlocks_eq (bs : List Block) : ofBlocks bs = bs.flatMap ofBlock := by
  induction bs with
  | nil => rfl
  | cons b bs ih => rw [ofBlocks, ih, List.flatMap_cons]

theorem ofStatements_eq (l : List Statement) : ofStatements l = l.flatMap ofStatement := by
  induction l with
  | nil => rfl
  | cons s l ih => rw [ofStatements, ih, List.flatMap_cons]

theorem ofOptional_eq (o : Option Block) : ofOptional o = o.toList.flatMap ofBlock := by
  cases o with
  | none => rfl
  | some b => simp [ofOptional]

section

variable {p : Rule Block}

theorem draws_clause (h : RuleDraws p fun _ => ofBlock) (keyword : String) :
    RuleDraws (clause keyword p) fun _ => ofBlock := by
  refine ((draws_mark keyword).followedBy (.andThen h remainderDraws_done)).map ?_
  rintro _ ⟨_, b, _⟩
  simp

theorem draws_branch (h : RuleDraws p fun _ => ofBlock) :
    RuleDraws (branch p) fun _ => ofStatement := by
  refine ((draws_word (by decide) .keyword).followedBy (.andThen h (.andThen (draws_mark "then")
    (.andThen h (.andThen (draws_optional (draws_clause h "else")) remainderDraws_done))))).named ?_
  rintro _ _ ⟨_, cond, _, yes, no, _⟩
  simp [ofStatement, ofOptional_eq]

theorem draws_select (h : RuleDraws p fun _ => ofBlock) :
    RuleDraws (select p) fun _ => ofStatement := by
  refine ((draws_word (by decide) .keyword).followedBy (.andThen h
    (.andThen (draws_some (draws_clause h "case")) remainderDraws_done))).named ?_
  rintro _ _ ⟨_, cond, cases, _⟩
  simp [ofStatement, ofBlocks_eq]

theorem draws_whileLoop (h : RuleDraws p fun _ => ofBlock) :
    RuleDraws (whileLoop p) fun _ => ofStatement := by
  refine ((draws_word (by decide) .keyword).followedBy (.andThen h (.andThen (draws_mark "do")
    (.andThen h (.andThen (draws_optional (draws_clause h "step")) remainderDraws_done))))).named ?_
  rintro _ _ ⟨_, cond, _, body, advance, _⟩
  simp [ofStatement, ofOptional_eq]

theorem draws_forLoop (h : RuleDraws p fun _ => ofBlock) :
    RuleDraws (forLoop p) fun _ => ofStatement := by
  refine ((draws_word (by decide) .keyword).followedBy (.andThen h (.andThen (draws_mark "while")
    (.andThen h (.andThen (draws_mark "do") (.andThen h (.andThen (draws_mark "step")
      (.andThen h remainderDraws_done)))))))).named ?_
  rintro _ _ ⟨_, init, _, cond, _, body, _, advance, _⟩
  simp [ofStatement]

theorem draws_statement (h : RuleDraws p fun _ => ofBlock) :
    RuleDraws (statement p) fun _ => ofStatement := by
  refine RuleDraws.named (g := fun _ => ofStatement) (draws_choice ?_) fun _ _ _ => rfl
  simp only [List.forall_mem_cons, List.not_mem_nil, false_imp_iff, implies_true, and_true]
  refine ⟨draws_comment.map ?_, draws_declare, draws_branch h, draws_select h, draws_whileLoop h,
    draws_forLoop h, h.map ?_, draws_assign, draws_inst.map ?_⟩
  · exact fun _ _ => by rw [ofStatement]
  · exact fun _ _ => by rw [ofStatement]
  · exact fun _ _ => by rw [ofStatement]

end

theorem draws_block : ∀ depth : Nat, RuleDraws (block depth) fun _ => ofBlock
  | 0 => fun c _ => ⟨[], .refl c⟩
  | depth + 1 => by
    refine ((draws_mark "\x7b").followedBy (.andThen
      (draws_many (draws_statement (draws_block depth)))
      (.andThen (draws_mark "\x7d") remainderDraws_done))).named ?_
    rintro _ _ ⟨_, l, _⟩
    simp [ofBlock, ofStatements_eq]

theorem draws_returns : RuleDraws returns fun _ ps => ps.flatMap (ofParam .binding) := by
  refine (draws_optional ((draws_mark "->").followedBy (.andThen (draws_mark "(")
    (.andThen (draws_params .binding) (.andThen (draws_mark ")") remainderDraws_done))))).map ?_
  rintro _ (_ | ⟨_, _, ps, _⟩) <;> simp

theorem draws_function (depth : Nat) : RuleDraws (function depth) fun _ => ofFunction := by
  refine ((draws_word (by decide) .keyword).followedBy (.andThen (draws_name .function true)
    (.andThen (draws_mark "(") (.andThen (draws_params .parameter) (.andThen (draws_mark ")")
      (.andThen draws_returns (.andThen (draws_block depth) remainderDraws_done))))))).named ?_
  rintro _ _ ⟨_, n, _, ps, _, rs, body, _⟩
  simp [ofFunction]

theorem draws_version : RuleDraws version fun _ => ofElement := by
  have hvalue : RuleDraws (.token .string) fun _ _ => [] :=
    draws_token (by decide) fun u _ _ => .nil [u]
  refine ((draws_word (by decide) .keyword).followedBy (.andThen hvalue
    (.andThen (draws_mark ";") remainderDraws_done))).named ?_
  rintro _ _ ⟨_, value, _⟩
  simp [ofElement]

theorem draws_element (depth : Nat) : RuleDraws (element depth) fun _ => ofElement := by
  refine RuleDraws.named (g := fun _ => ofElement) (draws_choice ?_) fun _ _ _ => rfl
  simp only [List.forall_mem_cons, List.not_mem_nil, false_imp_iff, implies_true, and_true]
  exact ⟨draws_comment.map fun _ _ => rfl, draws_version,
    (draws_function depth).map fun _ _ => rfl⟩

theorem draws_file (depth : Nat) :
    RuleDraws (file depth) fun _ f => f.elements.flatMap ofElement :=
  (draws_many (draws_element depth)).named fun _ _ _ => rfl

end DefFlow.Editor.SemanticToken
