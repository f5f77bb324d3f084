import DefFlow.Syntax.Layout
import DefFlow.Proofs.Syntax.Symbols

/-!
# The symbols of a written tree

Each syntax tree has its symbols. A tree is writable when its names, numbers and comments have the
form of such symbols, no operand is named like a truth value, a selection has a case, and no version
has a double quote in it. The canonical layout of a writable tree is cut into the symbols of the
tree.
-/

set_option autoImplicit false

namespace DefFlow.Syntax

/-! ## The symbols of a tree -/

def Name.symbol (n : Name) : Symbol := (.ident, n.text)

def keyword (text : String) : Symbol := (.ident, text)

def mark (text : String) : Symbol := (.punctuation, text)

def separatedSymbols {α : Type} (symbols : α → List Symbol) : List α → List Symbol
  | [] => []
  | a :: rest => symbols a ++ rest.flatMap fun b => mark "," :: symbols b

def Param.symbols (p : Param) : List Symbol := [p.name.symbol, mark ":", p.type.symbol]

def OperandValue.symbol : OperandValue → Symbol
  | .bool true => keyword "true"
  | .bool false => keyword "false"
  | .integer digits => (.integer, digits)
  | .name text => (.ident, text)

def Operand.symbols (o : Operand) : List Symbol := [o.value.symbol]

def Inst.symbols (i : Inst) : List Symbol :=
  i.op.symbol :: (separatedSymbols Operand.symbols i.operands ++ [mark ";"])

mutual
def Statement.symbols : Statement → List Symbol
  | .comment _ text => [(.comment, text)]
  | .declare _ name type => [keyword "var", name.symbol, mark ":", type.symbol, mark ";"]
  | .branch _ cond yes none => keyword "if" :: (cond.symbols ++ keyword "then" :: yes.symbols)
  | .branch _ cond yes (some no) =>
    keyword "if" :: (cond.symbols ++ keyword "then" :: (yes.symbols ++
      keyword "else" :: no.symbols))
  | .select _ cond cases => keyword "switch" :: (cond.symbols ++ casesSymbols cases)
  | .whileLoop _ cond body none => keyword "while" :: (cond.symbols ++ keyword "do" :: body.symbols)
  | .whileLoop _ cond body (some advance) =>
    keyword "while" :: (cond.symbols ++ keyword "do" :: (body.symbols ++
      keyword "step" :: advance.symbols))
  | .forLoop _ init cond body advance =>
    keyword "for" :: (init.symbols ++ keyword "while" :: (cond.symbols ++ keyword "do" ::
      (body.symbols ++ keyword "step" :: advance.symbols)))
  | .nested block => block.symbols
  | .assign _ dest inst => dest.symbol :: mark "=" :: inst.symbols
  | .plain inst => inst.symbols

def Block.symbols : Block → List Symbol
  | .mk _ _ statements => mark "\x7b" :: (statementsSymbols statements ++ [mark "\x7d"])

def casesSymbols : List Block → List Symbol
  | [] => []
  | b :: rest => keyword "case" :: (b.symbols ++ casesSymbols rest)

def statementsSymbols : List Statement → List Symbol
  | [] => []
  | s :: rest => s.symbols ++ statementsSymbols rest
end

def returnsSymbols : List Param → List Symbol
  | [] => []
  | returns => (.arrow, "->") :: mark "(" :: (separatedSymbols Param.symbols returns ++ [mark ")"])

def Function.symbols (f : Function) : List Symbol :=
  keyword "func" :: f.name.symbol :: mark "(" :: (separatedSymbols Param.symbols f.params ++
    mark ")" :: (returnsSymbols f.returns ++ f.body.symbols))

def Element.symbols : Element → List Symbol
  | .comment _ text => [(.comment, text)]
  | .version _ value => [keyword "version", (.string, value), mark ";"]
  | .function f => f.symbols

def File.symbols (file : File) : List Symbol := file.elements.flatMap Element.symbols

/-! ## Writable trees -/

def Name.Writable (n : Name) : Prop := IsIdent n.text.toList

def Param.Writable (p : Param) : Prop := p.name.Writable ∧ p.type.Writable

def OperandValue.Writable : OperandValue → Prop
  | .bool _ => True
  | .integer digits => IsInteger digits.toList
  | .name text => IsIdent text.toList ∧ text ≠ "true" ∧ text ≠ "false"

def Inst.Writable (i : Inst) : Prop := i.op.Writable ∧ ∀ o ∈ i.operands, o.value.Writable

mutual
def Statement.Writable : Statement → Prop
  | .comment _ text => IsComment text.toList
  | .declare _ name type => name.Writable ∧ type.Writable
  | .branch _ cond yes none => cond.Writable ∧ yes.Writable
  | .branch _ cond yes (some no) => cond.Writable ∧ yes.Writable ∧ no.Writable
  | .select _ cond cases => cond.Writable ∧ cases ≠ [] ∧ CasesWritable cases
  | .whileLoop _ cond body none => cond.Writable ∧ body.Writable
  | .whileLoop _ cond body (some advance) => cond.Writable ∧ body.Writable ∧ advance.Writable
  | .forLoop _ init cond body advance =>
    init.Writable ∧ cond.Writable ∧ body.Writable ∧ advance.Writable
  | .nested block => block.Writable
  | .assign _ dest inst => dest.Writable ∧ inst.Writable
  | .plain inst => inst.Writable

def Block.Writable : Block → Prop
  | .mk _ _ statements => StatementsWritable statements

def CasesWritable : List Block → Prop
  | [] => True
  | b :: rest => b.Writable ∧ CasesWritable rest

def StatementsWritable : List Statement → Prop
  | [] => True
  | s :: rest => s.Writable ∧ StatementsWritable rest
end

theorem casesWritable_iff (cases : List Block) : CasesWritable cases ↔ ∀ b ∈ cases, b.Writable := by
  induction cases with
  | nil => simp [CasesWritable]
  | cons b cases ih => rw [CasesWritable, ih, List.forall_mem_cons]

theorem statementsWritable_iff (statements : List Statement) :
    StatementsWritable statements ↔ ∀ s ∈ statements, s.Writable := by
  induction statements with
  | nil => simp [StatementsWritable]
  | cons s statements ih => rw [StatementsWritable, ih, List.forall_mem_cons]

structure Function.Writable (f : Function) : Prop where
  name : f.name.Writable
  params : ∀ p ∈ f.params, p.Writable
  returns : ∀ p ∈ f.returns, p.Writable
  body : f.body.Writable

def Element.Writable : Element → Prop
  | .comment _ text => IsComment text.toList
  | .version _ value => '"' ∉ value.toList
  | .function f => f.Writable

def File.Writable (file : File) : Prop := ∀ e ∈ file.elements, e.Writable

/-! ## Layout -/

section

variable {rest : List Char} {ws : List Symbol}

theorem Ends.cons {c : Char} (hc : Lexeme.isIdentRest c = false) (rest : List Char) :
    Ends (c :: rest) := by
  intro d hd
  cases hd
  exact hc

theorem Scans.gap {s : String} (d : Char) (hs : s.toList = [d]) (hd : Lexeme.isBlank d)
    (h : Scans rest ws) : Scans (s.toList ++ rest) ws := by
  rw [hs]
  exact .skip hd h

theorem Scans.mark {s : String} (c : Char) (hs : s.toList = [c]) (hc : Lexeme.isPunctuation c)
    (h : Scans rest ws) : Scans (s.toList ++ rest) ((.punctuation, String.ofList [c]) :: ws) := by
  rw [hs]
  exact .punctuation hc h

theorem Scans.markBlank {s : String} (c d : Char) (hs : s.toList = [c, d])
    (hc : Lexeme.isPunctuation c) (hd : Lexeme.isBlank d) (h : Scans rest ws) :
    Scans (s.toList ++ rest) ((.punctuation, String.ofList [c]) :: ws) := by
  rw [hs]
  exact .punctuation hc (.skip hd h)

theorem Scans.keyword {s : String} (text : String) (hs : s.toList = text.toList ++ [' '])
    (htext : IsIdent text.toList) (h : Scans rest ws) :
    Scans (s.toList ++ rest) (keyword text :: ws) := by
  rw [hs, List.append_assoc]
  exact .ident htext (.cons rfl _) (.skip rfl h)

theorem Scans.clause {s : String} (text : String) (hs : s.toList = ' ' :: text.toList ++ [' '])
    (htext : IsIdent text.toList) (h : Scans rest ws) :
    Scans (s.toList ++ rest) (DefFlow.Syntax.keyword text :: ws) := by
  rw [hs, List.append_assoc, List.cons_append]
  exact .skip rfl (.ident htext (.cons rfl _) (.skip rfl h))

end

def Spells (text : String) (ws : List Symbol) : Prop :=
  ∀ ⦃rest us⦄, Scans rest us → Scans (text.toList ++ rest) (ws ++ us)

def SpellsItem (text : String) (ws : List Symbol) : Prop :=
  ∀ ⦃rest us⦄, Ends rest → Scans rest us → Scans (text.toList ++ rest) (ws ++ us)

theorem Param.spells {p : Param} (h : p.Writable) : SpellsItem p.text p.symbols := by
  intro rest us hrest hscan
  rw [Param.text, String.toList_append, String.toList_append, List.append_assoc, List.append_assoc]
  exact .ident h.1 (.cons rfl _) (.markBlank ':' ' ' rfl rfl rfl (.ident h.2 hrest hscan))

theorem OperandValue.spells {v : OperandValue} (h : v.Writable) : SpellsItem v.text [v.symbol] := by
  intro rest us hrest hscan
  cases v with
  | bool value => cases value <;> exact .ident (by decide) hrest hscan
  | integer digits => exact .integer h hrest hscan
  | name text => exact .ident h.1 hrest hscan

/-- A list of items is spelled by commas between the spellings of the items. -/
theorem separated_spells {α : Type} {text : α → String} {symbols : α → List Symbol} :
    ∀ (l : List α), (∀ a ∈ l, SpellsItem (text a) (symbols a)) →
      SpellsItem (", ".intercalate (l.map text)) (separatedSymbols symbols l)
  | [], _, _, _, _, hscan => hscan
  | [a], h, rest, us, hrest, hscan => by
    rw [List.map_singleton, String.intercalate_singleton, separatedSymbols, List.flatMap_nil,
      List.append_nil]
    exact h a (by simp) hrest hscan
  | a :: b :: l, h, rest, us, hrest, hscan => by
    have hl : ∀ c ∈ b :: l, SpellsItem (text c) (symbols c) := fun c hc =>
      h c (List.mem_cons_of_mem a hc)
    have htail := separated_spells (b :: l) hl hrest hscan
    rw [separatedSymbols, List.append_assoc] at htail
    rw [List.map_cons, List.map_cons, String.intercalate_cons_cons, ← List.map_cons,
      String.toList_append, String.toList_append, separatedSymbols, List.flatMap_cons]
    simp only [List.append_assoc, List.cons_append]
    exact h a (by simp) (.cons rfl _) (.markBlank ',' ' ' rfl rfl rfl htail)

theorem Inst.spells : ∀ {i : Inst}, i.Writable → Spells i.text i.symbols
  | ⟨_, op, []⟩, h, rest, us, hscan => by
    rw [Inst.text, String.toList_append, List.append_assoc]
    exact .ident h.1 (.cons rfl _) (.mark ';' rfl rfl hscan)
  | ⟨_, op, o :: os⟩, h, rest, us, hscan => by
    have hitems := separated_spells (o :: os) fun a ha => OperandValue.spells (h.2 a ha)
    rw [Inst.text, Inst.symbols]
    simp only [String.toList_append, List.append_assoc, List.cons_append]
    exact .ident h.1 (.cons rfl _) (.skip rfl (hitems (.cons rfl _) (.mark ';' rfl rfl hscan)))

theorem indent_spells (level : Nat) : Spells (indent level) [] := by
  intro rest us hscan
  rw [indent]
  generalize 4 * level = n
  induction n generalizing rest with
  | zero => exact hscan
  | succ n ih =>
    rw [String.pushn_eq_repeat_push] at ih ⊢
    rw [Nat.repeat, String.toList_push, List.append_assoc]
    exact ih (.skip rfl hscan)

mutual
theorem Statement.spells (level : Nat) : ∀ (s : Statement), s.Writable →
    Spells (s.text level ++ "\n") s.symbols
  | .comment _ text, h, rest, us, hscan => by
    rw [Statement.text, String.toList_append, List.append_assoc]
    rw [Statement.Writable] at h
    exact .comment h (fun _ hd => by cases hd; rfl) (.skip rfl hscan)
  | .declare _ name type, h, rest, us, hscan => by
    rw [Statement.Writable] at h
    simp only [Statement.text, Statement.symbols, String.toList_append, List.append_assoc]
    exact .keyword "var" rfl (by decide) (.ident h.1 (.cons rfl _)
      (.markBlank ':' ' ' rfl rfl rfl (.ident h.2 (.cons rfl _)
        (.mark ';' rfl rfl (.skip rfl hscan)))))
  | .branch _ cond yes none, h, rest, us, hscan => by
    rw [Statement.Writable] at h
    simp only [Statement.text, Statement.symbols, String.toList_append, List.append_assoc,
      List.cons_append]
    exact .keyword "if" rfl (by decide) (cond.spells level h.1 (.clause "then" rfl (by decide)
      (yes.spells level h.2 (.skip rfl hscan))))
  | .branch _ cond yes (some no), h, rest, us, hscan => by
    rw [Statement.Writable] at h
    simp only [Statement.text, Statement.symbols, String.toList_append, List.append_assoc,
      List.cons_append]
    exact .keyword "if" rfl (by decide) (cond.spells level h.1 (.clause "then" rfl (by decide)
      (yes.spells level h.2.1 (.clause "else" rfl (by decide)
        (no.spells level h.2.2 (.skip rfl hscan))))))
  | .select _ cond cases, h, rest, us, hscan => by
    rw [Statement.Writable] at h
    simp only [Statement.text, Statement.symbols, String.toList_append, List.append_assoc,
      List.cons_append]
    exact .keyword "switch" rfl (by decide) (cond.spells level h.1
      (cases_spells level cases h.2.2 (.skip rfl hscan)))
  | .whileLoop _ cond body none, h, rest, us, hscan => by
    rw [Statement.Writable] at h
    simp only [Statement.text, Statement.symbols, String.toList_append, List.append_assoc,
      List.cons_append]
    exact .keyword "while" rfl (by decide) (cond.spells level h.1 (.clause "do" rfl (by decide)
      (body.spells level h.2 (.skip rfl hscan))))
  | .whileLoop _ cond body (some advance), h, rest, us, hscan => by
    rw [Statement.Writable] at h
    simp only [Statement.text, Statement.symbols, String.toList_append, List.append_assoc,
      List.cons_append]
    exact .keyword "while" rfl (by decide) (cond.spells level h.1 (.clause "do" rfl (by decide)
      (body.spells level h.2.1 (.clause "step" rfl (by decide)
        (advance.spells level h.2.2 (.skip rfl hscan))))))
  | .forLoop _ init cond body advance, h, rest, us, hscan => by
    rw [Statement.Writable] at h
    simp only [Statement.text, Statement.symbols, String.toList_append, List.append_assoc,
      List.cons_append]
    exact .keyword "for" rfl (by decide) (init.spells level h.1 (.clause "while" rfl (by decide)
      (cond.spells level h.2.1 (.clause "do" rfl (by decide) (body.spells level h.2.2.1
        (.clause "step" rfl (by decide) (advance.spells level h.2.2.2 (.skip rfl hscan))))))))
  | .nested block, h, rest, us, hscan => by
    rw [Statement.Writable] at h
    rw [Statement.text, Statement.symbols, String.toList_append, List.append_assoc]
    exact block.spells level h (.skip rfl hscan)
  | .assign _ dest inst, h, rest, us, hscan => by
    rw [Statement.Writable] at h
    simp only [Statement.text, Statement.symbols, String.toList_append, List.append_assoc,
      List.cons_append]
    exact .ident h.1 (.cons rfl _) (.skip rfl (.punctuation rfl (.skip rfl
      (Inst.spells h.2 (.skip rfl hscan)))))
  | .plain inst, h, rest, us, hscan => by
    rw [Statement.Writable] at h
    rw [Statement.text, Statement.symbols, String.toList_append, List.append_assoc]
    exact Inst.spells h (.skip rfl hscan)

/-- A block is spelled from its opening to its closing brace. -/
theorem Block.spells (level : Nat) : ∀ (b : Block), b.Writable → Spells (b.text level) b.symbols
  | .mk _ _ [], h, rest, us, hscan => by
    rw [Block.text, Block.symbols]
    exact .punctuation rfl (.skip rfl (.punctuation rfl hscan))
  | .mk _ _ (s :: statements), h, rest, us, hscan => by
    rw [Block.Writable] at h
    have hend : Scans ((indent level).toList ++ ("\x7d".toList ++ rest)) (mark "\x7d" :: us) :=
      indent_spells level (.mark '\x7d' rfl rfl hscan)
    rw [Block.text, Block.symbols]
    · simp only [String.toList_append, List.append_assoc, List.cons_append]
      exact .markBlank '\x7b' '\n' rfl rfl rfl
        (statements_spells (level + 1) (s :: statements) h hend)
    · nofun

theorem cases_spells (level : Nat) : ∀ (cases : List Block), CasesWritable cases →
    Spells (casesText level cases) (casesSymbols cases)
  | [], _, rest, us, hscan => hscan
  | b :: cases, h, rest, us, hscan => by
    rw [CasesWritable] at h
    simp only [casesText, casesSymbols, String.toList_append, List.append_assoc, List.cons_append]
    exact .clause "case" rfl (by decide) (b.spells level h.1 (cases_spells level cases h.2 hscan))

theorem statements_spells (level : Nat) : ∀ (statements : List Statement),
    StatementsWritable statements →
      Spells (statementsText level statements) (statementsSymbols statements)
  | [], _, rest, us, hscan => hscan
  | s :: statements, h, rest, us, hscan => by
    rw [StatementsWritable] at h
    have hs := s.spells level h.1 (statements_spells level statements h.2 hscan)
    rw [String.toList_append] at hs
    simp only [statementsText, statementsSymbols, String.toList_append, List.append_assoc] at hs ⊢
    exact indent_spells level hs
end

theorem Function.spells {f : Function} (h : f.Writable) : Spells f.text f.symbols := by
  intro rest us hscan
  have hbody := f.body.spells 0 h.body (.skip (c := '\n') rfl hscan)
  have hreturns : Scans
      ((if f.returns.isEmpty then "" else " -> (" ++ paramsText f.returns ++ ")").toList ++
        ' ' :: ((f.body.text 0).toList ++ '\n' :: rest))
      (returnsSymbols f.returns ++ (f.body.symbols ++ us)) := by
    cases hr : f.returns with
    | nil => exact .skip rfl hbody
    | cons p ps =>
      have hitems := separated_spells (p :: ps) fun q hq => Param.spells (h.returns q (hr ▸ hq))
      rw [if_neg (by simp), paramsText, returnsSymbols]
      · simp only [String.toList_append, List.append_assoc, List.cons_append]
        exact .skip rfl (.arrow (.skip rfl (.punctuation rfl
          (hitems (.cons rfl _) (.mark ')' rfl rfl (.skip rfl hbody))))))
      · nofun
  have hparams := separated_spells f.params fun q hq => Param.spells (h.params q hq)
  delta Function.text
  simp only [Function.symbols, paramsText, String.toList_append, List.append_assoc,
    List.cons_append]
  exact .keyword "func" rfl (by decide) (.ident h.name (.cons rfl _) (.mark '(' rfl rfl
    (hparams (.cons rfl _) (.mark ')' rfl rfl hreturns))))

theorem Element.spells : ∀ {e : Element}, e.Writable → Spells e.text e.symbols
  | .comment _ text, h, rest, us, hscan => by
    rw [Element.text, String.toList_append, List.append_assoc]
    exact .comment h (fun _ hd => by cases hd; rfl) (.skip rfl hscan)
  | .version _ value, h, rest, us, hscan => by
    rw [Element.text, String.toList_append, String.toList_append, List.append_assoc,
      List.append_assoc]
    exact .keyword "version" rfl (by decide) (.quoted h
      (.markBlank ';' '\n' rfl rfl rfl hscan))
  | .function f, h, rest, us, hscan => Function.spells h hscan

theorem Element.later_spells {e : Element} (h : e.Writable) : Spells e.laterText e.symbols := by
  intro rest us hscan
  cases e with
  | function f =>
    rw [Element.laterText, String.toList_append, List.append_assoc]
    exact .gap '\n' rfl rfl (Function.spells h hscan)
  | _ => exact Element.spells h hscan

/-- The text of a writable file is cut into the symbols of the file. -/
theorem File.Writable.scans {file : File} (h : file.Writable) :
    Scans file.text.toList file.symbols := by
  have hrest : ∀ es : List Element, (∀ e ∈ es, e.Writable) →
      Scans (String.join (es.map Element.laterText)).toList (es.flatMap Element.symbols) := by
    intro es hes
    induction es with
    | nil => exact .nil
    | cons e es ih =>
      obtain ⟨he, hes⟩ := List.forall_mem_cons.mp hes
      rw [List.map_cons, String.join_cons, String.toList_append, List.flatMap_cons]
      exact Element.later_spells he (ih hes)
  rw [File.text, File.symbols]
  rw [File.Writable] at h
  cases hes : file.elements with
  | nil => exact .nil
  | cons e es =>
    rw [hes] at h
    obtain ⟨he, hes⟩ := List.forall_mem_cons.mp h
    rw [List.flatMap_cons, String.toList_append]
    exact Element.spells he (hrest es hes)

end DefFlow.Syntax
