import DefFlow.Syntax.Layout

/-!
# Trees without places

The bare form of a syntax tree has the start of the text for each of its places. Two trees that have
the same bare form differ in nothing but their places, and the layout does not tell them apart.
-/

set_option autoImplicit false

namespace DefFlow.Syntax

def Name.bare (n : Name) : Name := ⟨n.text, .start, .start⟩

def Param.bare (p : Param) : Param := ⟨.start, p.name.bare, p.type.bare⟩

def Operand.bare (o : Operand) : Operand := ⟨.start, .start, o.value⟩

def Inst.bare (i : Inst) : Inst := ⟨.start, i.op.bare, i.operands.map Operand.bare⟩

mutual
def Statement.bare : Statement → Statement
  | .comment _ text => .comment .start text
  | .declare _ name type => .declare .start name.bare type.bare
  | .branch _ cond yes none => .branch .start cond.bare yes.bare none
  | .branch _ cond yes (some no) => .branch .start cond.bare yes.bare (some no.bare)
  | .select _ cond cases => .select .start cond.bare (bareCases cases)
  | .whileLoop _ cond body none => .whileLoop .start cond.bare body.bare none
  | .whileLoop _ cond body (some advance) =>
    .whileLoop .start cond.bare body.bare (some advance.bare)
  | .forLoop _ init cond body advance =>
    .forLoop .start init.bare cond.bare body.bare advance.bare
  | .nested block => .nested block.bare
  | .assign _ dest inst => .assign .start dest.bare inst.bare
  | .plain inst => .plain inst.bare

def Block.bare : Block → Block
  | .mk _ _ statements => .mk .start .start (bareStatements statements)

def bareCases : List Block → List Block
  | [] => []
  | b :: rest => b.bare :: bareCases rest

def bareStatements : List Statement → List Statement
  | [] => []
  | s :: rest => s.bare :: bareStatements rest
end

def Function.bare (f : Function) : Function :=
  ⟨.start, .start, f.name.bare, f.params.map Param.bare, f.returns.map Param.bare, f.body.bare⟩

def Element.bare : Element → Element
  | .comment _ text => .comment .start text
  | .version _ value => .version .start value
  | .function f => .function f.bare

def File.bare (file : File) : File := ⟨.start, file.elements.map Element.bare⟩

theorem bareCases_eq (cases : List Block) : bareCases cases = cases.map Block.bare := by
  induction cases with
  | nil => rfl
  | cons b cases ih => rw [bareCases, ih, List.map_cons]

theorem bareStatements_eq (statements : List Statement) :
    bareStatements statements = statements.map Statement.bare := by
  induction statements with
  | nil => rfl
  | cons s statements ih => rw [bareStatements, ih, List.map_cons]

/-! ## The layout of bare trees -/

theorem paramsText_bare (ps : List Param) : paramsText (ps.map Param.bare) = paramsText ps := by
  rw [paramsText, List.map_map]
  rfl

theorem Inst.text_bare (i : Inst) : i.bare.text = i.text := by
  rw [Inst.text, Inst.text, Inst.bare]
  cases i.operands with
  | nil => rfl
  | cons o os =>
    simp only [List.map_cons, List.map_map]
    rfl

mutual
theorem Statement.text_bare (level : Nat) : ∀ (s : Statement), s.bare.text level = s.text level
  | .comment _ _ => by simp only [Statement.bare, Statement.text]
  | .declare _ _ _ => by simp only [Statement.bare, Statement.text, Name.bare]
  | .branch _ cond yes none => by
    simp only [Statement.bare, Statement.text, cond.text_bare level, yes.text_bare level]
  | .branch _ cond yes (some no) => by
    simp only [Statement.bare, Statement.text, cond.text_bare level, yes.text_bare level,
      no.text_bare level]
  | .select _ cond cases => by
    simp only [Statement.bare, Statement.text, cond.text_bare level, cases_text_bare level cases]
  | .whileLoop _ cond body none => by
    simp only [Statement.bare, Statement.text, cond.text_bare level, body.text_bare level]
  | .whileLoop _ cond body (some advance) => by
    simp only [Statement.bare, Statement.text, cond.text_bare level, body.text_bare level,
      advance.text_bare level]
  | .forLoop _ init cond body advance => by
    simp only [Statement.bare, Statement.text, init.text_bare level, cond.text_bare level,
      body.text_bare level, advance.text_bare level]
  | .nested block => by simp only [Statement.bare, Statement.text, block.text_bare level]
  | .assign _ dest inst => by
    simp only [Statement.bare, Statement.text, inst.text_bare, Name.bare]
  | .plain inst => by simp only [Statement.bare, Statement.text, inst.text_bare]

theorem Block.text_bare (level : Nat) : ∀ (b : Block), b.bare.text level = b.text level
  | .mk _ _ [] => by simp only [Block.bare, bareStatements, Block.text]
  | .mk _ _ (s :: statements) => by
    have h := statements_text_bare (level + 1) (s :: statements)
    simp only [bareStatements] at h
    simp only [Block.bare, bareStatements, Block.text, h]

theorem cases_text_bare (level : Nat) : ∀ (cases : List Block),
    casesText level (bareCases cases) = casesText level cases
  | [] => rfl
  | b :: cases => by
    simp only [bareCases, casesText, b.text_bare level, cases_text_bare level cases]

theorem statements_text_bare (level : Nat) : ∀ (statements : List Statement),
    statementsText level (bareStatements statements) = statementsText level statements
  | [] => rfl
  | s :: statements => by
    simp only [bareStatements, statementsText, s.text_bare level,
      statements_text_bare level statements]
end

theorem Function.text_bare (f : Function) : f.bare.text = f.text := by
  delta Function.text
  simp only [Function.bare, Name.bare, paramsText_bare, Block.text_bare, List.isEmpty_map]

theorem Element.text_bare (e : Element) : e.bare.text = e.text := by
  cases e with
  | function f => exact f.text_bare
  | _ => rfl

theorem Element.laterText_bare (e : Element) : e.bare.laterText = e.laterText := by
  cases e with
  | function f => exact congrArg ("\n" ++ ·) f.text_bare
  | _ => rfl

theorem File.text_bare (file : File) : file.bare.text = file.text := by
  rw [File.text, File.text, File.bare]
  cases file.elements with
  | nil => rfl
  | cons e es =>
    simp only [List.map_cons, List.map_map, Element.text_bare]
    exact congrArg (fun l => e.text ++ String.join l)
      (List.map_congr_left fun d _ => d.laterText_bare)

end DefFlow.Syntax
