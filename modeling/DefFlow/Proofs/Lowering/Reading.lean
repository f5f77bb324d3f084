import DefFlow.Lowering
import DefFlow.Proofs.Edits.Assemble
import DefFlow.Proofs.Tree.Language

/-!
# What a text can do

A step is an instruction by its opcode, the name of what it defines and its operands. A block
of a function does some steps in a row. The statements of a source text allow the sequences of
steps that their structure gives: one after the other, one branch or case, any number of rounds.
-/

set_option autoImplicit false

namespace DefFlow

open DefFlow.Flow Lowering

inductive Word where
  | name (text : String)
  | number (value : Option Int)
  deriving DecidableEq, Repr

structure Step where
  op : String
  dest : Option String
  operands : List Word
  deriving DecidableEq, Repr

/-! ## The steps of a block -/

namespace Flow.Func

def wordOf (f : Func) : Operand → Word
  | .use v => .name (f.varAt v).name
  | .constant c => .number (some c.value)

def stepOf (f : Func) (x : Opcode × List Operand × Option VarId) : Step :=
  ⟨x.1.name, x.2.2.map fun v => (f.varAt v).name, x.2.1.map f.wordOf⟩

def step (f : Func) (i : InstId) : Step := f.stepOf (f.inst i).told

def steps (f : Func) (b : NodeId) : List Step := (f.code b).map f.step

theorem steps_eq_told (f : Func) (b : NodeId) : f.steps b = (f.told b).map f.stepOf := by
  rw [steps, told, List.map_map]
  rfl

def Numbered (f : Func) : Prop := ∀ k v, f.vars[k]? = some v → v.id = k + 1

end Flow.Func

section

variable {f f' : Func} {busy : Option NodeId} {b : NodeId}

theorem varAt_name (h : f'.vars.map Variable.plain = f.vars.map Variable.plain) (v : VarId) :
    (f'.varAt v).name = (f.varAt v).name := (Variable.eq_of_plain (varAt_plain h v)).2.2.1

theorem stepOf_eq (h : f'.vars.map Variable.plain = f.vars.map Variable.plain) :
    f'.stepOf = f.stepOf := by
  have hname : (fun v => (f'.varAt v).name) = fun v => (f.varAt v).name :=
    funext (varAt_name h)
  have hword : f'.wordOf = f.wordOf := funext fun o => by
    cases o with
    | use v => rw [Func.wordOf, Func.wordOf, varAt_name h]
    | constant c => rfl
  funext x
  rw [Func.stepOf, Func.stepOf, hname, hword]

theorem Flow.Builds.steps (h : Builds busy f f') (hb : (f.nodes.get? b).isSome)
    (hne : busy ≠ some b) : f'.steps b = f.steps b := by
  rw [Func.steps_eq_told, Func.steps_eq_told, h.told hb hne, stepOf_eq h.vars]

theorem Flow.Builds.step (h : Builds busy f f') {i : InstId} (hi : i ∈ f.code b) :
    f'.step i = f.step i := by
  rw [Func.step, Func.step, h.kept hi, stepOf_eq h.vars]

theorem Flow.Builds.numbered (h : Builds busy f f') (hn : f.Numbered) : f'.Numbered := by
  intro k v hk
  have hv := congrArg (fun l => l[k]?.map Variable.id) h.vars
  simp only [List.getElem?_map, hk, Option.map_some] at hv
  cases h₂ : f.vars[k]? with
  | none => rw [h₂] at hv; cases hv
  | some w =>
    rw [h₂] at hv
    exact (Option.some.inj hv).trans (hn k w h₂)

theorem Flow.Builds.lang (h : Builds none f f') (hd : f.Draft) {x : Component}
    (hx : x ∈ f.trees) : x.lang f'.steps = x.lang f.steps :=
  Component.lang_congr x fun b hb =>
    h.steps (hd.forest.stored b (Component.mem_blocksAll.mpr ⟨x, hx, hb⟩)) nofun

theorem Flow.Func.Numbered.varAt (h : f.Numbered) {v : Variable} (hv : v ∈ f.vars) :
    f.varAt v.id = v := by
  obtain ⟨k, hk⟩ := List.mem_iff_getElem?.mp hv
  rw [h k v hk, Func.varAt, Func.var?, hk]
  rfl

end

/-! ## The steps of a source text -/

namespace Syntax

def OperandValue.word : OperandValue → Word
  | .bool b => .number (some (if b then 1 else 0))
  | .integer digits => .number (readInteger digits)
  | .name text => .name text

def Inst.step (i : Inst) (dest : Option Name) : Step :=
  ⟨i.op.text, dest.map Name.text, i.operands.map fun o => o.value.word⟩

open Computability

mutual
def Statement.reading : Statement → Language Step
  | .comment _ _ => 1
  | .declare _ _ _ => 1
  | .assign _ dest inst => {[inst.step (some dest)]}
  | .plain inst => {[inst.step none]}
  | .nested block => block.reading
  | .branch _ cond yes no => cond.reading * (yes.reading + readingOptional no)
  | .select _ cond cases => cond.reading * readingCases cases
  | .whileLoop _ cond body advance =>
    cond.reading * (body.reading * readingOptional advance * cond.reading)∗
  | .forLoop _ init cond body advance =>
    init.reading * (cond.reading * (body.reading * advance.reading * cond.reading)∗)

def Block.reading : Block → Language Step
  | .mk _ _ statements => readingAll statements

def readingAll : List Statement → Language Step
  | [] => 1
  | s :: rest => s.reading * readingAll rest

def readingOptional : Option Block → Language Step
  | none => 1
  | some b => b.reading

def readingCases : List Block → Language Step
  | [] => 1
  | [b] => b.reading
  | b :: rest => b.reading + readingCases rest
end

theorem readingCases_cons (b c : Block) (rest : List Block) :
    readingCases (b :: c :: rest) = b.reading + readingCases (c :: rest) := by
  rw [readingCases]
  simp

end Syntax

end DefFlow
