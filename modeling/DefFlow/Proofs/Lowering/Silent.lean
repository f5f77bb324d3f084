import DefFlow.Proofs.Lowering.Instructions

/-!
# Lowering tells of no path

The diagnostics for uses that lack a definition have codes of their own. What lowering reports has
other codes.
-/

set_option autoImplicit false

namespace DefFlow

def Code.isAlarm (code : String) : Bool :=
  code = undefinedVariable || code = possiblyUndefined

def Diagnostic.isAlarm (d : Diagnostic) : Bool := Code.isAlarm d.code

theorem Diagnostic.code_suggestSimilar (d : Diagnostic) (name : String)
    (candidates : List String) : (d.suggestSimilar name candidates).code = d.code := by
  rw [suggestSimilar]
  split <;> rfl

theorem Diagnostic.code_unknownVariable (name : String) (l : Location) (declared : List String) :
    (unknownVariable name l declared).code = Code.unknownVariable := by
  have hcode :=
      code_suggestSimilar (ofName Code.unknownVariable s!"unknown variable '{name}'" name l)
    name declared
  rw [unknownVariable]
  split <;> exact hcode

namespace Lowering

open DefFlow.Flow Syntax

structure Silent {α : Type} (x : Lower α) : Prop where
  keeps : ∀ {s a s'}, x s = .ok (a, s') → (∀ d ∈ s.diagnostics, d.isAlarm = false) →
    ∀ d ∈ s'.diagnostics, d.isAlarm = false

namespace Silent

section

variable {α β : Type}

theorem pure (a : α) : Silent (Pure.pure a : Lower α) := by
  refine ⟨fun h hs => ?_⟩
  cases h
  exact hs

theorem bind {x : Lower α} {g : α → Lower β} (hx : Silent x) (hg : ∀ a, Silent (g a)) :
    Silent (x >>= g) := by
  refine ⟨fun h hs => ?_⟩
  obtain ⟨a, s₁, ha, hb⟩ := bind_ok h
  exact (hg a).keeps hb (hx.keeps ha hs)

/-- What depends on the state only through what it reads. -/
theorem get_bind {g : State → Lower β} (hg : ∀ s, Silent (g s)) : Silent (get >>= g) :=
  ⟨fun h => (hg _).keeps h⟩

theorem edit (e : Edit α) : Silent (Lowering.edit e) := by
  refine ⟨fun {s a s'} h hs => ?_⟩
  obtain ⟨f, -, rfl⟩ := edit_ok h
  exact hs

theorem report {d : Diagnostic} (hd : Code.isAlarm d.code = false) :
    Silent (Lowering.report d) := by
  refine ⟨fun {s a s'} h hs => ?_⟩
  cases h
  exact List.forall_mem_append.mpr ⟨hs, List.forall_mem_singleton.mpr hd⟩

theorem change {f : State → State} (hf : ∀ s, (f s).diagnostics = s.diagnostics) :
    Silent (modify f) := by
  refine ⟨fun {s a s'} h hs => ?_⟩
  cases h
  rw [hf]
  exact hs

theorem locate (p : Position) : Silent (Lowering.locate p) := get_bind fun _ => pure _

theorem func : Silent Lowering.func := get_bind fun _ => pure _

theorem forM {l : List α} {g : α → Lower Unit} (hg : ∀ a, Silent (g a)) : Silent (l.forM g) := by
  induction l with
  | nil => exact pure _
  | cons a l ih => exact (hg a).bind fun _ => ih

theorem mapM {l : List α} {g : α → Lower β} (hg : ∀ a, Silent (g a)) : Silent (l.mapM g) := by
  induction l with
  | nil => exact pure _
  | cons a l ih =>
    rw [List.mapM_cons]
    exact (hg a).bind fun _ => ih.bind fun _ => pure _

theorem forIn {l : List α} {g : α → PUnit → Lower (ForInStep PUnit)}
    (hg : ∀ a u, Silent (g a u)) : Silent (ForIn.forIn l PUnit.unit g) := by
  induction l with
  | nil => exact pure _
  | cons a l ih =>
    rw [List.forIn_cons]
    refine (hg a _).bind fun step => ?_
    cases step with
    | done => exact pure _
    | yield => exact ih

end

/-! ## Declarations -/

theorem declare (add : String → ValueType → Edit Variable) (name type : Name) :
    Silent (Lowering.declare add name type) := by
  refine (locate _).bind fun here => func.bind fun f => ?_
  cases f.varNamed? name.text with
  | some previous =>
    exact get_bind fun s => report (by show Code.isAlarm Code.duplicateVariable = false; decide)
  | none =>
    have hrest : ∀ t, Silent (do
        let v ← Lowering.edit (add name.text t)
        modify fun s => { s with
          out := { s.out with declaredAt := s.out.declaredAt ++ [(v.id, here)] } }) :=
      fun t => (edit _).bind fun v => change fun _ => rfl
    dsimp only
    cases ValueType.ofName? type.text with
    | some t => exact (pure t).bind hrest
    | none =>
      refine (locate _).bind fun l => (report ?_).bind fun _ => (pure _).bind hrest
      show Code.isAlarm (Diagnostic.suggestSimilar _ _ _).code = false
      rw [Diagnostic.code_suggestSimilar]
      show Code.isAlarm Code.unknownType = false
      decide

mutual
theorem collect : (b : Syntax.Block) → Silent (Lowering.collect b)
  | .mk _ _ l => by
    rw [Lowering.collect]
    exact collectAll l

theorem collectAll : (l : List Statement) → Silent (Lowering.collectAll l)
  | [] => by
    rw [Lowering.collectAll]
    exact pure _
  | s :: rest => by
    rw [Lowering.collectAll]
    exact (collectStatement s).bind fun _ => collectAll rest

theorem collectStatement : (s : Statement) → Silent (Lowering.collectStatement s)
  | .declare _ name type => by
    rw [Lowering.collectStatement]
    exact declare _ _ _
  | .branch _ cond yes no => by
    rw [Lowering.collectStatement]
    exact (collect cond).bind fun _ => (collect yes).bind fun _ => collectOptional no
  | .select _ cond cases => by
    rw [Lowering.collectStatement]
    exact (collect cond).bind fun _ => collectBlocks cases
  | .whileLoop _ cond body advance => by
    rw [Lowering.collectStatement]
    exact (collect cond).bind fun _ => (collect body).bind fun _ => collectOptional advance
  | .forLoop _ init cond body advance => by
    rw [Lowering.collectStatement]
    exact (collect init).bind fun _ => (collect cond).bind fun _ => (collect body).bind fun _ =>
      collect advance
  | .nested block => by
    rw [Lowering.collectStatement]
    exact collect block
  | .comment _ _ => by
    rw [Lowering.collectStatement]
    exact pure _
  | .assign _ _ _ => by
    rw [Lowering.collectStatement]
    exact pure _
  | .plain _ => by
    rw [Lowering.collectStatement]
    exact pure _

theorem collectOptional : (b : Option Syntax.Block) → Silent (Lowering.collectOptional b)
  | none => by
    rw [Lowering.collectOptional]
    exact pure _
  | some b => by
    rw [Lowering.collectOptional]
    exact collect b

theorem collectBlocks : (bs : List Syntax.Block) → Silent (Lowering.collectBlocks bs)
  | [] => by
    rw [Lowering.collectBlocks]
    exact pure _
  | b :: rest => by
    rw [Lowering.collectBlocks]
    exact (collect b).bind fun _ => collectBlocks rest
end

/-! ## Instructions -/

theorem invalid (message : String) (l : Location) :
    Silent (Lowering.report (.invalidInstruction message l)) :=
  report (by show Code.isAlarm Code.invalidInstruction = false; decide)

theorem unknown (name : String) (l : Location) : Silent (Lowering.unknown name l) := by
  refine Silent.bind (func.bind fun _ => pure _) fun ds => report ?_
  rw [Diagnostic.code_unknownVariable]
  decide

theorem operand (t : ValueType) (o : Syntax.Operand) : Silent (Lowering.operand t o) := by
  refine (locate _).bind fun here => ?_
  cases o.value with
  | bool b => exact pure _
  | integer digits =>
    dsimp only
    cases readInteger digits with
    | some n => exact pure _
    | none => exact (invalid _ _).bind fun _ => pure _
  | name text =>
    refine func.bind fun f => ?_
    cases f.varNamed? text with
    | some v => exact pure _
    | none => exact (unknown _ _).bind fun _ => pure _

theorem destination (d : Name) : Silent (Lowering.destination d) := by
  refine (locate _).bind fun here => func.bind fun f => ?_
  cases f.varNamed? d.text with
  | none => exact (unknown _ _).bind fun _ => pure _
  | some v =>
    dsimp only
    split
    · exact (invalid _ _).bind fun _ => pure _
    · exact pure _

theorem misplaced {f : Func} {file : String} {b : NodeId} {dest : Option Name} {i : Syntax.Inst}
    {op : Opcode} {d : Diagnostic} (h : misplaced? f file b dest i op = some d) :
    Code.isAlarm d.code = false := by
  have hcode : d.code = Code.invalidInstruction ∨ d.code = Code.operandCount := by
    unfold misplaced? at h
    dsimp only at h
    split at h
    · cases h
      exact .inl rfl
    split at h
    · cases h
      exact .inl rfl
    split at h
    · cases h
      exact .inr rfl
    split at h
    · cases h
      exact .inl rfl
    · split at h <;> cases h <;> exact .inl rfl
  rcases hcode with hcode | hcode <;> rw [hcode] <;> decide

theorem instruction (b : NodeId) (dest : Option Name) (i : Syntax.Inst) :
    Silent (Lowering.instruction b dest i) := by
  unfold Lowering.instruction
  cases Opcode.ofName? i.op.text with
  | none =>
    refine (locate _).bind fun l => report ?_
    show Code.isAlarm (Diagnostic.suggestSimilar _ _ _).code = false
    rw [Diagnostic.code_suggestSimilar]
    show Code.isAlarm Code.unknownOpcode = false
    decide
  | some op =>
    refine func.bind fun f => get_bind fun s => ?_
    cases hm : misplaced? f s.file b dest i op with
    | some d => exact (report (misplaced hm)).bind fun _ => pure _
    | none =>
      have hrest : ∀ target, Silent (do
          let args ← i.operands.mapM (Lowering.operand (constantType (← Lowering.func) i target))
          if dest.isSome && target.isNone || args.any Option.isNone then return
          let id ← Lowering.edit (Edit.appendInst b op target (args.filterMap fun a => a))
          let here ← Lowering.locate (dest.map Name.start |>.getD i.start)
          let file := (← get).file
          let operandAt := i.operands.zipIdx.map fun p =>
            ((⟨id, p.2⟩ : UseSite), Location.ofPosition file p.1.start)
          modify fun s => { s with out := { s.out with
            instAt := s.out.instAt ++ [(id, here)]
            operandAt := s.out.operandAt ++ operandAt } }) := by
        intro target
        refine func.bind fun f => (mapM fun o => operand _ o).bind fun args => ?_
        split
        · exact pure _
        · exact (edit _).bind fun id => (locate _).bind fun here => get_bind fun s =>
            change fun _ => rfl
      cases dest with
      | none => exact (pure _).bind hrest
      | some d => exact (destination d).bind hrest

/-! ## Statements -/

theorem conditionStatement (b : NodeId) (s : Statement) :
    Silent (Lowering.conditionStatement b s) := by
  have hrefused : ∀ p, Silent (Lowering.conditionStatement.refused p) := fun p =>
    (locate p).bind fun l => invalid _ l
  cases s with
  | comment | declare => exact pure _
  | assign | plain => exact instruction _ _ _
  | branch | select | whileLoop | forLoop | nested => exact hrefused _

theorem condition (label : String) (block : Syntax.Block) :
    Silent (Lowering.condition label block) :=
  (edit _).bind fun b => (forM fun s => conditionStatement b s).bind fun _ => pure _

theorem currentBlock (seq : NodeId) : (cur : Option NodeId) →
    Silent (Lowering.currentBlock seq cur)
  | some _ => pure _
  | none => (edit _).bind fun _ => (edit _).bind fun _ => pure _

mutual
theorem statements (seq : NodeId) (cur : Option NodeId) : (l : List Statement) →
    Silent (Lowering.statements seq cur l)
  | [] => by
    rw [Lowering.statements]
    exact pure _
  | s :: rest => by
    rw [Lowering.statements]
    exact (statement seq cur s).bind fun cur => statements seq cur rest

theorem statement (seq : NodeId) (cur : Option NodeId) : (s : Statement) →
    Silent (Lowering.statement seq cur s)
  | .comment _ _ => by
    rw [Lowering.statement]
    exact pure _
  | .declare _ _ _ => by
    rw [Lowering.statement]
    exact pure _
  | .assign _ dest inst => by
    rw [Lowering.statement]
    exact (currentBlock seq cur).bind fun b => (instruction b _ _).bind fun _ => pure _
  | .plain inst => by
    rw [Lowering.statement]
    exact (currentBlock seq cur).bind fun b => (instruction b _ _).bind fun _ => pure _
  | .nested block => by
    rw [Lowering.statement]
    exact (sequence block).bind fun c => (edit _).bind fun _ => pure _
  | .branch _ cond yes no => by
    rw [Lowering.statement]
    exact (condition _ cond).bind fun _ => (optionalSequence no).bind fun _ =>
      (sequence yes).bind fun _ => (edit _).bind fun _ => (edit _).bind fun _ => pure _
  | .select _ cond cases => by
    rw [Lowering.statement]
    exact (condition _ cond).bind fun _ => (sequences cases).bind fun _ =>
      (edit _).bind fun _ => (edit _).bind fun _ => pure _
  | .whileLoop _ cond body advance => by
    rw [Lowering.statement]
    exact (condition _ cond).bind fun _ => (sequence body).bind fun _ =>
      (optionalSequence advance).bind fun _ => (edit _).bind fun _ => (edit _).bind fun _ => pure _
  | .forLoop _ init cond body advance => by
    rw [Lowering.statement]
    exact (condition _ cond).bind fun _ => (sequence init).bind fun _ =>
      (sequence body).bind fun _ => (sequence advance).bind fun _ => (edit _).bind fun _ =>
        (edit _).bind fun _ => pure _

theorem sequence : (b : Syntax.Block) → Silent (Lowering.sequence b)
  | .mk _ _ body => by
    rw [Lowering.sequence]
    exact (edit _).bind fun seq => (statements seq none body).bind fun _ => pure _

theorem optionalSequence : (b : Option Syntax.Block) → Silent (Lowering.optionalSequence b)
  | none => by
    rw [Lowering.optionalSequence]
    exact edit _
  | some b => by
    rw [Lowering.optionalSequence]
    exact sequence b

theorem sequences : (bs : List Syntax.Block) → Silent (Lowering.sequences bs)
  | [] => by
    rw [Lowering.sequences]
    exact pure _
  | b :: rest => by
    rw [Lowering.sequences]
    exact (sequence b).bind fun _ => (sequences rest).bind fun _ => pure _
end

theorem prologue (entry : NodeId) : Silent (Lowering.prologue entry) := by
  refine func.bind fun f => ((forIn fun v _ => ?_).bind fun _ => pure _)
  refine (edit _).bind fun i => get_bind fun s => Silent.bind ?_ fun _ => pure _
  exact change fun _ => rfl

theorem function (src : Syntax.Function) : Silent (Lowering.function src) :=
  (forM fun _ => declare _ _ _).bind fun _ => (forM fun _ => declare _ _ _).bind fun _ =>
    (collect src.body).bind fun _ => (edit _).bind fun entry => func.bind fun _ =>
      (edit _).bind fun _ => (prologue entry).bind fun _ => statements _ _ _

end Silent

theorem lowerFunction_silent {file : String} {handle : Nat} {src : Syntax.Function} {out : Lowered}
    {ds : List Diagnostic} (h : lowerFunction file handle src = .ok (out, ds)) :
    ∀ d ∈ ds, d.isAlarm = false := by
  obtain ⟨⟨u, s⟩, hrun, h⟩ := of_bind_ok h
  cases h
  exact (Silent.function src).keeps hrun nofun

theorem lowerFunctions_silent {file : String} {srcs : List Syntax.Function} :
    ∀ {seen : List (String × Location)} {fs : List Lowered} {ds : List Diagnostic},
    lowerFunctions file seen srcs = .ok (fs, ds) → ∀ d ∈ ds, d.isAlarm = false := by
  induction srcs with
  | nil =>
    intro seen fs ds h
    cases h
    exact nofun
  | cons src rest ih =>
    intro seen fs ds h
    rw [lowerFunctions] at h
    dsimp only at h
    cases hseen : seen.lookup src.name.text with
    | some first =>
      rw [hseen] at h
      obtain ⟨⟨fs', ds'⟩, hrest, h⟩ := of_bind_ok h
      cases h
      refine List.forall_mem_cons.mpr ⟨?_, ih hrest⟩
      show Code.isAlarm Code.duplicateVariable = false
      decide
    | none =>
      rw [hseen] at h
      obtain ⟨⟨f, own⟩, hown, h⟩ := of_bind_ok h
      obtain ⟨⟨fs', ds'⟩, hrest, h⟩ := of_bind_ok h
      cases h
      exact List.forall_mem_append.mpr ⟨lowerFunction_silent hown, ih hrest⟩

/-- No alarm is reported for a file before its functions are built. -/
theorem lower_silent {file : String} {tree : File} {m : Module} {ds : List Diagnostic}
    (h : lower file tree = .ok (m, ds)) : ∀ d ∈ ds, d.isAlarm = false := by
  obtain ⟨⟨fs, own⟩, hfs, h⟩ := of_bind_ok h
  cases h
  refine List.forall_mem_append.mpr ⟨fun d hd => ?_, lowerFunctions_silent hfs⟩
  obtain ⟨_, -, rfl⟩ := List.mem_map.mp hd
  show Code.isAlarm Code.invalidInstruction = false
  decide

end Lowering

end DefFlow
