import DefFlow.Proofs.Lowering.Records

/-!
# Lowering instructions

Lowering an instruction never fails. An acceptable one that does not come late is added to its
block, with what was written and where; any other one is reported and leaves the function as it is.
-/

set_option autoImplicit false

namespace DefFlow.Lowering

open DefFlow.Flow Syntax

/-! ## What is known of the variables -/

/-- The variables of a function are numbered in their order, are its own, and have the types that
`types` says. -/
structure Knows (types : String → Option ValueType) (f : Func) : Prop where
  numbered : f.Numbered
  owns : ∀ v ∈ f.vars, v.owner = f.handle
  types : ∀ name, (f.varNamed? name).map Variable.type = types name

section

variable {types : String → Option ValueType} {f f' : Func} {v : Variable} {name : String}

theorem varNamed?_plain (f : Func) (name : String) : (f.varNamed? name).map Variable.plain =
    (f.vars.map Variable.plain).find? fun v => v.name = name := by
  rw [Func.varNamed?, List.find?_map]
  rfl

theorem Knows.builds {busy : Option NodeId} (hk : Knows types f) (h : Builds busy f f') :
    Knows types f' where
  numbered := h.numbered hk.numbered
  owns v hv := by
    have hp : v.plain ∈ f.vars.map Variable.plain := h.vars ▸ List.mem_map_of_mem hv
    obtain ⟨w, hw, he⟩ := List.mem_map.mp hp
    rw [h.handle, ← hk.owns w hw]
    exact (congrArg Variable.owner he).symm
  types name := by
    have hv := varNamed?_plain f' name
    rw [h.vars, ← varNamed?_plain] at hv
    have htype := congrArg (Option.map Variable.type) hv
    rw [Option.map_map, Option.map_map] at htype
    exact htype.trans (hk.types name)

theorem mem_of_varNamed? (h : f.varNamed? name = some v) : v ∈ f.vars ∧ v.name = name :=
  ⟨List.mem_of_find?_eq_some h, by simpa using List.find?_some h⟩

theorem Knows.isSome (hk : Knows types f) (name : String) :
    (types name).isSome = (f.varNamed? name).isSome := by
  rw [← hk.types, Option.isSome_map]

theorem ofName?_name {op : Opcode} (h : Opcode.ofName? name = some op) : op.name = name := by
  simpa using List.find?_some h

theorem ofName?_ne_invalid {op : Opcode} (h : Opcode.ofName? name = some op) : op ≠ .invalid := by
  rintro rfl
  exact absurd (List.mem_of_find?_eq_some h) (by decide)

end

/-! ## Operands -/

structure Reads (types : String → Option ValueType) (f : Func) (o : Syntax.Operand)
    (a : Option Arg) : Prop where
  isSome : a.isSome = o.value.readable types
  word : ∀ arg ∈ a, f.wordOf arg.operand = o.value.word
  own : ∀ v, a = some (.var v) → v ∈ f.vars

section

variable {types : String → Option ValueType} {s s' : State} {f : Func}
  {os : List Syntax.Operand} {as : List (Option Arg)}

theorem operand_run (hk : Knows types s.out.func) (t : ValueType) (o : Syntax.Operand) :
    ∃ a l s', operand t o s = .ok (a, s') ∧ Reports l s s' ∧ Reads types s.out.func o a ∧
      (l = [] ↔ o.value.readable types = true) := by
  rw [operand, bind_eq (locate_eq _ _)]
  cases hv : o.value with
  | bool b =>
    refine ⟨_, [], s, rfl, .refl s, ⟨?_, ?_, ?_⟩, by simp [OperandValue.readable]⟩
    · rw [hv]; rfl
    · rintro arg ⟨⟩
      rw [hv]
      rfl
    · rintro v ⟨⟩
  | integer digits =>
    dsimp only
    cases hd : readInteger digits with
    | some n =>
      refine ⟨_, [], s, rfl, .refl s, ⟨?_, ?_, ?_⟩, by simp [OperandValue.readable, hd]⟩
      · rw [hv, OperandValue.readable, hd]; rfl
      · rintro arg ⟨⟩
        rw [hv, OperandValue.word, hd]
        rfl
      · rintro v ⟨⟩
    | none =>
      obtain ⟨s', hrun, hreports⟩ := report_run s (d := .invalidInstruction
        s!"integer literal {digits} does not fit in 64 bits" (.ofPosition s.file o.start)) rfl
      refine ⟨none, _, s', (bind_eq hrun).trans rfl, hreports, ⟨?_, ?_, ?_⟩,
        by simp [OperandValue.readable, hd]⟩
      · rw [hv, OperandValue.readable, hd]
        rfl
      · rintro arg ⟨⟩
      · rintro v ⟨⟩
  | name text =>
    dsimp only
    rw [bind_eq (func_eq s)]
    have hsome := hk.isSome text
    cases hf : s.out.func.varNamed? text with
    | some v =>
      rw [hf] at hsome
      obtain ⟨hmem, hname⟩ := mem_of_varNamed? hf
      refine ⟨_, [], s, rfl, .refl s, ⟨?_, ?_, ?_⟩, by simp [OperandValue.readable, hsome]⟩
      · rw [hv, OperandValue.readable, hsome]; rfl
      · rintro arg ⟨⟩
        rw [hv, Arg.operand, Func.wordOf, hk.numbered.varAt hmem, hname]
        rfl
      · rintro w ⟨⟩
        exact hmem
    | none =>
      rw [hf] at hsome
      obtain ⟨d, s', hrun, hreports⟩ := unknown_run s text (.ofPosition s.file o.start)
      refine ⟨none, _, s', (bind_eq hrun).trans rfl, hreports, ⟨?_, ?_, ?_⟩,
        by simp [OperandValue.readable, hsome]⟩
      · rw [hv, OperandValue.readable, hsome]
        rfl
      · rintro arg ⟨⟩
      · rintro v ⟨⟩

theorem operands_run (t : ValueType) (os : List Syntax.Operand) : ∀ {s : State},
    Knows types s.out.func → ∃ as l s', os.mapM (operand t) s = .ok (as, s') ∧ Reports l s s' ∧
      List.Forall₂ (Reads types s.out.func) os as ∧
      (l = [] ↔ os.all (·.value.readable types) = true) := by
  induction os with
  | nil => exact fun {s} _ => ⟨[], [], s, rfl, .refl s, .nil, by simp⟩
  | cons o os ih =>
    intro s hk
    obtain ⟨a, l, s₁, hone, hr, hreads, hl⟩ := operand_run hk t o
    obtain ⟨as, l', s', hrest, hr', hall, hl'⟩ := ih (hr.out ▸ hk)
    refine ⟨a :: as, l ++ l', s', ?_, hr.trans hr', .cons hreads (hr.out ▸ hall), ?_⟩
    · rw [List.mapM_cons, bind_eq hone, bind_eq hrest]
      rfl
    · rw [List.append_eq_nil_iff, hl, hl', List.all_cons, Bool.and_eq_true]

/-- Some operand could not be read exactly if one of the text is not readable. -/
theorem any_isNone (h : List.Forall₂ (Reads types f) os as) :
    as.any Option.isNone = !os.all (·.value.readable types) := by
  induction h with
  | nil => rfl
  | cons h _ ih =>
    rw [List.any_cons, List.all_cons, ih, ← h.isSome, Bool.not_and, Option.not_isSome]

theorem own_of_reads (h : List.Forall₂ (Reads types f) os as) {v : Variable}
    (hv : .var v ∈ as.filterMap fun a => a) : v ∈ f.vars := by
  induction h with
  | nil => cases hv
  | @cons o a os as h _ ih =>
    cases a with
    | none => exact ih hv
    | some arg =>
      rcases List.mem_cons.mp (List.filterMap_cons_some (f := fun a => a) rfl ▸ hv) with rfl | hv
      · exact h.own v rfl
      · exact ih hv

theorem words_of_reads (h : List.Forall₂ (Reads types f) os as)
    (hall : os.all (·.value.readable types) = true) :
    (as.filterMap fun a => a).map (fun a => f.wordOf a.operand) = os.map fun o => o.value.word := by
  induction h with
  | nil => rfl
  | @cons o a os as h _ ih =>
    rw [List.all_cons, Bool.and_eq_true, ← h.isSome] at hall
    obtain ⟨arg, rfl⟩ := Option.isSome_iff_exists.mp hall.1
    have hwords := ih hall.2
    rw [List.map_cons, ← hwords, ← h.word arg rfl]
    rfl

end

/-! ## Destinations -/

def target (dest : Option Name) : Lower (Option Variable) :=
  match dest with
  | some d => destination d
  | none => pure none

structure Aims (types : String → Option ValueType) (f : Func) (dest : Option Name)
    (v : Option Variable) : Prop where
  isSome : v.isSome = (dest.isSome && dest.all (·.assignable types))
  own : ∀ w ∈ v, w ∈ f.vars ∧ w.type.isVoid = false
  name : ∀ w ∈ v, dest.map Name.text = some w.name

theorem Aims.text {types : String → Option ValueType} {f : Func} {dest : Option Name}
    {v : Option Variable} (h : Aims types f dest v) (hn : f.Numbered)
    (hdest : dest.all (·.assignable types) = true) :
    dest.map Name.text = (v.map Variable.id).map fun v => (f.varAt v).name := by
  have hsome := h.isSome
  rw [hdest, Bool.and_true] at hsome
  cases v with
  | none =>
    cases dest with
    | none => rfl
    | some d => cases hsome
  | some w => rw [h.name w rfl, Option.map_some, Option.map_some, hn.varAt (h.own w rfl).1]

theorem target_run {types : String → Option ValueType} {s : State} (hk : Knows types s.out.func)
    (dest : Option Name) : ∃ v l s', target dest s = .ok (v, s') ∧ Reports l s s' ∧
      Aims types s.out.func dest v ∧ (l = [] ↔ dest.all (·.assignable types) = true) := by
  cases dest with
  | none => exact ⟨none, [], s, rfl, .refl s, ⟨rfl, nofun, nofun⟩, by simp⟩
  | some d =>
    rw [target, destination, bind_eq (locate_eq _ _), bind_eq (func_eq s)]
    have htype := hk.types d.text
    cases hf : s.out.func.varNamed? d.text with
    | none =>
      rw [hf] at htype
      obtain ⟨e, s', hrun, hreports⟩ := unknown_run s d.text (.ofPosition s.file d.start)
      refine ⟨none, _, s', (bind_eq hrun).trans rfl, hreports, ⟨?_, nofun, nofun⟩, ?_⟩ <;>
        simp [Name.assignable, ← htype]
    | some v =>
      rw [hf] at htype
      dsimp only
      obtain ⟨hmem, hname⟩ := mem_of_varNamed? hf
      cases hvoid : v.type.isVoid with
      | true =>
        obtain ⟨s', hrun, hreports⟩ := report_run s (d := .invalidInstruction
          s!"cannot assign to '{d.text}' of type void" (.ofPosition s.file d.start)) rfl
        refine ⟨none, _, s', (bind_eq hrun).trans rfl, hreports, ⟨?_, nofun, nofun⟩, ?_⟩ <;>
          simp [Name.assignable, ← htype, hvoid]
      | false =>
        refine ⟨some v, [], s, rfl, .refl s, ⟨?_, ?_, ?_⟩, ?_⟩
        · simp [Name.assignable, ← htype, hvoid]
        · rintro w ⟨⟩
          exact ⟨hmem, hvoid⟩
        · rintro w ⟨⟩
          rw [Option.map_some, hname]
        · simp [Name.assignable, ← htype, hvoid]

/-! ## Places -/

section

variable {f : Func} {b : NodeId} {dest : Option Name} {i : Syntax.Inst} {op : Opcode}
  {file : String}

/-- An instruction may stand at the end of a block exactly if it fits its opcode and the block has
not been ended. -/
theorem misplaced?_eq_none : misplaced? f file b dest i op = none ↔
    i.fits dest op = true ∧ f.ended b = false := by
  have hcall : Opcode.call.hasDef = true := rfl
  unfold misplaced? Inst.fits Func.ended
  by_cases hphi : op = .phi
  · simp [hphi]
  by_cases harg : op = .arg
  · simp [harg]
  have harity : op.arity.all (i.operands.length = ·) =
      !(op.arity.any fun n => i.operands.length ≠ n) := by
    cases op.arity <;> simp
  simp only [hphi, harg, if_false, harity]
  cases op.arity.any fun n => i.operands.length ≠ n with
  | true => simp
  | false =>
    by_cases hc : op = .call
    · cases dest <;> cases f.terminator? b <;> simp [hc, hcall]
    · cases dest <;> cases op.hasDef <;> cases f.terminator? b <;> simp [hc, hphi, harg]

theorem level_of_misplaced {d : Diagnostic} (h : misplaced? f file b dest i op = some d) :
    d.level = .error := by
  unfold misplaced? at h
  dsimp only at h
  split at h
  · cases h
    rfl
  split at h
  · cases h
    rfl
  split at h
  · cases h
    rfl
  split at h
  · cases h
    rfl
  · split at h <;> cases h <;> rfl

theorem fits_args {v : Option Variable} {types : String → Option ValueType}
    {as : List (Option Arg)} (hk : Knows types f) (hfits : i.fits dest op = true)
    (hop : op ≠ .invalid) (haims : Aims types f dest v)
    (hdest : dest.all (·.assignable types) = true)
    (hreads : List.Forall₂ (Reads types f) i.operands as)
    (hall : i.operands.all (·.value.readable types) = true) :
    Flow.Fits op v (as.filterMap fun a => a) f := by
  have hsome : v.isSome = dest.isSome := by rw [haims.isSome, hdest, Bool.and_true]
  have hlen : (as.filterMap fun a => a).length = i.operands.length := by
    simpa using congrArg List.length (words_of_reads hreads hall)
  rw [Inst.fits, Bool.and_eq_true, Bool.and_eq_true, Bool.and_eq_true, Bool.or_eq_true,
    decide_eq_true_eq, decide_eq_true_eq, decide_eq_true_eq] at hfits
  obtain ⟨⟨⟨hphi, -⟩, harity⟩, hdef⟩ := hfits
  have hcall : Opcode.call.hasDef = true := rfl
  refine ⟨⟨hop, hphi⟩, by rw [hlen]; exact harity, fun hv => ?_, fun hh => ?_, fun w hw => ?_,
    fun v hv => hk.owns v (own_of_reads hreads hv)⟩
  · rcases hdef with hdef | hdef
    · rw [← hdef, ← hsome]
      exact hv
    · rw [of_decide_eq_true hdef]
      exact hcall
  · rcases hdef with hdef | hdef
    · rw [hsome, hdef]
      exact Or.inl hh
    · exact Or.inr (of_decide_eq_true hdef)
  · obtain ⟨hmem, htype⟩ := haims.own w hw
    exact ⟨hk.owns w hmem, htype, by rw [hk.numbered.varAt hmem]; exact htype⟩

end

/-! ## Instructions -/

/-- Something has been lowered into the block `b`, which without a diagnostic has got one of the
sequences of steps `L`. -/
structure Does (b : NodeId) (L : Language Step) (s s' : State) : Prop
    extends Extends (some b) s s' where
  trees : s'.out.func.trees = s.out.func.trees
  clean : s'.diagnostics = [] →
    s.diagnostics = [] ∧ {s'.out.func.steps b} = {s.out.func.steps b} * L

structure Lands (types : String → Option ValueType) (b : NodeId) (ws : List Written)
    (sts : List Statement) (s s' : State) : Prop where
  code : ∃ is, s'.out.func.code b = s.out.func.code b ++ is ∧ Holds types s' is ws
  accounts : ∃ new, s'.diagnostics = s.diagnostics ++ new ∧ Accounts types ws sts new

section

variable {types : String → Option ValueType} {s s₁ s' : State} {b : NodeId} {L M : Language Step}
  {ws ws' : List Written} {sts sts' : List Statement} {dest : Option Name} {i : Syntax.Inst}

theorem Does.refl (hd : s.out.func.Draft) (b : NodeId) : Does b 1 s s :=
  ⟨.refl hd _, rfl, fun hc => ⟨hc, (mul_one _).symm⟩⟩

theorem Does.trans (h : Does b L s s₁) (h' : Does b M s₁ s') : Does b (L * M) s s' where
  toExtends := h.toExtends.trans h'.toExtends fun _ hb _ => hb
  trees := h'.trees.trans h.trees
  clean hc := by
    obtain ⟨hc₁, hM⟩ := h'.clean hc
    obtain ⟨hc₀, hL⟩ := h.clean hc₁
    exact ⟨hc₀, by rw [hM, hL, mul_assoc]⟩

theorem Lands.refl (types : String → Option ValueType) (b : NodeId) (s : State) :
    Lands types b [] [] s s :=
  ⟨⟨[], (List.append_nil _).symm, .nil types s⟩, [], (List.append_nil _).symm, .nil types⟩

theorem Lands.trans (h : Lands types b ws sts s s₁) (h' : Lands types b ws' sts' s₁ s')
    (hext : Extends (some b) s₁ s') : Lands types b (ws ++ ws') (sts ++ sts') s s' where
  code := by
    obtain ⟨is, hcode, hholds⟩ := h.code
    obtain ⟨is', hcode', hholds'⟩ := h'.code
    exact ⟨is ++ is', by rw [hcode', hcode, List.append_assoc], (hext.holds hholds).append hholds'⟩
  accounts := by
    obtain ⟨new, hnew, ha⟩ := h.accounts
    obtain ⟨new', hnew', ha'⟩ := h'.accounts
    exact ⟨new ++ new', by rw [hnew', hnew, List.append_assoc], ha.append ha'⟩

/-- Where something has been reported, nothing more is said of the steps. -/
theorem Reports.does {l : List Diagnostic} (h : Reports l s s') (hd : s.out.func.Draft)
    (hne : l ≠ []) (b : NodeId) (L : Language Step) : Does b L s s' := by
  refine ⟨h.extends hd _, by rw [h.out], fun hc => ?_⟩
  rw [h.diagnostics] at hc
  exact absurd (List.append_eq_nil_iff.mp hc).2 hne

/-- What is not accepted has been reported, and nothing else has happened. -/
theorem Reports.lands {l : List Diagnostic} (h : Reports l s s') (hne : l ≠ []) {w : Written}
    (hw : w.accepted types = false) (b : NodeId) : Lands types b [w] [] s s' where
  code := by
    refine ⟨[], by rw [h.out, List.append_nil], ?_⟩
    rw [Holds, List.filter_cons_of_neg (by rw [hw]; exact Bool.false_ne_true)]
    exact .nil
  accounts := ⟨l, h.diagnostics, .instruction ⟨by simp [hne, hw], h.errors⟩⟩

theorem singleton_mul {α : Type} (v w : List α) : ({v} * {w} : Language α) = {v ++ w} :=
  Set.image2_singleton

/-- Reads the operands of an instruction and puts it behind the others of a block, unless
something was wrong with them or with what it defines. -/
def place (b : NodeId) (dest : Option Name) (i : Syntax.Inst) (op : Opcode)
    (target : Option Variable) : Lower Unit := do
  let args ← i.operands.mapM (operand (constantType (← func) i target))
  if dest.isSome && target.isNone || args.any Option.isNone then return
  let id ← edit (Edit.appendInst b op target (args.filterMap fun a => a))
  let here ← locate (dest.map Name.start |>.getD i.start)
  let file := (← get).file
  let operandAt := i.operands.zipIdx.map fun (o, slot) =>
    ((⟨id, slot⟩ : UseSite), Location.ofPosition file o.start)
  modify fun s => { s with out := { s.out with
    instAt := s.out.instAt ++ [(id, here)]
    operandAt := s.out.operandAt ++ operandAt } }

theorem instruction_eq {op : Opcode} (hop : Opcode.ofName? i.op.text = some op)
    (hm : misplaced? s.out.func s.file b dest i op = none) :
    instruction b dest i s = (target dest >>= place b dest i op) s := by
  rw [instruction, hop]
  dsimp only
  rw [bind_eq (func_eq s), bind_eq (get_eq s), hm]
  cases dest <;> rfl

def Lowered.placing (out : Lowered) (f : Func) (file : String) (j : InstId) (dest : Option Name)
    (i : Syntax.Inst) : Lowered := { out with
  func := f
  instAt := out.instAt ++ [(j, .ofPosition file ((dest.map Name.start).getD i.start))]
  operandAt := out.operandAt ++ i.operands.zipIdx.map fun x =>
    ((⟨j, x.2⟩ : UseSite), Location.ofPosition file x.1.start) }

theorem place_eq {op : Opcode} {v : Option Variable} {as : List (Option Arg)} {f : Func}
    {j : InstId} (hargs : i.operands.mapM (operand (constantType s.out.func i v)) s = .ok (as, s₁))
    (hgood : (dest.isSome && v.isNone || as.any Option.isNone) = false)
    (hrun : Edit.appendInst b op v (as.filterMap fun a => a) s₁.out.func = .ok j f) :
    place b dest i op v s = .ok ((), { s₁ with out := s₁.out.placing f s₁.file j dest i }) := by
  rw [place, bind_eq (func_eq s), bind_eq hargs]
  simp only [hgood, Bool.false_eq_true, if_false]
  rw [bind_eq (edit_eq hrun)]
  rfl

/-- An instruction behind the others of a block adds to that block. -/
theorem appends_builds {f f' : Func} {j : InstId} {op : Opcode} {dest : Option VarId}
    {os : List Flow.Operand} (hd : f'.Draft) (h : Appends b j op dest os f f') :
    Builds (some b) f f' where
  draft := hd
  stored hb := by rw [h.stored]; exact hb
  handle := h.handle
  head := h.head
  grows c := by
    rw [h.code]
    split
    · next hc => exact hc ▸ List.prefix_append _ _
    · exact List.prefix_rfl
  code _ hne := by rw [h.code, if_neg fun he => hne (congrArg some he.symm)]
  kept hi := by rw [h.told, if_neg fun he => h.fresh _ (he ▸ hi)]
  vars := h.vars

theorem lookup_of_not_mem {α β : Type} [BEq α] [LawfulBEq α] {l : List (α × β)} {a : α}
    (h : ∀ e ∈ l, e.1 ≠ a) : l.lookup a = none := by
  rw [List.lookup_eq_none_iff]
  exact fun e he => by simpa using Ne.symm (h e he)

theorem lookup_zipIdx {os : List Syntax.Operand} {file : String} {j : InstId} {slot : Nat}
    {o : Syntax.Operand} (h : os[slot]? = some o) :
    (os.zipIdx.map fun x => ((⟨j, x.2⟩ : UseSite), Location.ofPosition file x.1.start)).lookup
      ⟨j, slot⟩ = some (.ofPosition file o.start) := by
  suffices key : ∀ (os : List Syntax.Operand) (n : Nat), os[slot]? = some o →
      ((os.zipIdx n).map fun x => ((⟨j, x.2⟩ : UseSite), Location.ofPosition file x.1.start)).lookup
        ⟨j, n + slot⟩ = some (.ofPosition file o.start) by
    simpa using key os 0 h
  clear h
  intro os
  induction os generalizing slot with
  | nil => intro n h; cases h
  | cons p os ih =>
    intro n h
    rw [List.zipIdx_cons, List.map_cons, List.lookup_cons]
    cases slot with
    | zero =>
      obtain rfl := Option.some.inj h
      simp
    | succ k =>
      have hne : ((⟨j, n + (k + 1)⟩ : UseSite) == ⟨j, n⟩) = false := by simp
      rw [hne, show n + (k + 1) = n + 1 + k by omega]
      exact ih (n + 1) h

/-- A new instruction and some places of it and of its operands. -/
theorem extends_appended {f : Func} {j : InstId} {op : Opcode} {v : Option VarId}
    {os : List Flow.Operand} (hd : f.Draft) (h : Appends b j op v os s.out.func f)
    {p : List (InstId × Location)} {q : List (UseSite × Location)} (hp : ∀ e ∈ p, e.1 = j)
    (hq : ∀ e ∈ q, e.1.inst = j) : Extends (some b) s { s with out := { s.out with
      func := f, instAt := s.out.instAt ++ p, operandAt := s.out.operandAt ++ q } } where
  builds := appends_builds hd h
  file := rfl
  source := rfl
  insts := List.prefix_append _ _
  operands := List.prefix_append _ _
  keyed hk := by
    have hbuilds := appends_builds hd h
    have hj : j ∈ f.code b := by rw [h.code, if_pos rfl]; simp
    refine ⟨fun e he => ?_, fun e he => ?_⟩
    · rcases List.mem_append.mp he with he | he
      · obtain ⟨c, hc⟩ := hk.insts e he
        exact ⟨c, (hbuilds.grows c).subset hc⟩
      · exact ⟨b, (hp e he).symm ▸ hj⟩
    · rcases List.mem_append.mp he with he | he
      · obtain ⟨c, hc⟩ := hk.operands e he
        exact ⟨c, (hbuilds.grows c).subset hc⟩
      · exact ⟨b, (hq e he).symm ▸ hj⟩

theorem records_placing {f : Func} {j : InstId} {op : Opcode} {v : Option VarId}
    {os : List Flow.Operand} (h : Appends b j op v os s.out.func f)
    (hstep : f.step j = i.step dest) (hkeyed : s.out.Keyed) (late : Bool) :
    (s.out.placing f s.file j dest i).Records s.file j ⟨dest, i, late⟩ where
  held := ⟨b, by change j ∈ f.code b; rw [h.code, if_pos rfl]; simp⟩
  step := hstep
  place := by
    have hnone : s.out.instAt.lookup j = none := by
      refine lookup_of_not_mem fun e he hej => ?_
      obtain ⟨c, hc⟩ := hkeyed.insts e he
      exact h.fresh c (hej ▸ hc)
    rw [Lowered.placing, List.lookup_append, hnone, Option.none_or, List.lookup_cons_self]
    rfl
  operands {slot o} hslot := by
    have hnone : s.out.operandAt.lookup ⟨j, slot⟩ = none := by
      refine lookup_of_not_mem fun e he hej => ?_
      obtain ⟨c, hc⟩ := hkeyed.operands e he
      rw [hej] at hc
      exact h.fresh c hc
    rw [Lowered.placing, List.lookup_append, hnone, Option.none_or]
    exact lookup_zipIdx hslot

theorem does_placing {f : Func} {j : InstId} {op : Opcode} {v : Option VarId}
    {os : List Flow.Operand} (hd : f.Draft) (h : Appends b j op v os s.out.func f)
    (hstep : f.step j = i.step dest) :
    Does b {[i.step dest]} s { s with out := s.out.placing f s.file j dest i } := by
  have hext : Extends (some b) s { s with out := s.out.placing f s.file j dest i } :=
    extends_appended hd h (List.forall_mem_singleton.mpr rfl) fun e he => by
      obtain ⟨x, -, rfl⟩ := List.mem_map.mp he
      rfl
  refine ⟨hext, h.trees, fun hc => ⟨hc, ?_⟩⟩
  have hold : (s.out.func.code b).map f.step = (s.out.func.code b).map s.out.func.step :=
    List.map_congr_left fun k hk => hext.builds.step hk
  have hsteps : f.steps b = s.out.func.steps b ++ [i.step dest] := by
    rw [Func.steps, h.code, if_pos rfl, List.map_append, hold, List.map_singleton, hstep]
    rfl
  rw [singleton_mul]
  exact congrArg _ hsteps

theorem lands_placing {f : Func} {j : InstId} {op : Opcode} {v : Option VarId}
    {os : List Flow.Operand} (h : Appends b j op v os s.out.func f)
    (hstep : f.step j = i.step dest) (hkeyed : s.out.Keyed) {late : Bool}
    (hacc : (Written.mk dest i late).accepted types = true) :
    Lands types b [⟨dest, i, late⟩] [] s { s with out := s.out.placing f s.file j dest i } where
  code := by
    refine ⟨[j], (h.code b).trans (if_pos rfl), ?_⟩
    rw [Holds, List.filter_cons_of_pos hacc]
    exact .cons (records_placing h hstep hkeyed late) .nil
  accounts := ⟨[], (List.append_nil _).symm, .instruction ⟨iff_of_true rfl hacc, nofun⟩⟩

theorem ended_placing {f f' : Func} {j : InstId} {op : Opcode} {v : Option VarId}
    {os : List Flow.Operand} (h : Appends b j op v os f f') : f'.ended b = op.terminates := by
  have hcode : (f'.blockAt b).instructions = f.code b ++ [j] := by
    have := h.code b
    rwa [if_pos rfl] at this
  have hop : (f'.inst j).op = op := by
    have := h.told j
    rw [if_pos rfl] at this
    exact congrArg Prod.fst this
  rw [Func.ended, Func.terminator?, hcode, List.getLast?_append]
  simp only [List.getLast?_singleton, Option.some_or, Option.filter_some, hop]
  cases op.terminates <;> rfl

/-- An instruction that is reported leaves the function as it is. -/
theorem Reports.refuses {l : List Diagnostic} (hr : Reports l s s') (hd : s.out.func.Draft)
    (hne : l ≠ []) (hw : (Written.mk dest i (s.out.func.ended b)).accepted types = false) :
    Does b {[i.step dest]} s s' ∧ Lands types b [⟨dest, i, s.out.func.ended b⟩] [] s s' ∧
      s'.out.func.ended b = (s.out.func.ended b || i.ends types dest) := by
  refine ⟨hr.does hd hne _ _, hr.lands hne hw b, ?_⟩
  rw [Written.accepted, Bool.and_eq_false_iff, Bool.not_eq_false'] at hw
  rw [hr.out]
  rcases hw with hw | hw
  · have hend : s.out.func.ended b = true := hw
    rw [hend, Bool.true_or]
  · rw [Inst.ends, hw, Bool.false_and, Bool.or_false]

theorem not_accepted_of_misplaced {op : Opcode} {d : Diagnostic} {file : String}
    (hop : Opcode.ofName? i.op.text = some op)
    (hm : misplaced? s.out.func file b dest i op = some d) :
    (Written.mk dest i (s.out.func.ended b)).accepted types = false := by
  have hnot : ¬ (i.fits dest op = true ∧ s.out.func.ended b = false) := fun h => by
    rw [misplaced?_eq_none.mpr h] at hm
    cases hm
  rw [Written.accepted, Inst.acceptable, hop, Option.any_some]
  cases hf : i.fits dest op with
  | false => simp
  | true =>
    cases he : s.out.func.ended b with
    | true => simp
    | false => exact absurd ⟨hf, he⟩ hnot

/-- An instruction whose destination and operands have been read is put behind the others. -/
theorem place_run {op : Opcode} {v : Option Variable} {as : List (Option Arg)}
    (hd : s.out.func.Draft) (hk : Knows types s.out.func) (hkeyed : s.out.Keyed)
    (hb : (s.out.func.nodes.get? b).isSome) (hop : Opcode.ofName? i.op.text = some op)
    (hfits : i.fits dest op = true) (hend : s.out.func.ended b = false)
    (hacc : i.acceptable types dest = true) (haims : Aims types s.out.func dest v)
    (hargs : i.operands.mapM (operand (constantType s.out.func i v)) s = .ok (as, s))
    (hreads : List.Forall₂ (fun o a => Reads types s.out.func o a) i.operands as)
    (hskip : (dest.isSome && v.isNone || as.any Option.isNone) = false) :
    ∃ s', place b dest i op v s = .ok ((), s') ∧
      Does b {[i.step dest]} s s' ∧ Lands types b [⟨dest, i, s.out.func.ended b⟩] [] s s' ∧
      s'.out.func.ended b = (s.out.func.ended b || i.ends types dest) := by
  have hall := hacc
  rw [Inst.acceptable, Bool.and_eq_true, Bool.and_eq_true] at hall
  obtain ⟨⟨-, hdest⟩, hread⟩ := hall
  have hf := fits_args hk hfits (ofName?_ne_invalid hop) haims hdest hreads hread
  obtain ⟨j, f, hrun⟩ := appendInst_granted hd hb hf hend
  obtain ⟨hdraft, happ⟩ := appendInst_draft hd hb hrun
  have hstep : f.step j = i.step dest := by
    have htold := happ.told j
    rw [if_pos rfl] at htold
    rw [Func.step, htold, stepOf_eq happ.vars, Func.stepOf, Inst.step, ofName?_name hop,
      List.map_map, ← words_of_reads hreads hread, haims.text hk.numbered hdest]
    rfl
  refine ⟨_, place_eq hargs hskip hrun, does_placing hdraft happ hstep,
    lands_placing happ hstep hkeyed (by rw [Written.accepted, hend, hacc]; rfl), ?_⟩
  rw [hend, Bool.false_or, Inst.ends, hacc, hop]
  exact ended_placing happ

/-- An instruction is added to its block or reported, and tells whether it ends the block. -/
theorem instruction_run (hd : s.out.func.Draft) (hk : Knows types s.out.func)
    (hkeyed : s.out.Keyed) (hb : (s.out.func.nodes.get? b).isSome) (dest : Option Name)
    (i : Syntax.Inst) : ∃ s', instruction b dest i s = .ok ((), s') ∧
      Does b {[i.step dest]} s s' ∧ Lands types b [⟨dest, i, s.out.func.ended b⟩] [] s s' ∧
      s'.out.func.ended b = (s.out.func.ended b || i.ends types dest) := by
  cases hop : Opcode.ofName? i.op.text with
  | none =>
    obtain ⟨s', hrun, hr⟩ := report_run s (d := .unknownOpcode i.op.text
      (.ofPosition s.file i.op.start) Opcode.names) (level_suggestSimilar _ _ _)
    refine ⟨s', ?_, hr.refuses hd (List.cons_ne_nil _ _) ?_⟩
    · rw [instruction, hop]
      exact (bind_eq (locate_eq _ _)).trans hrun
    · rw [Written.accepted, Inst.acceptable, hop]
      simp
  | some op =>
    cases hm : misplaced? s.out.func s.file b dest i op with
    | some d =>
      obtain ⟨s', hrun, hr⟩ := report_run s (level_of_misplaced hm)
      refine ⟨s', ?_, hr.refuses hd (List.cons_ne_nil _ _) (not_accepted_of_misplaced hop hm)⟩
      rw [instruction, hop]
      dsimp only
      rw [bind_eq (func_eq s), bind_eq (get_eq s), hm]
      exact (bind_eq hrun).trans rfl
    | none =>
      obtain ⟨hfits, hend⟩ := misplaced?_eq_none.mp hm
      rw [instruction_eq hop hm]
      obtain ⟨v, l, s₁, htarget, hr, haims, hl⟩ := target_run hk dest
      obtain ⟨as, l', s₂, hargs, hr', hreads, hl'⟩ := operands_run
        (constantType s₁.out.func i v) i.operands (hr.out ▸ hk)
      have hr₂ := hr.trans hr'
      have hnone := any_isNone hreads
      rw [hr.out] at hreads
      have hempty : l ++ l' = [] ↔ i.acceptable types dest = true := by
        rw [List.append_eq_nil_iff, hl, hl', Inst.acceptable, hop, Option.any_some, hfits,
          Bool.true_and, Bool.and_eq_true]
      have hskip : (dest.isSome && v.isNone || as.any Option.isNone) =
          !i.acceptable types dest := by
        have hv := haims.isSome
        rw [hnone, Inst.acceptable, hop, Option.any_some, hfits, Bool.true_and, Bool.not_and]
        congr 1
        cases dest <;> cases v <;> simp_all
      rw [bind_eq htarget]
      cases hacc : i.acceptable types dest with
      | false =>
        rw [hacc, Bool.not_false] at hskip
        refine ⟨s₂, ?_, hr₂.refuses hd (fun h => ?_) ?_⟩
        · rw [place, bind_eq (func_eq s₁), bind_eq hargs, if_pos hskip]
          rfl
        · rw [hempty, hacc] at h
          cases h
        · rw [Written.accepted, hacc, Bool.and_false]
      | true =>
        rw [hacc, Bool.not_true] at hskip
        have hnil := hempty.mpr hacc
        have hs₁ : s₁ = s := by
          rw [hr.state, (List.append_eq_nil_iff.mp hnil).1, List.append_nil]
        have hs₂ : s₂ = s := by rw [hr₂.state, hnil, List.append_nil]
        rw [hs₁, hs₂] at hargs
        rw [hs₁]
        exact place_run hd hk hkeyed hb hop hfits hend hacc haims hargs hreads hskip

end

end DefFlow.Lowering
