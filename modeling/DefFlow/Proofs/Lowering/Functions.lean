import DefFlow.Proofs.Lowering.Declarations
import DefFlow.Proofs.Runs.Calls

/-!
# Lowering functions

Lowering a function fails only if one of its arguments has the type void. Main statement: a
function that has been lowered has all of its blocks in its body, which starts with the block that
defines the arguments. Behind their definitions it has the accepted instructions of its source;
everything else is reported, and without a diagnostic the body allows the steps of the arguments,
followed by those of the source.
-/

set_option autoImplicit false

namespace DefFlow.Lowering

open DefFlow.Flow Syntax Component Computability

def argStep (name : String) : Step := ⟨"arg", some name, []⟩

/-! ## The start of a function -/

structure Opens (b : NodeId) (names : List String) (s s' : State) : Prop
    extends Extends (some b) s s' where
  trees : s'.out.func.trees = s.out.func.trees
  diagnostics : s'.diagnostics = s.diagnostics
  ended : s'.out.func.ended b = false
  code : ∃ is, s'.out.func.code b = s.out.func.code b ++ is ∧
    is.map s'.out.func.step = names.map argStep

section

variable {types : String → Option ValueType} {s s₁ s' : State} {b : NodeId} {f : Func}
  {names names' : List String} {p : Param} {a : VarId}

theorem Opens.trans (h : Opens b names s s₁) (h' : Opens b names' s₁ s') :
    Opens b (names ++ names') s s' where
  toExtends := h.toExtends.trans h'.toExtends fun _ hc _ => hc
  trees := h'.trees.trans h.trees
  diagnostics := h'.diagnostics.trans h.diagnostics
  ended := h'.ended
  code := by
    obtain ⟨is, hcode, hsteps⟩ := h.code
    obtain ⟨is', hcode', hsteps'⟩ := h'.code
    refine ⟨is ++ is', by rw [hcode', hcode, List.append_assoc], ?_⟩
    rw [List.map_append, List.map_append, hsteps', ← hsteps]
    refine congrArg (· ++ _) (List.map_congr_left fun i hi => h'.builds.step (b := b) ?_)
    rw [hcode]
    exact List.mem_append_right _ hi

theorem isVoid_eq (text : String) :
    ((ValueType.ofName? text).getD (.int 64)).isVoid = decide (text = "void") := by
  cases h : ValueType.ofName? text with
  | none =>
    refine (decide_eq_false ?_).symm
    rintro rfl
    cases h
  | some t =>
    have hname : t.text = text := by simpa using List.find?_some h
    rw [Option.getD_some, ← hname]
    have hall : ∀ t ∈ ValueType.all, t.isVoid = decide (t.text = "void") := by decide
    exact hall t (List.mem_of_find?_eq_some h)

/-- A parameter is defined by an instruction if its type has values. -/
theorem argument_run (hg : Good types s) (hb : (s.out.func.nodes.get? b).isSome)
    (hend : s.out.func.ended b = false) {v : Variable} (hown : v.owner = s.out.func.handle)
    (hvar : (s.out.func.varAt v.id).plain = v.plain) (hvoid : v.type.isVoid = false) : ∃ i f,
    edit (Edit.appendInst b .arg (some v) []) s =
      .ok (i, { s with out := { s.out with func := f } }) ∧
    ∀ here : Location, Opens b [v.name] s { s with out := { s.out with
      func := f, instAt := s.out.instAt ++ [(i, here)] } } := by
  have hfits : Fits .arg (some v) [] s.out.func :=
    ⟨⟨by decide, by decide⟩, rfl, fun _ => rfl, fun _ => Or.inl rfl, fun w hw => by
      obtain rfl := Option.some.inj hw
      exact ⟨hown, hvoid, by rw [(Variable.eq_of_plain hvar).2.2.2]; exact hvoid⟩, nofun⟩
  obtain ⟨i, f, hrun⟩ := appendInst_granted hg.draft hb hfits hend
  obtain ⟨hd, happ⟩ := appendInst_draft hg.draft hb hrun
  refine ⟨i, f, edit_eq hrun, fun here => ?_⟩
  have hext := extends_appended hd happ (p := [(i, here)]) (q := [])
    (List.forall_mem_singleton.mpr rfl) nofun
  rw [List.append_nil] at hext
  refine ⟨hext, happ.trees, rfl, ended_placing happ, [i], (happ.code b).trans (if_pos rfl), ?_⟩
  have hname : (s.out.func.varAt v.id).name = v.name := (Variable.eq_of_plain hvar).2.2.1
  have hstep : f.step i = argStep v.name := by
    have htold := happ.told i
    rw [if_pos rfl] at htold
    rw [Func.step, htold, stepOf_eq happ.vars, Func.stepOf, Option.map_some, Option.map_some, hname]
    rfl
  exact congrArg (· :: []) hstep

def defineArgument (b : NodeId) (f : Func) (a : VarId) : Lower Unit := do
  let i ← edit (Edit.appendInst b .arg (some (f.varAt a)) [])
  let here := ((← get).out.declaredAt.lookup a).getD default
  modify fun s => { s with out := { s.out with instAt := s.out.instAt ++ [(i, here)] } }

theorem prologue_eq (b : NodeId) (s : State) :
    prologue b s = s.out.func.args.forM (defineArgument b s.out.func) s := by
  have hloop (f : Func) (l : List VarId) : (do
      forIn l PUnit.unit fun v (_ : PUnit) => do
        let i ← edit (Edit.appendInst b .arg (some (f.varAt v)) [])
        let here := ((← get).out.declaredAt.lookup v).getD default
        modify fun s => { s with out := { s.out with instAt := s.out.instAt ++ [(i, here)] } }
        pure (ForInStep.yield PUnit.unit)
      pure PUnit.unit : Lower PUnit) = l.forM (defineArgument b f) := by
    induction l with
    | nil => rfl
    | cons a l ih =>
      change _ = defineArgument b f a >>= fun _ => l.forM (defineArgument b f)
      rw [List.forIn_cons, ← ih, defineArgument]
      simp only [bind_assoc, pure_bind]
  rw [prologue, bind_eq (func_eq s)]
  exact congrFun (hloop _ _) s

/-- The arguments are defined in their order, up to one without values. -/
theorem arguments_run (hk : Knows types f) {l : List VarId} {ps : List Param}
    (hl : List.Forall₂ (Stands f) l ps) : ∀ {s : State}, Good types s →
    (s.out.func.nodes.get? b).isSome → s.out.func.ended b = false →
    s.out.func.handle = f.handle →
    s.out.func.vars.map Variable.plain = f.vars.map Variable.plain →
    (ps.any Param.isVoid = true ∧ ∃ e, l.forM (defineArgument b f) s = .error e) ∨
    (ps.any Param.isVoid = false ∧ ∃ s', l.forM (defineArgument b f) s = .ok ((), s') ∧
      Opens b (ps.map fun p => p.name.text) s s') := by
  induction hl with
  | nil =>
    intro s hg hb hend hh hv
    exact Or.inr ⟨rfl, s, rfl, .refl hg.draft _, rfl, rfl, hend, [], (List.append_nil _).symm, rfl⟩
  | @cons a p l ps hstands _ ih =>
    intro s hg hb hend hh hv
    obtain ⟨v, hmem, rfl, hname, htype⟩ := hstands
    have hat : f.varAt v.id = v := hk.numbered.varAt hmem
    have hisVoid : v.type.isVoid = p.isVoid := by rw [htype, isVoid_eq]; rfl
    have hcons : (v.id :: l).forM (defineArgument b f) =
        (defineArgument b f v.id >>= fun _ => l.forM (defineArgument b f)) := rfl
    rw [hcons, List.any_cons]
    cases hvoid : p.isVoid with
    | true =>
      obtain ⟨e, f', hrun⟩ := appendInst_refused (hisVoid.trans hvoid) b .arg [] s.out.func
      refine Or.inl ⟨rfl, e, bind_error ?_⟩
      rw [defineArgument, hat]
      exact bind_error (edit_error hrun)
    | false =>
      obtain ⟨i, g, hrun, hopens⟩ := argument_run hg hb hend ((hk.owns v hmem).trans hh.symm)
        (by rw [varAt_plain hv, hat]) (hisVoid.trans hvoid)
      have hone : defineArgument b f v.id s = .ok ((), { s with out := { s.out with
          func := g
          instAt := s.out.instAt ++ [(i, (s.out.declaredAt.lookup v.id).getD default)] } }) := by
        rw [defineArgument, hat, bind_eq hrun]
        rfl
      have hfirst := hopens ((s.out.declaredAt.lookup v.id).getD default)
      rw [bind_eq hone, Bool.false_or]
      refine (ih (hg.extends hfirst.toExtends) (hfirst.builds.stored hb) hfirst.ended
        (hfirst.builds.handle.trans hh) (hfirst.builds.vars.trans hv)).imp id ?_
      rintro ⟨hnone, s', hrest, hopens'⟩
      refine ⟨hnone, s', hrest, ?_⟩
      rw [List.map_cons, ← hname]
      exact hfirst.trans hopens'

theorem new_draft (handle : Nat) (name : String) : (Func.new handle name).Draft := by
  have hu := new_unjoined handle name
  have hwaiting : ∀ b v, (Func.new handle name).waiting b v = [] := fun b v => by
    rw [Func.waiting, timeline?_new]
  have hinst : ∀ i, (Func.new handle name).inst i = default := fun i => by
    rw [Func.inst, show (Func.new handle name).insts = .empty from rfl, Arena.get?_empty]
    rfl
  exact {
    forest := hu.forest
    tables := hu.tables
    scheduled := hu.scheduled
    unfrozen := rfl
    memo := rfl
    nodes := hu.nodes
    waits := {
      nodup := fun b v => by rw [hwaiting]; exact List.nodup_nil
      mem := fun b v u => by
        rw [hwaiting, usedAt_iff, hinst]
        exact iff_of_false List.not_mem_nil (by rintro ⟨⟨⟨⟩, _⟩, _⟩) } }

variable {file : String} {handle : Nat} {src : Syntax.Function} {decls : List (Name × Name)}
  {ps : List Param}

/-- Once its variables are declared the body of a function can be filled. -/
theorem Declares.open (h : Declares (.start file handle src) decls ps s) :
    Open (typeIn decls) 2 [] none [] s := by
  have hknows := h.knows
  obtain ⟨vars, args, returns, declaredAt, ds, rfl⟩ := h.rest
  have hd := new_draft handle src.name.text
  have hf := hd.forest
  exact {
    draft := Reroots.draft (f := Func.new handle src.name.text)
      ⟨rfl, rfl, fun _ => rfl, rfl, rfl, rfl⟩ hd ⟨hf.held, hf.nodup, hf.bounded, hf.stored⟩ hd.memo
    knows := hknows
    keyed := ⟨fun _ he => absurd he List.not_mem_nil, fun _ he => absurd he List.not_mem_nil⟩
    trees := rfl
    last := fun _ hb => by cases hb }

theorem Stands.congr {f' : Func} (h : f'.vars.map Variable.plain = f.vars.map Variable.plain)
    (hs : Stands f a p) : Stands f' a p := by
  obtain ⟨v, hv, rfl, hname, htype⟩ := hs
  have hmem : v.plain ∈ f'.vars.map Variable.plain := h ▸ List.mem_map_of_mem hv
  obtain ⟨w, hw, hplain⟩ := List.mem_map.mp hmem
  obtain ⟨-, hid, hname', htype'⟩ := Variable.eq_of_plain hplain
  exact ⟨w, hw, hid, hname'.trans hname, htype'.trans htype⟩

structure Built (file : String) (src : Syntax.Function) (out : Lowered) (ds : List Diagnostic) :
    Prop where
  source : out.source = src
  name : out.func.name = src.name.text
  draft : out.func.Draft
  detached : out.func.detached = []
  body : ∃ e es, out.func.body = .seq 2 (.block e :: es)
  /-- Without a diagnostic the body allows the steps of the arguments and then those of the
  source. -/
  clean : ds = [] → out.func.body.lang out.func.steps =
    {src.params.map fun p => argStep p.name.text} * src.body.reading
  /-- Behind the definitions of the arguments stand the accepted instructions. -/
  code : ∃ ps is, out.func.blocks.flatMap out.func.code = ps ++ is ∧
    ps.map out.func.step = src.arguments.map (fun p => argStep p.name.text) ∧
    List.Forall₂ (out.Records file) is ((src.body.written (typeIn src.declarations)).filter
      (Written.accepted (typeIn src.declarations)))
  /-- The diagnostics are those about the declarations, the instructions and the strays. -/
  reports : ∃ decl new, ds = decl ++ new ∧ (∀ d ∈ decl, d.level = .error) ∧
    (decl = [] ↔ (src.declarations.map fun d => d.1.text).Nodup ∧
      ∀ d ∈ src.declarations, (ValueType.ofName? d.2.text).isSome) ∧
    Accounts (typeIn src.declarations) (src.body.written (typeIn src.declarations))
      src.body.straysWithin new

/-- A function is built from its declarations, its arguments and its statements. -/
theorem built_of_fills {s₃ s₅ s₆ s₇ : State} {e : NodeId} {cur : Option NodeId}
    {es : List Component} (hdecl : Declares (.start file handle src) src.declarations src.params s₃)
    (hentry : Fills (typeIn src.declarations) 2 [] none (some e) [] [.block e] 1 [] [] s₃ s₅)
    (hcode : s₅.out.func.code e = [])
    (hopens : Opens e (src.arguments.map fun p => p.name.text) s₅ s₆)
    (hrest : Fills (typeIn src.declarations) 2 [] (some e) cur [.block e] es
      (readingAll src.body.statements) (writtenAll (typeIn src.declarations)
        (lateOf (some e) s₆) src.body.statements) (straysAll src.body.statements) s₆ s₇) :
    Built file src s₇.out s₇.diagnostics := by
  have hext : Extends none s₃ s₇ := hentry.toExtends.trans
    (hopens.toExtends.trans hrest.toExtends fun _ hc _ => hc)
    fun b hb hs => (hentry.last b hb).2 hs
  have hblock : ∃ start stop, src.body = .mk start stop src.body.statements := by
    cases src.body with
    | mk start stop sts => exact ⟨start, stop, rfl⟩
  obtain ⟨start, stop, hblock⟩ := hblock
  obtain ⟨is, his, hsteps⟩ := hopens.code
  rw [hcode, List.nil_append] at his
  have hlate : lateOf (some e) s₆ = false := hopens.ended
  rw [hlate] at hrest
  obtain ⟨new, rfl⟩ := hrest.kept
  obtain ⟨hbody, hdetached⟩ := List.cons.inj (show s₇.out.func.body :: s₇.out.func.detached = _ from
    hrest.trees)
  have hfile : s₃.file = file ∧ s₃.out.source = src ∧ s₃.out.func.name = src.name.text := by
    obtain ⟨vars, args, returns, declaredAt, ds, rfl⟩ := hdecl.rest
    exact ⟨rfl, rfl, rfl⟩
  refine ⟨hext.source.trans hfile.2.1, ?_, hext.builds.draft, hdetached, ⟨e, new, hbody⟩,
    fun hc => ?_, ?_, ?_⟩
  · have hname : s₇.out.func.name = s₃.out.func.name := congrArg Prod.fst hext.builds.head
    exact hname.trans hfile.2.2
  · obtain ⟨hc₆, hlang⟩ := hrest.clean hc
    obtain ⟨hc₃, -⟩ := hentry.clean (hopens.diagnostics ▸ hc₆)
    have hargs : src.arguments = src.params := by
      refine originals_of_nodup (l := src.params) ?_
      have hn := (hdecl.clean.mp hc₃).1
      rw [Function.declarations, List.append_assoc, List.map_append, List.map_map] at hn
      exact hn.of_append_left
    have hstart : s₆.out.func.steps e = src.params.map fun p => argStep p.name.text := by
      rw [Func.steps, his, hsteps, hargs, List.map_map]
      rfl
    rw [hbody, lang, hlang, langAll, langAll, lang, mul_one, hstart, hblock, Block.reading]
    rfl
  · obtain ⟨js, hjs, hholds⟩ := hrest.code
    refine ⟨is, js, ?_, ?_, ?_⟩
    · rw [Func.blocks, hbody, Component.blocks]
      refine hjs.trans (congrArg (· ++ js) ?_)
      rw [listing, blocksAll_singleton, Component.blocks, List.flatMap_singleton, his]
    · have hformed : is.map s₇.out.func.step = is.map s₆.out.func.step :=
        List.map_congr_left fun i hi => hrest.builds.step (b := e) (his ▸ hi)
      rw [hformed, hsteps, List.map_map]
      rfl
    · rw [Holds, hext.file, hfile.1] at hholds
      rw [hblock, Block.written]
      exact hholds
  · obtain ⟨ds, hds, ha⟩ := hentry.accounts
    obtain ⟨ds', hds', ha'⟩ := hrest.accounts
    refine ⟨s₃.diagnostics, ds ++ ds', ?_, hdecl.errors, hdecl.clean, ?_⟩
    · rw [hds', hopens.diagnostics, hds, List.append_assoc]
    · rw [hblock, Block.written, Block.straysWithin]
      exact ha.append ha'

/-- Lowering a function fails exactly if an argument has no values. -/
theorem function_run (file : String) (handle : Nat) (src : Syntax.Function) :
    (src.arguments.any Param.isVoid = true ∧
      ∃ e, function src (.start file handle src) = .error e) ∨
    (src.arguments.any Param.isVoid = false ∧ ∃ s', function src (.start file handle src) =
      .ok ((), s') ∧ Built file src s'.out s'.diagnostics) := by
  obtain ⟨s₁, s₂, s₃, h₁, h₂, h₃, hdecl⟩ := declarations_run file handle src
  have ho := hdecl.open
  obtain ⟨e, s₄, s₅, hnew, hbody, happ, hentry, hcode⟩ := newBlock_run ho "entry"
  have hid : s₄.out.func.body.id = 2 := by
    rw [hbody]
    exact congrArg Component.id (List.cons.inj ho.trees).1
  have ho₅ := hentry.open ho
  have hargs : List.Forall₂ (Stands s₅.out.func) s₅.out.func.args src.arguments := by
    have hhead : s₅.out.func.args = s₃.out.func.args :=
      congrArg (fun h => h.2.1) hentry.builds.head
    rw [hhead]
    exact hdecl.args.imp fun _ _ hs => hs.congr hentry.builds.vars
  rw [function, bind_eq h₁, bind_eq h₂, bind_eq h₃, bind_eq hnew, bind_eq (func_eq s₄)]
  rw [hid, bind_eq happ]
  rcases arguments_run ho₅.knows hargs ho₅.toGood ho₅.stored (ended_of_code_nil hcode) rfl rfl with
    ⟨hvoid, err, hrun⟩ | ⟨hvoid, s₆, hrun, hopens⟩
  · rw [← prologue_eq] at hrun
    exact Or.inl ⟨hvoid, err, bind_error hrun⟩
  · rw [← prologue_eq] at hrun
    have ho₆ : Open (typeIn src.declarations) 2 [] (some e) [.block e] s₆ :=
      ⟨ho₅.toGood.extends hopens.toExtends, hopens.trees.trans ho₅.trees, ho₅.last⟩
    obtain ⟨cur, es, s₇, hsts, hrest⟩ := statements_run src.body.statements ho₆
    exact Or.inr ⟨hvoid, s₇, (bind_eq hrun).trans hsts,
      built_of_fills hdecl hentry hcode hopens hrest⟩

theorem lowerFunction_run (file : String) (handle : Nat) (src : Syntax.Function) :
    (src.arguments.any Param.isVoid = true ∧ ∃ e, lowerFunction file handle src = .error e) ∨
    (src.arguments.any Param.isVoid = false ∧ ∃ out ds,
      lowerFunction file handle src = .ok (out, ds) ∧ Built file src out ds) := by
  have hstart : lowerFunction file handle src =
      (function src (.start file handle src) >>= fun r => .ok (r.2.out, r.2.diagnostics)) := rfl
  rw [hstart]
  rcases function_run file handle src with ⟨hvoid, e, hrun⟩ | ⟨hvoid, s', hrun, hbuilt⟩
  · exact Or.inl ⟨hvoid, e, by rw [hrun]; rfl⟩
  · exact Or.inr ⟨hvoid, _, _, by rw [hrun]; rfl, hbuilt⟩

theorem lowerFunction_built {out : Lowered} {ds : List Diagnostic}
    (h : lowerFunction file handle src = .ok (out, ds)) : Built file src out ds := by
  rcases lowerFunction_run file handle src with ⟨-, e, hrun⟩ | ⟨-, out', ds', hrun, hbuilt⟩
  · rw [hrun] at h
    cases h
  · rw [hrun] at h
    cases h
    exact hbuilt

end

end DefFlow.Lowering
