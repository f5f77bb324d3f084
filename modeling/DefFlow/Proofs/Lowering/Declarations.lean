import DefFlow.Proofs.Lowering.Statements

/-!
# Lowering declarations

The declarations of a function are lowered one after the other and never fail. Main statement: a
name has got the type that it was declared with first, the arguments are the parameters that do
not repeat a name, and there is a diagnostic exactly if a name is declared twice or a type does
not exist.
-/

set_option autoImplicit false

namespace DefFlow.Syntax

section

variable {α : Type} {name : α → String} {a b : α} {l : List α}

theorem originals_append (l : List α) (a : α) : originals name (l ++ [a]) =
    originals name l ++ if l.any fun b => name b = name a then [] else [a] := by
  induction l with
  | nil => rfl
  | cons b l ih =>
    rw [List.cons_append, originals, ih, originals, List.filter_append, List.cons_append,
      List.any_cons]
    by_cases hb : name b = name a
    · rw [decide_eq_true hb, Bool.true_or, if_pos rfl, List.append_nil]
      split
      · rw [List.filter_nil, List.append_nil]
      · rw [List.filter_cons_of_neg (by simpa using hb.symm), List.filter_nil, List.append_nil]
    · rw [decide_eq_false hb, Bool.false_or]
      split
      · rfl
      · rw [List.filter_cons_of_pos (by simpa using Ne.symm hb), List.filter_nil]

theorem originals_of_nodup (h : (l.map name).Nodup) : originals name l = l := by
  induction l with
  | nil => rfl
  | cons a l ih =>
    obtain ⟨ha, hl⟩ := List.nodup_cons.mp h
    rw [originals, ih hl, List.filter_eq_self.mpr fun b hb => ?_]
    have hne : name b ≠ name a := fun he => ha (he ▸ List.mem_map_of_mem hb)
    exact decide_eq_true hne

/-- What comes first in a list with its name is not left out. -/
theorem mem_originals_iff : a ∈ originals name l ↔
    ∃ l₁ l₂, l = l₁ ++ a :: l₂ ∧ ∀ b ∈ l₁, name b ≠ name a := by
  induction l with
  | nil => simp [originals]
  | cons b l ih =>
    rw [originals, List.mem_cons, List.mem_filter, ih, decide_eq_true_eq]
    constructor
    · rintro (rfl | ⟨⟨l₁, l₂, rfl, h⟩, hne⟩)
      · exact ⟨[], l, rfl, nofun⟩
      · exact ⟨b :: l₁, l₂, rfl, List.forall_mem_cons.mpr ⟨hne.symm, h⟩⟩
    · rintro ⟨_ | ⟨c, l₁⟩, l₂, h, hne⟩
      · exact Or.inl (List.cons.inj h).1.symm
      · obtain ⟨rfl, rfl⟩ := List.cons.inj h
        obtain ⟨hc, hne⟩ := List.forall_mem_cons.mp hne
        exact Or.inr ⟨⟨l₁, l₂, rfl, hne⟩, hc.symm⟩

end

/-- The type of a name, where a further declaration is looked at last. -/
theorem typeIn_append (decls : List (Name × Name)) (d : Name × Name) (name : String) :
    typeIn (decls ++ [d]) name = (typeIn decls name).or
      (if d.1.text = name then some ((ValueType.ofName? d.2.text).getD (.int 64)) else none) := by
  rw [typeIn, typeIn, List.find?_append, Option.map_or]
  by_cases h : d.1.text = name <;> simp [h]

end DefFlow.Syntax

namespace DefFlow.Lowering

open DefFlow.Flow Syntax

/-! ## One declaration -/

section

variable {f f' : Func} {v : Variable} {a : VarId} {name : String}
  {add : String → ValueType → Edit Variable} {arg : Bool}

/-- A further variable leaves the others in their places. -/
theorem numbered_append (h : f'.vars = f.vars ++ [v]) (hv : v.id = f.vars.length + 1)
    (hn : f.Numbered) : f'.Numbered := by
  intro k w hk
  rw [h] at hk
  rcases (getElem?_snoc _ _ _ _).mp hk with hk | ⟨rfl, rfl⟩
  · exact hn k w hk
  · exact hv

inductive Declarer : Bool → (String → ValueType → Edit Variable) → Prop
  | plain : Declarer false Edit.addVariable
  | argument : Declarer true Edit.addArgument
  | returned : Declarer false Edit.addReturn

structure Adds (arg : Bool) (v : Variable) (f f' : Func) : Prop where
  rest : ∃ vars args returns, f' = { f with vars, args, returns }
  vars : f'.vars = f.vars ++ [v]
  args : f'.args = f.args ++ if arg then [v.id] else []

theorem Declarer.run (h : Declarer arg add) (hu : f.frozen = false) (hnew : f.varNamed? name = none)
    (t : ValueType) : ∃ f', add name t f = .ok ⟨f.handle, f.vars.length + 1, name, t, 0⟩ f' ∧
      Adds arg ⟨f.handle, f.vars.length + 1, name, t, 0⟩ f f' := by
  have hplain : Edit.addVariable name t f = .ok ⟨f.handle, f.vars.length + 1, name, t, 0⟩
      { f with vars := f.vars ++ [⟨f.handle, f.vars.length + 1, name, t, 0⟩] } :=
    (Edit.bind_eq (Edit.unfrozen_eq hu _)).trans <| (Edit.bind_eq Edit.get_eq).trans <|
      Edit.bind_eq (Edit.require_eq (by rw [hnew]; rfl) _ _)
  cases h with
  | plain => exact ⟨_, hplain, ⟨_, _, _, rfl⟩, rfl, (List.append_nil _).symm⟩
  | argument => exact ⟨_, (Edit.bind_eq hplain).trans rfl, ⟨_, _, _, rfl⟩, rfl, rfl⟩
  | returned =>
    exact ⟨_, (Edit.bind_eq hplain).trans rfl, ⟨_, _, _, rfl⟩, rfl, (List.append_nil _).symm⟩

def Stands (f : Func) (a : VarId) (p : Param) : Prop :=
  ∃ v ∈ f.vars, v.id = a ∧ v.name = p.name.text ∧
    v.type = (ValueType.ofName? p.type.text).getD (.int 64)

end

/-- From the state `s₀` on, the declarations `decls` have been lowered; the first of them are those
of the parameters `ps`. -/
structure Declares (s₀ : State) (decls : List (Name × Name)) (ps : List Param) (s : State) :
    Prop where
  rest : ∃ vars args returns declaredAt diagnostics, s = ⟨s₀.file, { s₀.out with
    func := { s₀.out.func with vars, args, returns }, declaredAt }, diagnostics⟩
  knows : Knows (typeIn decls) s.out.func
  args : List.Forall₂ (Stands s.out.func) s.out.func.args (originals (fun p => p.name.text) ps)
  errors : ∀ d ∈ s.diagnostics, d.level = .error
  clean : s.diagnostics = [] ↔ (decls.map fun d => d.1.text).Nodup ∧
    ∀ d ∈ decls, (ValueType.ofName? d.2.text).isSome

section

variable {s₀ s : State} {decls : List (Name × Name)} {ps : List Param}
  {add : String → ValueType → Edit Variable} {arg : Bool}

theorem Declares.frozen (h : Declares s₀ decls ps s) (hu : s₀.out.func.frozen = false) :
    s.out.func.frozen = false := by
  obtain ⟨vars, args, returns, declaredAt, ds, rfl⟩ := h.rest
  exact hu

theorem typeIn_isSome (decls : List (Name × Name)) (name : String) :
    (typeIn decls name).isSome = decls.any fun d => d.1.text = name := by
  rw [Bool.eq_iff_iff, typeIn, Option.isSome_map, List.find?_isSome, List.any_eq_true]

inductive Follows (decls : List (Name × Name)) (ps : List Param) :
    Bool → Name × Name → List Param → Prop
  | plain (d : Name × Name) : Follows decls ps false d ps
  | argument (p : Param) (h : decls = ps.map Param.declaration) :
    Follows decls ps true p.declaration (ps ++ [p])

variable {d : Name × Name} {ps' : List Param}

theorem Follows.originals_repeated (h : Follows decls ps arg d ps')
    (hd : decls.any (fun e => e.1.text = d.1.text) = true) :
    originals (fun p => p.name.text) ps' = originals (fun p => p.name.text) ps := by
  cases h with
  | plain => rfl
  | argument p h =>
    subst h
    rw [List.any_map] at hd
    rw [originals_append, if_pos (show (ps.any fun q => q.name.text = p.name.text) = true from hd),
      List.append_nil]

theorem Follows.stands {f f' : Func} (h : Follows decls ps arg d ps')
    (hd : decls.any (fun e => e.1.text = d.1.text) = false)
    (hargs : List.Forall₂ (Stands f) f.args (originals (fun p => p.name.text) ps))
    (hadds : Adds arg ⟨f.handle, f.vars.length + 1, d.1.text,
      (ValueType.ofName? d.2.text).getD (.int 64), 0⟩ f f') :
    List.Forall₂ (Stands f') f'.args (originals (fun p => p.name.text) ps') := by
  have hformed : List.Forall₂ (Stands f') f.args (originals (fun p => p.name.text) ps) :=
    hargs.imp fun a p => by
      rintro ⟨v, hv, hrest⟩
      exact ⟨v, by rw [hadds.vars]; exact List.mem_append_left _ hv, hrest⟩
  cases h with
  | plain => rwa [hadds.args, if_neg Bool.false_ne_true, List.append_nil]
  | argument p h =>
    subst h
    rw [List.any_map] at hd
    rw [hadds.args, if_pos rfl, originals_append, if_neg (by exact Bool.eq_false_iff.mp hd)]
    refine List.rel_append hformed (.cons ⟨_, ?_, rfl, rfl, rfl⟩ .nil)
    rw [hadds.vars]
    exact List.mem_append_right _ (List.mem_singleton_self _)

theorem nodup_snoc {l : List (Name × Name)} : ((l ++ [d]).map fun d => d.1.text).Nodup ↔
    (l.map fun d => d.1.text).Nodup ∧ (l.any fun e => e.1.text = d.1.text) = false := by
  rw [List.map_append, List.map_singleton, List.nodup_append, Bool.eq_false_iff, Ne,
    List.any_eq_true]
  simp only [List.mem_map, List.mem_singleton, decide_eq_true_eq, List.nodup_singleton, true_and]
  refine and_congr_right fun _ => ⟨?_, ?_⟩
  · rintro h ⟨e, he, hname⟩
    exact h _ ⟨e, he, rfl⟩ _ rfl hname
  · rintro h _ ⟨e, he, rfl⟩ _ rfl hname
    exact h ⟨e, he, hname⟩

theorem Declares.enter (h : Declares s₀ decls ps s) (hadd : Declarer arg add)
    (hfollows : Follows decls ps arg d ps') (hu : s₀.out.func.frozen = false)
    (hnew : s.out.func.varNamed? d.1.text = none) (here : Location) {l : List Diagnostic}
    {s₁ : State} (hr : Reports l s s₁)
    (hl : l = [] ↔ (ValueType.ofName? d.2.text).isSome = true) : ∃ s', (do
      let v ← edit (add d.1.text ((ValueType.ofName? d.2.text).getD (.int 64)))
      modify fun s => { s with
        out := { s.out with declaredAt := s.out.declaredAt ++ [(v.id, here)] } } : Lower Unit) s₁ =
      .ok ((), s') ∧ Declares s₀ (decls ++ [d]) ps' s' := by
  have hfresh : decls.any (fun e => e.1.text = d.1.text) = false := by
    rw [← typeIn_isSome, h.knows.isSome, hnew]
    rfl
  have hf : s₁.out.func = s.out.func := by rw [hr.out]
  obtain ⟨f', hrun, hadds⟩ := hadd.run (h.frozen hu) hnew
    ((ValueType.ofName? d.2.text).getD (.int 64))
  refine ⟨_, (bind_eq (edit_eq (hf ▸ hrun))).trans rfl, ?_, ⟨?_, ?_, fun name => ?_⟩,
    hfollows.stands hfresh h.args hadds, ?_, ?_⟩
  · obtain ⟨vars, args, returns, rfl⟩ := hadds.rest
    obtain ⟨vars₀, args₀, returns₀, declaredAt, ds, rfl⟩ := h.rest
    rw [hr.state]
    exact ⟨_, _, _, _, _, rfl⟩
  · exact numbered_append hadds.vars rfl h.knows.numbered
  · obtain ⟨vars, args, returns, rfl⟩ := hadds.rest
    intro v hv
    rcases List.mem_append.mp (hadds.vars ▸ hv) with hv | hv
    · exact h.knows.owns v hv
    · rw [List.mem_singleton.mp hv]
  · change (f'.varNamed? name).map Variable.type = _
    rw [Func.varNamed?, hadds.vars, List.find?_append, Option.map_or, typeIn_append,
      ← h.knows.types]
    congr 1
    by_cases hname : d.1.text = name <;> simp [hname]
  · change ∀ e ∈ s₁.diagnostics, e.level = .error
    rw [hr.diagnostics]
    exact List.forall_mem_append.mpr ⟨h.errors, hr.errors⟩
  · change s₁.diagnostics = [] ↔ _
    rw [hr.diagnostics, List.append_eq_nil_iff, h.clean, hl, nodup_snoc, hfresh,
      List.forall_mem_append, List.forall_mem_singleton]
    grind

theorem declare_run (h : Declares s₀ decls ps s) (hadd : Declarer arg add)
    (hfollows : Follows decls ps arg d ps') (hu : s₀.out.func.frozen = false) :
    ∃ s', declare add d.1 d.2 s = .ok ((), s') ∧ Declares s₀ (decls ++ [d]) ps' s' := by
  rw [declare, bind_eq (locate_eq _ _), bind_eq (func_eq s)]
  have hsome := h.knows.isSome d.1.text
  rw [typeIn_isSome] at hsome
  cases hv : s.out.func.varNamed? d.1.text with
  | some previous =>
    rw [hv, Option.isSome_some] at hsome
    dsimp only
    rw [bind_eq (get_eq s)]
    obtain ⟨s', hrun, hr⟩ := report_run s (d := .duplicateVariable d.1.text
      (.ofPosition s.file d.1.start) ((s.out.declaredAt.lookup previous.id).getD default)) rfl
    refine ⟨s', hrun, ?_, ?_, ?_, ?_, ?_⟩
    · obtain ⟨vars, args, returns, declaredAt, ds, rfl⟩ := h.rest
      rw [hr.state]
      exact ⟨_, _, _, _, _, rfl⟩
    · rw [hr.out]
      refine ⟨h.knows.numbered, h.knows.owns, fun name => ?_⟩
      rw [h.knows.types, typeIn_append]
      by_cases hname : d.1.text = name
      · subst hname
        rw [← typeIn_isSome] at hsome
        obtain ⟨t, ht⟩ := Option.isSome_iff_exists.mp hsome
        rw [ht]
        rfl
      · rw [if_neg hname, Option.or_none]
    · rw [hr.out, hfollows.originals_repeated hsome]
      exact h.args
    · rw [hr.diagnostics]
      exact List.forall_mem_append.mpr ⟨h.errors, hr.errors⟩
    · rw [hr.diagnostics, nodup_snoc, hsome]
      simp
  | none =>
    dsimp only
    have hrest {l : List Diagnostic} {s₁ : State} (hr : Reports l s s₁) :=
      h.enter hadd hfollows hu hv (.ofPosition s.file d.1.start) hr
    cases htype : ValueType.ofName? d.2.text with
    | some t =>
      rw [htype] at hrest
      exact hrest (.refl s) (by simp)
    | none =>
      rw [htype] at hrest
      dsimp only
      rw [bind_eq (locate_eq _ _)]
      obtain ⟨s₁, hrun, hr⟩ := report_run s (d := .unknownType d.2.text
        (.ofPosition s.file d.2.start) ValueType.names) (level_suggestSimilar _ _ _)
      obtain ⟨s', hrun', hdecl⟩ := hrest hr (by simp)
      exact ⟨s', (bind_eq hrun).trans hrun', hdecl⟩

theorem declares_run (hadd : Declarer false add) (hu : s₀.out.func.frozen = false)
    (ds : List (Name × Name)) : ∀ {decls : List (Name × Name)} {s : State},
    Declares s₀ decls ps s → ∃ s', (ds.forM fun d => declare add d.1 d.2) s = .ok ((), s') ∧
      Declares s₀ (decls ++ ds) ps s' := by
  induction ds with
  | nil => exact fun {decls s} h => ⟨s, rfl, by rwa [List.append_nil]⟩
  | cons d ds ih =>
    intro decls s h
    obtain ⟨s₁, h₁, hd₁⟩ := declare_run h hadd (.plain d) hu
    obtain ⟨s', h', hd'⟩ := ih hd₁
    rw [List.append_assoc] at hd'
    exact ⟨s', (bind_eq (x := declare add d.1 d.2) h₁).trans h', hd'⟩

theorem params_run (hu : s₀.out.func.frozen = false) (qs : List Param) :
    ∀ {ps : List Param} {s : State}, Declares s₀ (ps.map Param.declaration) ps s →
    ∃ s', (qs.forM fun p => declare Edit.addArgument p.name p.type) s = .ok ((), s') ∧
      Declares s₀ ((ps ++ qs).map Param.declaration) (ps ++ qs) s' := by
  induction qs with
  | nil => exact fun {ps s} h => ⟨s, rfl, by rwa [List.append_nil]⟩
  | cons q qs ih =>
    intro ps s h
    obtain ⟨s₁, h₁, hd₁⟩ := declare_run h .argument (.argument q rfl) hu
    rw [← List.map_singleton, ← List.map_append] at hd₁
    obtain ⟨s', h', hd'⟩ := ih hd₁
    rw [List.append_assoc] at hd'
    exact ⟨s', (bind_eq (x := declare Edit.addArgument q.name q.type) h₁).trans h', hd'⟩

end

/-! ## The declarations of a function -/

theorem forM_declaration (add : String → ValueType → Edit Variable) (ps : List Param) :
    ((ps.map Param.declaration).forM fun d => declare add d.1 d.2) =
      ps.forM fun p => declare add p.name p.type := by
  induction ps with
  | nil => rfl
  | cons p ps ih => exact congrArg (declare add p.name p.type >>= fun _ => ·) ih

def declareAll (ds : List (Name × Name)) : Lower Unit :=
  ds.forM fun d => declare Edit.addVariable d.1 d.2

theorem declareAll_append (ds es : List (Name × Name)) : declareAll (ds ++ es) = (do
    declareAll ds
    declareAll es) := List.forM_append

mutual
theorem collect_eq : (b : Syntax.Block) → collect b = declareAll b.declarations
  | .mk _ _ sts => by
    rw [collect, Block.declarations]
    exact collectAll_eq sts

theorem collectAll_eq : (sts : List Statement) → collectAll sts = declareAll (declarationsAll sts)
  | [] => by
    rw [collectAll, declarationsAll]
    rfl
  | st :: sts => by
    rw [collectAll, declarationsAll, declareAll_append, collectStatement_eq st, collectAll_eq sts]

theorem collectStatement_eq : (st : Statement) → collectStatement st = declareAll st.declarations
  | .declare _ name type => by
    rw [collectStatement, Statement.declarations]
    exact (bind_pure _).symm
  | .branch _ cond yes no => by
    rw [collectStatement, Statement.declarations, declareAll_append, declareAll_append,
      collect_eq cond, collect_eq yes, collectOptional_eq no]
  | .select _ cond cases => by
    rw [collectStatement, Statement.declarations, declareAll_append, collect_eq cond,
      collectBlocks_eq cases]
  | .whileLoop _ cond body advance => by
    rw [collectStatement, Statement.declarations, declareAll_append, declareAll_append,
      collect_eq cond, collect_eq body, collectOptional_eq advance]
  | .forLoop _ init cond body advance => by
    rw [collectStatement, Statement.declarations, declareAll_append, declareAll_append,
      declareAll_append, collect_eq init, collect_eq cond, collect_eq body, collect_eq advance]
  | .nested inner => by
    rw [collectStatement, Statement.declarations]
    exact collect_eq inner
  | .comment _ _ => by
    rw [collectStatement, Statement.declarations]
    rfl
  | .assign _ _ _ => by
    rw [collectStatement, Statement.declarations]
    rfl
  | .plain _ => by
    rw [collectStatement, Statement.declarations]
    rfl

theorem collectOptional_eq : (b : Option Syntax.Block) →
    collectOptional b = declareAll (declarationsOptional b)
  | none => by
    rw [collectOptional, declarationsOptional]
    rfl
  | some b => by
    rw [collectOptional, declarationsOptional]
    exact collect_eq b

theorem collectBlocks_eq : (bs : List Syntax.Block) →
    collectBlocks bs = declareAll (declarationsBlocks bs)
  | [] => by
    rw [collectBlocks, declarationsBlocks]
    rfl
  | b :: bs => by
    rw [collectBlocks, declarationsBlocks, declareAll_append, collect_eq b, collectBlocks_eq bs]
end

def State.start (file : String) (handle : Nat) (src : Syntax.Function) : State :=
  ⟨file, ⟨Func.new handle src.name.text, src, [], [], []⟩, []⟩

theorem declares_start (file : String) (handle : Nat) (src : Syntax.Function) :
    Declares (.start file handle src) [] [] (.start file handle src) where
  rest := ⟨_, _, _, _, _, rfl⟩
  knows := ⟨nofun, nofun, fun _ => rfl⟩
  args := .nil
  errors := nofun
  clean := by simp [State.start]

/-- All that a function declares, in the order of its text. -/
theorem declarations_run (file : String) (handle : Nat) (src : Syntax.Function) : ∃ s₁ s₂ s₃,
    (src.params.forM fun p => declare Edit.addArgument p.name p.type) (.start file handle src) =
      .ok ((), s₁) ∧
    (src.returns.forM fun p => declare Edit.addReturn p.name p.type) s₁ = .ok ((), s₂) ∧
    collect src.body s₂ = .ok ((), s₃) ∧
    Declares (.start file handle src) src.declarations src.params s₃ := by
  have h₀ : Declares _ (([] : List Param).map Param.declaration) [] _ :=
    declares_start file handle src
  obtain ⟨s₁, h₁, hd₁⟩ := params_run rfl src.params h₀
  obtain ⟨s₂, h₂, hd₂⟩ := declares_run .returned rfl (src.returns.map Param.declaration) hd₁
  obtain ⟨s₃, h₃, hd₃⟩ := declares_run .plain rfl src.body.declarations hd₂
  refine ⟨s₁, s₂, s₃, h₁, ?_, ?_, hd₃⟩
  · rw [← h₂, forM_declaration]
  · rw [collect_eq]
    exact h₃

end DefFlow.Lowering
