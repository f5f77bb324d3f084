import DefFlow.Proofs.Edits.Drafting
import DefFlow.Proofs.Lowering.Survey

/-!
# What lowering writes down

A step of lowering only adds: instructions behind those of a block, the places where they were
written, and diagnostics. For an instruction of the text there is either an instruction that does
the same, with its places, or some diagnostics.
-/

set_option autoImplicit false

namespace DefFlow.Lowering

open DefFlow.Flow Syntax

/-! ## Runs -/

section

variable {α β : Type} {s s' s'' : State}

theorem bind_ok {x : Lower α} {g : α → Lower β} {b : β} (h : (x >>= g) s = .ok (b, s')) :
    ∃ a s₁, x s = .ok (a, s₁) ∧ g a s₁ = .ok (b, s') := by
  obtain ⟨⟨a, s₁⟩, hx, hg⟩ := of_bind_ok h
  exact ⟨a, s₁, hx, hg⟩

theorem bind_eq {x : Lower α} {g : α → Lower β} {a : α} (h : x s = .ok (a, s')) :
    (x >>= g) s = g a s' := by
  change (x s >>= fun p => g p.1 p.2) = _
  rw [h]
  rfl

theorem bind_error {x : Lower α} {g : α → Lower β} {e : EditError} (h : x s = .error e) :
    (x >>= g) s = .error e := by
  change (x s >>= fun p => g p.1 p.2) = _
  rw [h]
  rfl

theorem get_eq (s : State) : (get : Lower State) s = .ok (s, s) := rfl

theorem locate_eq (p : Position) (s : State) :
    locate p s = .ok (.ofPosition s.file p, s) := rfl

theorem func_eq (s : State) : func s = .ok (s.out.func, s) := rfl

theorem edit_ok {e : Edit α} {a : α} (h : edit e s = .ok (a, s')) :
    ∃ f, e s.out.func = .ok a f ∧ s' = { s with out := { s.out with func := f } } := by
  rw [edit, bind_eq (get_eq s)] at h
  cases he : e s.out.func with
  | ok b f =>
    simp only [EStateM.run, he] at h
    cases h
    exact ⟨f, rfl, rfl⟩
  | error e f =>
    simp only [EStateM.run, he] at h
    cases h

theorem edit_eq {e : Edit α} {a : α} {f : Func} (h : e s.out.func = .ok a f) :
    edit e s = .ok (a, { s with out := { s.out with func := f } }) := by
  rw [edit, bind_eq (get_eq s)]
  simp only [EStateM.run, h]
  rfl

theorem edit_error {x : Edit α} {e : EditError} {f : Func} (h : x s.out.func = .error e f) :
    edit x s = .error e := by
  rw [edit, bind_eq (get_eq s)]
  simp only [EStateM.run, h]
  rfl

/-! ## Reports -/

structure Reports (l : List Diagnostic) (s s' : State) : Prop where
  state : s' = { s with diagnostics := s.diagnostics ++ l }
  errors : ∀ d ∈ l, d.level = .error

theorem Reports.refl (s : State) : Reports [] s s :=
  ⟨by rw [List.append_nil], nofun⟩

theorem Reports.trans {l l' : List Diagnostic} (h : Reports l s s') (h' : Reports l' s' s'') :
    Reports (l ++ l') s s'' := by
  refine ⟨?_, List.forall_mem_append.mpr ⟨h.errors, h'.errors⟩⟩
  rw [h'.state, h.state, List.append_assoc]

theorem Reports.out {l : List Diagnostic} (h : Reports l s s') : s'.out = s.out := by rw [h.state]

theorem Reports.diagnostics {l : List Diagnostic} (h : Reports l s s') :
    s'.diagnostics = s.diagnostics ++ l := by rw [h.state]

theorem report_run (s : State) {d : Diagnostic} (hd : d.level = .error) :
    ∃ s', report d s = .ok ((), s') ∧ Reports [d] s s' :=
  ⟨_, rfl, rfl, List.forall_mem_singleton.mpr hd⟩

theorem level_suggestSimilar (d : Diagnostic) (name : String) (candidates : List String) :
    (d.suggestSimilar name candidates).level = d.level := by
  rw [Diagnostic.suggestSimilar]
  split <;> rfl

theorem unknown_run (s : State) (name : String) (l : Location) :
    ∃ d s', unknown name l s = .ok ((), s') ∧ Reports [d] s s' := by
  obtain ⟨names, hnames⟩ : ∃ names, declared s = .ok (names, s) := ⟨_, rfl⟩
  have hlevel : (Diagnostic.unknownVariable name l names).level = .error := by
    have h := level_suggestSimilar
        (.ofName Code.unknownVariable s!"unknown variable '{name}'" name l)
      name names
    rw [Diagnostic.unknownVariable]
    split <;> exact h
  obtain ⟨s', hrun, hreports⟩ := report_run s hlevel
  exact ⟨_, s', (bind_eq hnames).trans hrun, hreports⟩

end

/-! ## Accounts -/

structure Complains {α : Type} (fine : α → Prop) (a : α) (l : List Diagnostic) : Prop where
  fine : l = [] ↔ fine a
  errors : ∀ d ∈ l, d.level = .error

/-- The diagnostics `new` are made of those about each of the instructions `ws` and those about
each of the stray statements `sts`. -/
structure Accounts (types : String → Option ValueType) (ws : List Written) (sts : List Statement)
    (new : List Diagnostic) : Prop where
  split : ∃ ls rs, new.Perm (ls.flatten ++ rs.flatten) ∧
    List.Forall₂ (Complains fun w => w.accepted types = true) ws ls ∧
    List.Forall₂ (Complains fun _ => False) sts rs

section

variable {types : String → Option ValueType} {ws ws' : List Written} {sts sts' : List Statement}
  {new new' : List Diagnostic}

theorem Accounts.nil (types : String → Option ValueType) : Accounts types [] [] [] :=
  ⟨[], [], .refl _, .nil, .nil⟩

theorem Accounts.instruction {w : Written}
    (h : Complains (fun w => w.accepted types = true) w new) :
    Accounts types [w] [] new :=
  ⟨[new], [], by simp, .cons h .nil, .nil⟩

theorem Accounts.stray {st : Statement} (h : Complains (fun _ => False) st new) :
    Accounts types [] [st] new :=
  ⟨[], [new], by simp, .nil, .cons h .nil⟩

theorem Accounts.append (h : Accounts types ws sts new) (h' : Accounts types ws' sts' new') :
    Accounts types (ws ++ ws') (sts ++ sts') (new ++ new') := by
  obtain ⟨ls, rs, hp, hls, hrs⟩ := h.split
  obtain ⟨ls', rs', hp', hls', hrs'⟩ := h'.split
  refine ⟨ls ++ ls', rs ++ rs', (hp.append hp').trans ?_, List.rel_append hls hls',
    List.rel_append hrs hrs'⟩
  rw [List.flatten_append, List.flatten_append]
  refine List.perm_iff_count.mpr fun a => ?_
  simp only [List.count_append]
  omega

/-- The order in which something has been looked at does not matter. -/
theorem Accounts.perm (h : Accounts types ws sts new) (hw : ws.Perm ws') (hs : sts.Perm sts') :
    Accounts types ws' sts' new := by
  obtain ⟨ls, rs, hp, hls, hrs⟩ := h.split
  obtain ⟨ls', hls', hpl⟩ := List.perm_comp_forall₂ hw.symm hls
  obtain ⟨rs', hrs', hpr⟩ := List.perm_comp_forall₂ hs.symm hrs
  exact ⟨ls', rs', hp.trans (hpl.symm.flatten.append hpr.symm.flatten), hls', hrs'⟩

end

/-! ## Places -/

structure Lowered.Records (file : String) (out : Lowered) (i : InstId) (w : Written) : Prop where
  held : ∃ b, i ∈ out.func.code b
  step : out.func.step i = w.step
  place : out.instAt.lookup i = some (.ofPosition file w.start)
  operands : ∀ {slot o}, w.inst.operands[slot]? = some o →
    out.operandAt.lookup ⟨i, slot⟩ = some (.ofPosition file o.start)

structure Lowered.Keyed (out : Lowered) : Prop where
  insts : ∀ e ∈ out.instAt, ∃ b, e.1 ∈ out.func.code b
  operands : ∀ e ∈ out.operandAt, ∃ b, e.1.inst ∈ out.func.code b

structure Extends (busy : Option NodeId) (s s' : State) : Prop where
  builds : Builds busy s.out.func s'.out.func
  file : s'.file = s.file
  source : s'.out.source = s.out.source
  insts : s.out.instAt <+: s'.out.instAt
  operands : s.out.operandAt <+: s'.out.operandAt
  keyed : s.out.Keyed → s'.out.Keyed

section

variable {busy busy' : Option NodeId} {s s' s'' : State} {b : NodeId} {i : InstId} {w : Written}

theorem lookup_of_prefix {α β : Type} [BEq α] {l l' : List (α × β)} {a : α} {c : β} (h : l <+: l')
    (ha : l.lookup a = some c) : l'.lookup a = some c := by
  obtain ⟨r, rfl⟩ := h
  rw [List.lookup_append, ha]
  rfl

theorem Extends.refl (h : s.out.func.Draft) (busy : Option NodeId) : Extends busy s s :=
  ⟨.refl h busy, rfl, rfl, List.prefix_rfl, List.prefix_rfl, id⟩

theorem Extends.trans (h : Extends busy s s') (h' : Extends busy' s' s'')
    (hb : ∀ b, busy' = some b → (s.out.func.nodes.get? b).isSome → busy = some b) :
    Extends busy s s'' where
  builds := h.builds.trans h'.builds hb
  file := h'.file.trans h.file
  source := h'.source.trans h.source
  insts := h.insts.trans h'.insts
  operands := h.operands.trans h'.operands
  keyed hk := h'.keyed (h.keyed hk)

theorem Extends.of_idle (h : Extends none s s') (busy : Option NodeId) : Extends busy s s' where
  builds := { h.builds with code := fun hs _ => h.builds.code hs nofun }
  file := h.file
  source := h.source
  insts := h.insts
  operands := h.operands
  keyed := h.keyed

theorem Extends.idle (h : Extends none s s') (h' : Extends busy s' s'') : Extends busy s s'' :=
  (h.of_idle busy).trans h' fun _ hb _ => hb

theorem Reports.extends {l : List Diagnostic} (h : Reports l s s') (hd : s.out.func.Draft)
    (busy : Option NodeId) : Extends busy s s' := by
  rw [h.state]
  exact ⟨.refl hd busy, rfl, rfl, List.prefix_rfl, List.prefix_rfl, id⟩

/-- A change of the function that leaves the code as it is. -/
theorem Extends.of_builds {f : Func} (h : Builds none s.out.func f) :
    Extends none s { s with out := { s.out with func := f } } where
  builds := h
  file := rfl
  source := rfl
  insts := List.prefix_rfl
  operands := List.prefix_rfl
  keyed hk := by
    refine ⟨fun e he => ?_, fun e he => ?_⟩
    · obtain ⟨b, hb⟩ := hk.insts e he
      exact ⟨b, (h.grows b).subset hb⟩
    · obtain ⟨b, hb⟩ := hk.operands e he
      exact ⟨b, (h.grows b).subset hb⟩

theorem Extends.records (h : Extends busy s s') (hr : s.out.Records s.file i w) :
    s'.out.Records s'.file i w := by
  obtain ⟨b, hb⟩ := hr.held
  refine ⟨⟨b, (h.builds.grows b).subset hb⟩, ?_, ?_, fun hslot => ?_⟩
  · exact (h.builds.step hb).trans hr.step
  · rw [h.file]
    exact lookup_of_prefix h.insts hr.place
  · rw [h.file]
    exact lookup_of_prefix h.operands (hr.operands hslot)

end

/-! ## Instructions in their order -/

/-- The instructions `is` are the accepted ones among `ws`. -/
def Holds (types : String → Option ValueType) (s : State) (is : List InstId) (ws : List Written) :
    Prop :=
  List.Forall₂ (s.out.Records s.file) is (ws.filter (Written.accepted types))

def listing (f : Func) (xs : List Component) : List InstId :=
  (Component.blocksAll xs).flatMap f.code

section

variable {types : String → Option ValueType} {busy : Option NodeId} {s s' : State} {f f' : Func}
  {is is' : List InstId} {ws ws' : List Written} {xs ys : List Component}

theorem Holds.nil (types : String → Option ValueType) (s : State) : Holds types s [] [] :=
  List.Forall₂.nil

theorem Holds.append (h : Holds types s is ws) (h' : Holds types s is' ws') :
    Holds types s (is ++ is') (ws ++ ws') := by
  rw [Holds, List.filter_append]
  exact List.rel_append h h'

theorem Extends.holds (h : Extends busy s s') (hh : Holds types s is ws) : Holds types s' is ws :=
  List.Forall₂.imp (fun _ _ hr => h.records hr) hh

theorem listing_append (f : Func) (xs ys : List Component) :
    listing f (xs ++ ys) = listing f xs ++ listing f ys := by
  rw [listing, Component.blocksAll_append, List.flatMap_append]
  rfl

theorem listing_congr (h : ∀ b ∈ Component.blocksAll xs, f'.code b = f.code b) :
    listing f' xs = listing f xs := by
  rw [listing, listing]
  exact List.flatMap_congr h

end

end DefFlow.Lowering
