import DefFlow.Proofs.Lowering.Files

/-!
# Lowering drops nothing silently

What is accepted is lowered in the order of the text and with its places; what is not is reported.
-/

set_option autoImplicit false

namespace DefFlow.Syntax

section

variable {st : Statement}

theorem Statement.controlled_eq_nil (h : st.isStructure = false) : st.controlled = [] := by
  cases st with
  | comment _ _ | declare _ _ _ | assign _ _ _ | plain _ => rw [controlled]
  | branch _ _ _ _ | select _ _ _ | whileLoop _ _ _ _ | forLoop _ _ _ _ _ | nested _ => cases h

theorem mem_controlledAll {sts : List Statement} (h : st ∈ controlledAll sts) :
    ∃ t ∈ sts, st ∈ t.controlled := by
  induction sts with
  | nil =>
    rw [controlledAll] at h
    cases h
  | cons t sts ih =>
    rw [controlledAll] at h
    rcases List.mem_append.mp h with h | h
    · exact ⟨t, List.mem_cons_self, h⟩
    · obtain ⟨u, hu, hst⟩ := ih h
      exact ⟨u, List.mem_cons_of_mem _ hu, hst⟩

/-- What stands in a condition is one of its structures or inside of one. -/
theorem Block.in_strays {b : Block} (h : st ∈ b.strays ++ b.controlled) :
    ∃ t ∈ b.strays, st.In t := by
  rcases List.mem_append.mp h with h | h
  · exact ⟨st, h, Or.inl rfl⟩
  · cases b with
    | mk start stop sts =>
      rw [controlled] at h
      obtain ⟨t, ht, hst⟩ := mem_controlledAll h
      refine ⟨t, List.mem_filter.mpr ⟨ht, ?_⟩, Or.inr hst⟩
      cases hs : t.isStructure with
      | true => rfl
      | false =>
        rw [Statement.controlled_eq_nil hs] at hst
        cases hst

structure Covers (strays deep : List Statement) : Prop where
  within : ∀ t ∈ strays, t ∈ deep
  around : ∀ st ∈ deep, ∃ t ∈ strays, st.In t

theorem Covers.nil : Covers [] [] := ⟨nofun, nofun⟩

theorem Covers.append {strays strays' deep deep' : List Statement} (h : Covers strays deep)
    (h' : Covers strays' deep') : Covers (strays ++ strays') (deep ++ deep') := by
  refine ⟨fun t ht => ?_, fun st hst => ?_⟩
  · exact List.mem_append.mpr ((List.mem_append.mp ht).imp (h.within t) (h'.within t))
  · rcases List.mem_append.mp hst with hst | hst
    · obtain ⟨t, ht, hin⟩ := h.around st hst
      exact ⟨t, List.mem_append_left _ ht, hin⟩
    · obtain ⟨t, ht, hin⟩ := h'.around st hst
      exact ⟨t, List.mem_append_right _ ht, hin⟩

theorem Block.covers_condition (b : Block) : Covers b.strays (b.strays ++ b.controlled) :=
  ⟨fun _ h => List.mem_append_left _ h, fun _ h => b.in_strays h⟩

theorem Covers.nil_iff {strays deep : List Statement} (h : Covers strays deep) :
    strays = [] ↔ deep = [] := by
  rw [List.eq_nil_iff_forall_not_mem, List.eq_nil_iff_forall_not_mem]
  refine ⟨fun hs st hst => ?_, fun hd t ht => hd t (h.within t ht)⟩
  obtain ⟨t, ht, -⟩ := h.around st hst
  exact hs t ht

mutual
theorem Statement.covers : (s : Statement) → Covers s.strays s.controlled
  | .comment _ _ | .declare _ _ _ | .assign _ _ _ | .plain _ => by
    rw [Statement.strays, Statement.controlled]
    exact .nil
  | .nested block => by
    rw [Statement.strays, Statement.controlled]
    exact block.covers
  | .branch _ cond yes no => by
    rw [Statement.strays, Statement.controlled]
    exact cond.covers_condition.append (yes.covers.append (coversOptional no))
  | .select _ cond cases => by
    rw [Statement.strays, Statement.controlled]
    exact cond.covers_condition.append (coversBlocks cases)
  | .whileLoop _ cond body advance => by
    rw [Statement.strays, Statement.controlled]
    exact cond.covers_condition.append (body.covers.append (coversOptional advance))
  | .forLoop _ init cond body advance => by
    rw [Statement.strays, Statement.controlled]
    exact init.covers.append (cond.covers_condition.append (body.covers.append advance.covers))

theorem Block.covers : (b : Block) → Covers b.straysWithin b.controlled
  | .mk _ _ statements => by
    rw [Block.straysWithin, Block.controlled]
    exact coversAll statements

theorem coversAll : (sts : List Statement) → Covers (straysAll sts) (controlledAll sts)
  | [] => by
    rw [straysAll, controlledAll]
    exact .nil
  | s :: rest => by
    rw [straysAll, controlledAll]
    exact s.covers.append (coversAll rest)

theorem coversOptional : (b : Option Block) → Covers (straysOptional b) (controlledOptional b)
  | none => by
    rw [straysOptional, controlledOptional]
    exact .nil
  | some b => by
    rw [straysOptional, controlledOptional]
    exact b.covers

theorem coversBlocks : (bs : List Block) → Covers (straysBlocks bs) (controlledBlocks bs)
  | [] => by
    rw [straysBlocks, controlledBlocks]
    exact .nil
  | b :: rest => by
    rw [straysBlocks, controlledBlocks]
    exact b.covers.append (coversBlocks rest)
end

end

end DefFlow.Syntax

namespace DefFlow.Lowering

open DefFlow.Flow Syntax

/-- What has become of everything that stands in the source of a function. -/
structure Complete (file : String) (f : Lowered) (own : List Diagnostic) : Prop where
  /-- Behind the definitions of the arguments stand the accepted instructions of the source in
  their order, with their places and those of their operands. -/
  code : ∃ ps is, f.func.blocks.flatMap f.func.code = ps ++ is ∧
    ps.map f.func.step = f.source.arguments.map (fun p => argStep p.name.text) ∧
    List.Forall₂ (f.Records file) is
      ((f.source.body.written (typeIn f.source.declarations)).filter
        (Written.accepted (typeIn f.source.declarations)))
  /-- The diagnostics are errors about the declarations, about the instructions that are not
  accepted, at least one for each of them, and about the structures that stand in a condition and
  not inside of another one that does, at least one for each of them too. -/
  reports : ∃ decl ls rs, own.Perm (decl ++ (ls.flatten ++ rs.flatten)) ∧
    (∀ d ∈ decl, d.level = .error) ∧
    List.Forall₂ (Complains fun w => w.accepted (typeIn f.source.declarations) = true)
      (f.source.body.written (typeIn f.source.declarations)) ls ∧
    List.Forall₂ (Complains fun _ => False) f.source.body.straysWithin rs
  /-- The other structures in conditions are inside of those that are reported. -/
  nested : ∀ st ∈ f.source.body.controlled, ∃ t ∈ f.source.body.straysWithin, st.In t
  silent : own = [] ↔
    (∀ w ∈ f.source.body.written (typeIn f.source.declarations),
      w.accepted (typeIn f.source.declarations) = true) ∧
    f.source.body.controlled = [] ∧
    (f.source.declarations.map fun d => d.1.text).Nodup ∧
    ∀ d ∈ f.source.declarations, (ValueType.ofName? d.2.text).isSome

/-- There are no diagnostics exactly if there is nothing to complain about. -/
theorem flatten_eq_nil {α : Type} {fine : α → Prop} {as : List α} {ls : List (List Diagnostic)}
    (h : List.Forall₂ (Complains fine) as ls) : ls.flatten = [] ↔ ∀ a ∈ as, fine a := by
  induction h with
  | nil => simp
  | cons h _ ih => rw [List.flatten_cons, List.append_eq_nil_iff, h.fine, ih, List.forall_mem_cons]

theorem Built.complete {file : String} {src : Syntax.Function} {f : Lowered}
    {own : List Diagnostic} (h : Built file src f own) : Complete file f own := by
  obtain rfl := h.source
  obtain ⟨decl, new, rfl, herrors, hdecl, ha⟩ := h.reports
  obtain ⟨ls, rs, hperm, hls, hrs⟩ := ha.split
  have hcovers := f.source.body.covers
  refine ⟨h.code, ⟨decl, ls, rs, hperm.append_left decl, herrors, hls, hrs⟩, hcovers.around, ?_⟩
  have hnew : new = [] ↔ ls.flatten = [] ∧ rs.flatten = [] := by
    rw [← List.append_eq_nil_iff]
    exact ⟨fun h => List.nil_perm.mp (h ▸ hperm), fun h => List.perm_nil.mp (h ▸ hperm)⟩
  have hstrays : rs.flatten = [] ↔ f.source.body.controlled = [] := by
    rw [flatten_eq_nil hrs, ← hcovers.nil_iff, List.eq_nil_iff_forall_not_mem]
  rw [List.append_eq_nil_iff, hdecl, hnew, flatten_eq_nil hls, hstrays]
  grind

/-- Of every function that lowering builds, each instruction and each structure in a condition has
been lowered with its places or reported. -/
theorem lower_complete {file : String} {tree : File} {m : Module} {ds : List Diagnostic}
    (h : lower file tree = .ok (m, ds)) {f : Lowered} (hf : f ∈ m.functions) :
    f.source ∈ tree.functions ∧ ∃ handle own, lowerFunction file handle f.source = .ok (f, own) ∧
      own.Sublist ds ∧ Complete file f own := by
  obtain ⟨src, hsrc, handle, own, hown, hsub⟩ := mem_lower h hf
  have hbuilt := lowerFunction_built hown
  obtain rfl := hbuilt.source
  exact ⟨hsrc, handle, own, hown, hsub, hbuilt.complete⟩

/-- A function with an instruction behind the end of its block and a block in a condition. -/
def careless : Syntax.Function :=
  let p : Position := default
  let name (text : String) : Name := ⟨text, p, p⟩
  let use : Syntax.Operand := ⟨p, p, .name "x"⟩
  let inverted : Statement := .assign p (name "x") ⟨p, name "not", [use]⟩
  let branch : Statement := .plain ⟨p, name "br", [use]⟩
  ⟨p, p, name "careless", [⟨p, name "x", name "bool"⟩], [], .mk p p [
    inverted,
    .branch p (.mk p p [.nested (.mk p p [inverted]), branch]) (.mk p p [branch, inverted]) none]⟩

/-- Of five instructions one is inside of the block in the condition and one comes late. The other
three are lowered, and there is an error for each of the two places. -/
theorem lower_complete_careless : ∃ m ds f own,
    lower "main" ⟨default, [.function careless]⟩ = .ok (m, ds) ∧ f ∈ m.functions ∧
      f.source = careless ∧ Complete "main" f own ∧ ds.length = 2 ∧
      (careless.body.written (typeIn careless.declarations)).map
        (Written.accepted (typeIn careless.declarations)) = [true, true, true, false] ∧
      careless.body.straysWithin.length = 1 := by
  obtain ⟨⟨m, ds⟩, hlower, hshape⟩ := exists_of_any
    (x := lower "main" ⟨default, [.function careless]⟩)
    (p := fun r => !r.1.functions.isEmpty && r.2.length = 2) (by decide +kernel)
  rw [Bool.and_eq_true, Bool.not_eq_true', List.isEmpty_eq_false_iff_exists_mem,
    decide_eq_true_eq] at hshape
  obtain ⟨⟨f, hf⟩, hlength⟩ := hshape
  obtain ⟨hsrc, handle, own, -, -, hcomplete⟩ := lower_complete hlower hf
  exact ⟨m, ds, f, own, hlower, hf, List.mem_singleton.mp hsrc, hcomplete, hlength,
    by decide +kernel, by decide +kernel⟩

end DefFlow.Lowering
