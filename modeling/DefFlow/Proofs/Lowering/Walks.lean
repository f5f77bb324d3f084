import DefFlow.Proofs.Lowering.Files
import DefFlow.Proofs.Reaching.Paths

/-!
# What lowering keeps

A walk through a function starts at its entry, follows its edges and ends behind a leaf of the
body. Main statement: the steps of the walks through a function that has been lowered without a
diagnostic are those of its arguments, followed by those that the source allows.
-/

set_option autoImplicit false

namespace DefFlow

open DefFlow.Flow Lowering Syntax

/-- The steps of the walks from the entry of a function to a leaf of its body. -/
def Flow.Func.walks (f : Func) : Language Step :=
  {w | ∃ b ∈ f.body.leaves, ∃ is, f.Trail b is ∧ w = (is ++ f.code b).map f.step}

section

variable {f : Func} {b : NodeId} {is : List InstId} {w : List Step}

/-- Behind the body control goes to the number 0, which no block has. -/
theorem Flow.Func.Forest.goes_iff (hf : f.Forest) (hb : b ∈ f.blocks) {s : NodeId} :
    f.body.Goes [0] b s ↔ s ∈ f.succs b ∨ (b ∈ f.body.leaves ∧ s = 0) := by
  rw [hf.mem_succs hb, Component.Goes, List.mem_singleton]

theorem Flow.Func.Forest.zero_not_mem (hf : f.Forest) : 0 ∉ f.body.blocks := fun h =>
  absurd (hf.block_le h).1 (by decide)

/-- What is read behind a trail is read from the entry on. -/
theorem reads_of_trail (hf : f.Forest) {e : NodeId} (he : f.entry = some e) (h : f.Trail b is) :
    ∀ {n : Nat} {w : List Step}, Component.Reads f.steps (f.body.Goes [0]) 0 n b w →
      ∃ m, Component.Reads f.steps (f.body.Goes [0]) 0 m e (is.map f.step ++ w) := by
  induction h with
  | entry h =>
    intro n w hr
    cases h.symm.trans he
    exact ⟨n, hr⟩
  | @along b c is h hc ih =>
    intro n w hr
    have hgoes := (hf.goes_iff (h.mem_blocks hf)).mpr (.inl hc)
    rw [List.map_append, List.append_assoc]
    exact ih (.step hgoes hr)

/-- What is read from the end of a trail on goes along a longer one to a leaf. -/
theorem trail_of_reads (hf : f.Forest) {n : Nat}
    (hr : Component.Reads f.steps (f.body.Goes [0]) 0 n b w) :
    ∀ {is : List InstId}, f.Trail b is →
      ∃ c ∈ f.body.leaves, ∃ js, f.Trail c js ∧ is.map f.step ++ w =
          (js ++ f.code c).map f.step := by
  induction hr with
  | out =>
    intro is h
    exact absurd (h.mem_blocks hf) hf.zero_not_mem
  | @step n b s t hgoes hr ih =>
    intro is h
    rcases (hf.goes_iff (h.mem_blocks hf)).mp hgoes with hs | ⟨hleaf, rfl⟩
    · obtain ⟨c, hc, js, hjs, heq⟩ := ih (h.along hs)
      rw [List.map_append, List.append_assoc] at heq
      exact ⟨c, hc, js, hjs, heq⟩
    · -- The number 0 is no block, so nothing follows behind the leaf.
      cases hr with
      | out => exact ⟨b, hleaf, is, h, by rw [List.append_nil, List.map_append]; rfl⟩
      | step hnext _ =>
        obtain ⟨h₁, h₂⟩ := Component.not_goes hf.zero_not_mem _
        exact absurd hnext fun hg => hg.elim h₁ fun h => h₂ h.1

/-- The walks through a function are those through the tree of its body. -/
theorem walks_eq_lang (hf : f.Forest) {e : NodeId} (he : f.entry = some e) :
    f.walks = f.body.lang f.steps := by
  ext w
  have henter : f.body.enter [0] = [e] := by
    rw [Component.enter, show f.body.entry = some e from he]
  rw [Component.mem_lang_iff hf.body_nodup hf.zero_not_mem, henter]
  constructor
  · rintro ⟨b, hb, is, his, rfl⟩
    have hgoes := (hf.goes_iff (his.mem_blocks hf)).mpr (.inr ⟨hb, rfl⟩)
    obtain ⟨n, hr⟩ := reads_of_trail hf he his (.step hgoes .out)
    rw [List.append_nil] at hr
    exact ⟨e, List.mem_singleton_self e, n, by rw [List.map_append]; exact hr⟩
  · rintro ⟨b, hb, n, hr⟩
    obtain rfl := List.mem_singleton.mp hb
    exact trail_of_reads hf hr (.entry he)

end

/-- Every function that is built comes from one of the source. If no diagnostic was given for it,
the steps of the walks through it are those of the arguments and then those of the source. -/
theorem Lowering.lower_keeps_walks {file : String} {tree : File} {m : Module}
    {ds : List Diagnostic} (h : lower file tree = .ok (m, ds)) {f : Lowered}
    (hf : f ∈ m.functions) : ∃ src ∈ tree.functions, ∃ handle own,
      lowerFunction file handle src = .ok (f, own) ∧ own.Sublist ds ∧
      (own = [] → f.func.walks =
        {src.params.map fun p => argStep p.name.text} * src.body.reading) := by
  obtain ⟨src, hsrc, handle, own, hown, hsub⟩ := mem_lower h hf
  refine ⟨src, hsrc, handle, own, hown, hsub, fun hclean => ?_⟩
  have hbuilt := lowerFunction_built hown
  obtain ⟨e, es, hbody⟩ := hbuilt.body
  have he : f.func.entry = some e := by rw [Func.entry, hbody]; rfl
  rw [walks_eq_lang hbuilt.draft.forest he]
  exact hbuilt.clean hclean

/-- A function that negates its argument as long as it holds. -/
def Lowering.negation : Syntax.Function :=
  let p : Position := default
  let name (text : String) : Name := ⟨text, p, p⟩
  let use : Syntax.Operand := ⟨p, p, .name "x"⟩
  ⟨p, p, name "negation", [⟨p, name "x", name "bool"⟩], [], .mk p p [
    .whileLoop p (.mk p p [.plain ⟨p, name "br", [use]⟩])
      (.mk p p [.assign p (name "x") ⟨p, name "not", [use]⟩]) none]⟩

/-- The walks through a loop make any number of rounds. -/
theorem Lowering.lower_keeps_walks_of_loop : ∃ m f,
    lower "main" ⟨default, [.function negation]⟩ = .ok (m, []) ∧ f ∈ m.functions ∧
      f.func.walks = {[argStep "x"]} * negation.body.reading := by
  obtain ⟨⟨m, diagnostics⟩, hlower, hshape⟩ := exists_of_any
    (x := lower "main" ⟨default, [.function negation]⟩)
    (p := fun r => !r.1.functions.isEmpty && r.2.isEmpty) (by decide +kernel)
  rw [Bool.and_eq_true, Bool.not_eq_true', List.isEmpty_eq_false_iff_exists_mem,
    List.isEmpty_iff] at hshape
  obtain ⟨⟨f, hf⟩, rfl⟩ := hshape
  obtain ⟨src, hsrc, handle, own, -, hown, hwalks⟩ := lower_keeps_walks hlower hf
  obtain rfl := List.mem_singleton.mp hsrc
  exact ⟨m, f, hlower, hf, hwalks (List.sublist_nil.mp hown)⟩

end DefFlow
