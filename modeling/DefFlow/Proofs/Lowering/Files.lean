import DefFlow.Proofs.Lowering.Functions

/-!
# Lowering files

Each function that does not repeat the name of an earlier one is lowered by itself. Main statement:
lowering a file fails exactly if an argument of such a function is void, and yields these functions
in their order otherwise.
-/

set_option autoImplicit false

namespace DefFlow.Lowering

open DefFlow.Flow Syntax

/-- Each function that is built comes from one of the source, and its diagnostics are among those
of the file. -/
theorem mem_lowerFunctions {file : String} {f : Lowered} {srcs : List Syntax.Function} :
    ∀ {seen : List (String × Location)} {fs : List Lowered} {ds : List Diagnostic},
    lowerFunctions file seen srcs = .ok (fs, ds) → f ∈ fs →
    ∃ src ∈ srcs, ∃ handle own, lowerFunction file handle src = .ok (f, own) ∧ own.Sublist ds := by
  induction srcs with
  | nil =>
    intro seen fs ds h hf
    cases h
    cases hf
  | cons src rest ih =>
    intro seen fs ds h hf
    rw [lowerFunctions] at h
    cases hseen : seen.lookup src.name.text with
    | some first =>
      rw [hseen] at h
      obtain ⟨⟨fs', ds'⟩, hrest, h⟩ := of_bind_ok h
      cases h
      obtain ⟨src', hsrc, handle, own, hown, hsub⟩ := ih hrest hf
      exact ⟨src', .tail _ hsrc, handle, own, hown, hsub.cons _⟩
    | none =>
      rw [hseen] at h
      obtain ⟨⟨f₀, own₀⟩, hfirst, h⟩ := of_bind_ok h
      obtain ⟨⟨fs', ds'⟩, hrest, h⟩ := of_bind_ok h
      cases h
      cases hf with
      | head => exact ⟨src, .head _, _, own₀, hfirst, List.sublist_append_left _ _⟩
      | tail _ hf =>
        obtain ⟨src', hsrc, handle, own, hown, hsub⟩ := ih hrest hf
        exact ⟨src', .tail _ hsrc, handle, own, hown, hsub.trans (List.sublist_append_right _ _)⟩

theorem mem_lower {file : String} {tree : File} {m : Module} {ds : List Diagnostic} {f : Lowered}
    (h : lower file tree = .ok (m, ds)) (hf : f ∈ m.functions) :
    ∃ src ∈ tree.functions, ∃ handle own, lowerFunction file handle src = .ok (f, own) ∧
      own.Sublist ds := by
  obtain ⟨⟨fs, ds'⟩, hfs, h⟩ := of_bind_ok h
  cases h
  obtain ⟨src, hsrc, handle, own, hown, hsub⟩ := mem_lowerFunctions hfs hf
  exact ⟨src, hsrc, handle, own, hown, hsub.trans (List.sublist_append_right _ _)⟩

/-! ## Which files are refused -/

def Lowers (fs : List Lowered) (srcs : List Syntax.Function) : Prop :=
  fs.map (fun f => (f.source, f.func.name)) = srcs.map fun src => (src, src.name.text)

theorem lookup_isSome (seen : List (String × Location)) (name : String) :
    (seen.lookup name).isSome = seen.any fun e => e.1 = name := by
  induction seen with
  | nil => rfl
  | cons e seen ih =>
    rw [List.lookup_cons, List.any_cons, ← ih]
    by_cases h : name = e.1
    · simp [h]
    · rw [show (name == e.1) = false by simpa using h]
      simp [Ne.symm h]

/-- The functions whose names have not been seen are lowered, up to one with a void argument. -/
theorem lowerFunctions_run (file : String) (srcs : List Syntax.Function) :
    ∀ seen : List (String × Location),
    let fresh := (originals (fun src => src.name.text) srcs).filter fun src =>
      !seen.any fun e => e.1 = src.name.text
    (fresh.any (fun src => src.arguments.any Param.isVoid) = true ∧
      ∃ e, lowerFunctions file seen srcs = .error e) ∨
    (fresh.any (fun src => src.arguments.any Param.isVoid) = false ∧
      ∃ fs ds, lowerFunctions file seen srcs = .ok (fs, ds) ∧ Lowers fs fresh) := by
  induction srcs with
  | nil => exact fun seen => Or.inr ⟨rfl, [], [], rfl, rfl⟩
  | cons src rest ih =>
    intro seen
    dsimp only
    rw [lowerFunctions, originals]
    have hsome := lookup_isSome seen src.name.text
    cases hseen : seen.lookup src.name.text with
    | some first =>
      rw [hseen, Option.isSome_some] at hsome
      -- the functions that bear the same name have been seen as well
      have hfilter : (src :: (originals (fun src => src.name.text) rest).filter fun g =>
          g.name.text ≠ src.name.text).filter (fun g => !seen.any fun e => e.1 = g.name.text) =
          (originals (fun src => src.name.text) rest).filter fun g =>
            !seen.any fun e => e.1 = g.name.text := by
        rw [List.filter_cons_of_neg (by simp [← hsome]), List.filter_filter]
        refine List.filter_congr fun g _ => ?_
        by_cases hname : g.name.text = src.name.text
        · simp [hname, ← hsome]
        · simp [hname]
      rw [hfilter]
      rcases ih seen with ⟨hvoid, e, hrun⟩ | ⟨hvoid, fs, ds, hrun, hfs⟩
      · exact Or.inl ⟨hvoid, e, by rw [hrun]; rfl⟩
      · exact Or.inr ⟨hvoid, fs, _, by rw [hrun]; rfl, hfs⟩
    | none =>
      rw [hseen, Option.isSome_none] at hsome
      dsimp only
      have hfilter : (src :: (originals (fun src => src.name.text) rest).filter fun g =>
          g.name.text ≠ src.name.text).filter (fun g => !seen.any fun e => e.1 = g.name.text) =
          src :: (originals (fun src => src.name.text) rest).filter fun g =>
            !((src.name.text, Location.ofPosition file src.name.start) :: seen).any
              fun e => e.1 = g.name.text := by
        rw [List.filter_cons_of_pos (by simp [← hsome]), List.filter_filter]
        refine congrArg (src :: ·) (List.filter_congr fun g _ => ?_)
        by_cases hname : g.name.text = src.name.text
        · simp [hname]
        · simp [hname, Ne.symm hname]
      rw [hfilter, List.any_cons]
      rcases lowerFunction_run file seen.length src with
        ⟨hvoid, e, hone⟩ | ⟨hvoid, f, own, hone, hbuilt⟩
      · exact Or.inl ⟨by rw [hvoid]; rfl, e, by rw [hone]; rfl⟩
      · have hbind : ∀ x : Except EditError (List Lowered × List Diagnostic),
            (lowerFunction file seen.length src >>= fun a => x >>= fun b =>
              .ok (a.1 :: b.1, a.2 ++ b.2)) = x >>= fun b => .ok (f :: b.1, own ++ b.2) := by
          intro x
          rw [hone]
          rfl
        rw [hvoid, Bool.false_or]
        rcases ih ((src.name.text, .ofPosition file src.name.start) :: seen) with
          ⟨hrest, e, hrun⟩ | ⟨hrest, fs, ds, hrun, hfs⟩
        · exact Or.inl ⟨hrest, e, (hbind _).trans (by rw [hrun]; rfl)⟩
        · refine Or.inr ⟨hrest, f :: fs, own ++ ds, (hbind _).trans (by rw [hrun]; rfl), ?_⟩
          rw [Lowers, List.map_cons, List.map_cons, hbuilt.source, hbuilt.name]
          exact congrArg _ hfs

/-- Lowering a file fails exactly if a function that does not repeat the name of an earlier one has
a parameter that is the first to declare its name and has the type void. In every other case there
is one function for each name, in the order of the file. -/
theorem lower_fails_iff (file : String) (tree : File) :
    ((∃ e, lower file tree = .error e) ↔
      ∃ before src after, tree.functions = before ++ src :: after ∧
        (∀ other ∈ before, other.name.text ≠ src.name.text) ∧
        ∃ ps p qs, src.params = ps ++ p :: qs ∧ (∀ q ∈ ps, q.name.text ≠ p.name.text) ∧
          p.type.text = "void") ∧
    ((∃ e, lower file tree = .error e) ∨ ∃ m ds, lower file tree = .ok (m, ds) ∧
      m.functions.map (fun f => (f.source, f.func.name)) =
        (originals (fun src => src.name.text) tree.functions).map
          fun src => (src, src.name.text)) := by
  have hany : ((originals (fun src => src.name.text) tree.functions).any fun src =>
        src.arguments.any Param.isVoid) = true ↔
      ∃ before src after, tree.functions = before ++ src :: after ∧
        (∀ other ∈ before, other.name.text ≠ src.name.text) ∧
        ∃ ps p qs, src.params = ps ++ p :: qs ∧ (∀ q ∈ ps, q.name.text ≠ p.name.text) ∧
          p.type.text = "void" := by
    simp only [List.any_eq_true, mem_originals_iff, Function.arguments, Param.isVoid,
      decide_eq_true_eq]
    constructor
    · rintro ⟨src, ⟨before, after, htree, hfirst⟩, p, ⟨ps, qs, hparams, hp⟩, hvoid⟩
      exact ⟨before, src, after, htree, hfirst, ps, p, qs, hparams, hp, hvoid⟩
    · rintro ⟨before, src, after, htree, hfirst, ps, p, qs, hparams, hp, hvoid⟩
      exact ⟨src, ⟨before, after, htree, hfirst⟩, p, ⟨ps, qs, hparams, hp⟩, hvoid⟩
  rw [← hany]
  have hfresh : ((originals (fun src => src.name.text) tree.functions).filter fun src =>
      !([] : List (String × Location)).any fun e => e.1 = src.name.text) =
      originals (fun src => src.name.text) tree.functions := List.filter_eq_self.mpr fun _ _ => rfl
  have hrun := lowerFunctions_run file tree.functions []
  dsimp only at hrun
  rw [hfresh] at hrun
  rcases hrun with ⟨hvoid, e, hrun⟩ | ⟨hvoid, fs, ds, hrun, hfs⟩
  · have hfail : lower file tree = .error e := by
      rw [lower, hrun]
      rfl
    exact ⟨iff_of_true ⟨e, hfail⟩ hvoid, Or.inl ⟨e, hfail⟩⟩
  · obtain ⟨m, ds', hok, hm⟩ : ∃ m ds', lower file tree = .ok (m, ds') ∧ m.functions = fs := by
      rw [lower, hrun]
      exact ⟨_, _, rfl, rfl⟩
    refine ⟨iff_of_false ?_ (by rw [hvoid]; exact Bool.false_ne_true),
      Or.inr ⟨m, ds', hok, hm ▸ hfs⟩⟩
    rintro ⟨e, he⟩
    rw [hok] at he
    cases he

end DefFlow.Lowering
