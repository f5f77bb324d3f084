import DefFlow.Proofs.Lowering.Files
import DefFlow.Proofs.Runs.Completion

/-!
# Building a function

A function that has been lowered is completed and verified without an error, and each of its
reports is told in one diagnostic. Main statement: whether functions are flattened before their uses
are resolved changes neither the diagnostics of a file nor which of its functions are frozen.
-/

set_option autoImplicit false

namespace DefFlow.Compile

open DefFlow.Flow DefFlow.Flow.Func DefFlow.Lowering

section

variable {f g g' : Func}

/-! ## Completing -/

/-- Nothing leads back to the block that a body starts with. -/
theorem enters_of_body (hf : f.Forest) {q e : NodeId} {es : List Component}
    (hbody : f.body = .seq q (.block e :: es)) : f.Enters := by
  intro b hb
  obtain rfl : e = b := by
    rw [Func.entry, hbody] at hb
    exact Option.some.inj hb
  obtain ⟨l, hl, hp⟩ := hf.preds_eq (Component.mem_blocks_of_entry hb)
  have hne : q ≠ e := by
    have hn := hf.body_nodup
    rw [hbody, Component.ids, List.nodup_cons] at hn
    intro he
    exact hn.1 (by simp [Component.idsAll, Component.ids, he])
  rw [hbody, Component.predsIn, if_neg hne, Component.predsElements, Component.predsIn,
    if_pos rfl] at hl
  rw [hp]
  exact (Option.some.inj hl).symm

theorem lowered_unjoined {file : String} {tree : Syntax.File} {m : Module} {ds : List Diagnostic}
    (h : lower file tree = .ok (m, ds)) {l : Lowered} (hl : l ∈ m.functions) :
    l.func.Unjoined ∧ l.func.Waits := by
  obtain ⟨src, -, handle, own, hown, -⟩ := mem_lower h hl
  have hbuilt := lowerFunction_built hown
  have hd := hbuilt.draft
  obtain ⟨e, es, hbody⟩ := hbuilt.body
  exact ⟨⟨hd.forest, enters_of_body hd.forest hbody, hd.tables, hd.scheduled, hd.unfrozen,
    remembers_of_nil hd.memo, hd.nodes⟩, hd.waits⟩

theorem complete_ok (hf : f.Unjoined) (s : Settings) :
    ∃ found g, (complete s).run f = .ok found g ∧ Completes f g ∧ g.verify = .ok found := by
  have hrest : ∀ {h : Func}, Resembles f h → h.Unjoined →
      ∃ found g, (do
        let _ ← Edit.resolveAll
        let found ← Edit.ask Func.verify
        return found : Edit (List Violation)) h = .ok found g ∧
        Completes f g ∧ g.verify = .ok found := by
    intro h hr hh
    obtain ⟨n, g, hrun, hc⟩ := hr.complete hf.forest hh.canonicalJoins fun hne =>
      absurd (hh.tables.joinNodes_of_no_nodes hh.nodes _ _) hne
    obtain ⟨found, hv, -⟩ := hc.canonicalJoins.sound.nodesFresh.mem_verify
    refine ⟨found, g, ?_, hc, hv⟩
    rw [Edit.bind_eq hrun]
    exact Edit.ask_eq hv
  show ∃ found g, complete s f = .ok found g ∧ _
  rw [complete]
  cases s.flatten with
  | false => exact hrest (.refl f) hf
  | true =>
    obtain ⟨h, hrun, hsound, hm⟩ := flattenBody_ok hf.sound
    simp only [if_true]
    rw [Edit.bind_eq hrun]
    exact hrest hm.resembles (hm.unjoined hsound hf)

/-! ## Telling -/

/-- The diagnostic of a report stands at the use, or else at its instruction or function. -/
inductive Told (file : String) (level : Level) (f : Lowered) : Violation → Diagnostic → Prop
  | undefined (b : NodeId) (v : VarId) (u : UseSite) : Told file level f (.undefinedUse false b v u)
      (.undefinedVariable (f.func.varAt v).name (useLocation file f u))
  | possibly (b : NodeId) (v : VarId) (u : UseSite) (paths : List String) :
      Told file level f (.undefinedUse true b v u)
        (.possiblyUndefined level (f.func.varAt v).name (useLocation file f u) paths)

variable {l : Lowered} {found : List Violation}

theorem varAt_eq (c : Completes f g) (v : VarId) : g.varAt v = f.varAt v := by
  rw [varAt, varAt, var?.eq_def, var?.eq_def, c.vars]

theorem report_cases (c : Completes f g) (hv : g.verify = .ok found) {x : Violation}
    (hx : x ∈ found) : ∃ b ∈ f.blocks, ∃ v u partly, x = .undefinedUse partly b v u ∧
      u ∈ f.waiting b v := by
  obtain ⟨found', hv', hmem⟩ := c.canonicalJoins.sound.nodesFresh.mem_verify
  rw [hv, Except.ok.injEq] at hv'
  subst hv'
  obtain ⟨b, hb, v, u, partly, rfl, hu, -⟩ := (hmem x).mp hx
  exact ⟨b, c.blocks ▸ hb, v, u, partly, rfl, c.waiting b v ▸ hu⟩

theorem diagnose_told (file : String) (level : Level) (c : Completes l.func g)
    (hv : g.verify = .ok found) {x : Violation} (hx : x ∈ found) : ∃ d, diagnose file level
        { l with func := g } x = .ok [d] ∧
      Told file level l x d := by
  obtain ⟨b, hb, v, u, partly, rfl, hu⟩ := report_cases c hv hx
  have hname := varAt_eq c v
  cases partly with
  | false =>
    refine ⟨_, rfl, ?_⟩
    dsimp only
    rw [hname]
    exact .undefined b v u
  | true =>
    obtain ⟨-, r, -, -, hprobe, -⟩ := c.canonicalJoins.sound.probe_ok (c.blocks ▸ hb) v
    obtain ⟨paths, hpaths⟩ : ∃ paths, undefinedPaths g b v = .ok paths := by
      rw [undefinedPaths, hprobe, ok_bind]
      cases r.timeline? <;> exact ⟨_, rfl⟩
    refine ⟨.possiblyUndefined level (g.varAt v).name (useLocation file l u) paths, ?_, ?_⟩
    · rw [diagnose, hpaths, ok_bind]
      rfl
    · rw [hname]
      exact .possibly b v u paths

theorem diagnose_congr (file : String) (level : Level) (c : Completes l.func g)
    (c' : Completes l.func g') (hf : l.func.Forest) (hv : g.verify = .ok found) {x : Violation}
    (hx : x ∈ found) :
    diagnose file level { l with func := g' } x = diagnose file level { l with func := g } x := by
  obtain ⟨b, hb, v, u, partly, rfl, hu⟩ := report_cases c hv hx
  cases partly with
  | false =>
    rw [diagnose, diagnose]
    dsimp only
    rw [varAt_eq c, varAt_eq c']
    rfl
  | true =>
    rw [diagnose, diagnose]
    dsimp only
    rw [c.undefinedPaths c' hf hb (List.ne_nil_of_mem hu), varAt_eq c, varAt_eq c']
    rfl

theorem mapM_told {F : Violation → Except EditError (List Diagnostic)}
    {R : Violation → Diagnostic → Prop} (h : ∀ x ∈ found, ∃ d, F x = .ok [d] ∧ R x d) :
    ∃ ds, found.mapM F = .ok (ds.map fun d => [d]) ∧ List.Forall₂ R found ds := by
  induction found with
  | nil => exact ⟨[], rfl, .nil⟩
  | cons x found ih =>
    obtain ⟨d, hd, hR⟩ := h x List.mem_cons_self
    obtain ⟨ds, hds, hRs⟩ := ih fun y hy => h y (List.mem_cons_of_mem _ hy)
    refine ⟨d :: ds, ?_, .cons hR hRs⟩
    rw [List.mapM_cons, hd, ok_bind, hds, ok_bind]
    rfl

/-! ## Building -/

/-- What becomes of a function whose completion has some reports. -/
theorem build_eq {file : String} {s : Settings} (hf : l.func.Forest)
    (hrun : (complete s).run l.func = .ok found g)
    (c : Completes l.func g) (hv : g.verify = .ok found) {notes : List (List Diagnostic)}
    (hn : found.mapM (diagnose file (Level.ofSetting s.possiblyUndefined) { l with func := g }) =
      .ok notes) :
    ∃ k, build file s l = .ok ({ l with func := k }, notes.flatten) ∧
      k.frozen = (s.freeze && found.isEmpty) := by
  simp only [build, hrun, hn]
  by_cases hfreeze : (s.freeze && found.isEmpty) = true
  · obtain rfl : found = [] := by
      rw [Bool.and_eq_true, List.isEmpty_iff] at hfreeze
      exact hfreeze.2
    obtain ⟨k, hk, hfrozen⟩ := c.freeze hf hv
    refine ⟨k, ?_, hfrozen.trans hfreeze.symm⟩
    rw [ok_bind, if_pos hfreeze]
    simp only [EStateM.run, hk]
    rfl
  · refine ⟨g, ?_, ?_⟩
    · rw [ok_bind, if_neg hfreeze]
      rfl
    · rw [c.canonicalJoins.sound.nodesFresh.searchable.unfrozen, Bool.eq_false_iff.mpr hfreeze]

/-- Building succeeds and tells each report once, in the order of the reports. -/
theorem build_ok (hf : l.func.Unjoined) (file : String) (s : Settings) :
    ∃ found g k ds, build file s l = .ok ({ l with func := k }, ds) ∧ Completes l.func g ∧
      g.verify = .ok found ∧
      List.Forall₂ (Told file (Level.ofSetting s.possiblyUndefined) l) found ds := by
  obtain ⟨found, g, hrun, c, hv⟩ := complete_ok hf s
  obtain ⟨ds, hds, htold⟩ := mapM_told fun x hx =>
    diagnose_told file (Level.ofSetting s.possiblyUndefined) c hv hx
  obtain ⟨k, hk, -⟩ := build_eq hf.forest hrun c hv hds
  refine ⟨found, g, k, ds, ?_, c, hv, htold⟩
  rw [hk, ← List.flatMap_def, List.flatMap_singleton']

/-- Flattening first changes neither what is told nor whether the function is frozen. -/
theorem build_flatten (hf : l.func.Unjoined) (file : String) (s : Settings) : ∃ k k' ds,
    build file { s with flatten := true } l = .ok ({ l with func := k }, ds) ∧
    build file { s with flatten := false } l = .ok ({ l with func := k' }, ds) ∧
    k'.frozen = k.frozen := by
  obtain ⟨found, g, hrun, c, hv⟩ := complete_ok hf { s with flatten := true }
  obtain ⟨found', g', hrun', c', hv'⟩ := complete_ok hf { s with flatten := false }
  have hsame := c.verify c' hf.forest
  rw [hv, hv', Except.ok.injEq] at hsame
  subst hsame
  let level := Level.ofSetting s.possiblyUndefined
  obtain ⟨ds, hds, -⟩ := mapM_told fun x hx => diagnose_told file level c hv hx
  have hds' := (mapM_congr fun x hx => diagnose_congr file level c c' hf.forest hv hx).trans hds
  obtain ⟨k, hk, hfrozen⟩ := build_eq hf.forest hrun c hv hds
  obtain ⟨k', hk', hfrozen'⟩ := build_eq hf.forest hrun' c' hv' hds'
  exact ⟨k, k', (ds.map fun d => [d]).flatten, hk, hk', hfrozen'.trans hfrozen.symm⟩

/-! ## Files -/

def assembled (file source : String) (tree : Syntax.File) (m : Module) (ds : List Diagnostic)
    (built : List (Lowered × List Diagnostic)) : Compilation :=
  ⟨file, source, some tree, some { m with functions := built.map Prod.fst }, Diagnostic.sort
    (ds ++ (m.version.map versionProblem).getD [] ++ (built.map Prod.snd).flatten)⟩

theorem compile_eq {file source : String} {tree : Syntax.File} {m : Module} {ds : List Diagnostic}
    (hparse : Syntax.parse source = .ok tree) (hlower : lower file tree = .ok (m, ds))
    (s : Settings) (cancelled : Bool) : compile file source s cancelled =
      (buildAll file s cancelled m.functions).map (assembled file source tree m ds) := by
  rw [compile, hparse]
  simp only [hlower, Except.mapError, ok_bind]
  cases buildAll file s cancelled m.functions <;> rfl

theorem buildAll_eq {file : String} {s : Settings} {fs : List Lowered}
    {built : List (Lowered × List Diagnostic)} (h : fs.mapM (build file s) = .ok built)
    (cancelled : Bool) : buildAll file s cancelled fs =
      if cancelled && !fs.isEmpty then .error .cancelled else .ok built := by
  rw [buildAll, h]
  rfl

/-- A text with a variable that is assigned in one of two branches, inside a nested block. -/
def halfAssigned : String :=
  "func f(c: bool) -> () \x7b var x: bool; if \x7b br c; \x7d then \x7b \x7b x = copy c; \x7d \x7d "
      ++
    "print x; ret; \x7d"

theorem halfAssigned_lowered : ∃ tree m l, Syntax.parse halfAssigned = .ok tree ∧
    lower "main" tree = .ok (m, []) ∧ m.functions = [l] := by
  obtain ⟨tree, hparse, hrun⟩ := exists_of_any (x := Syntax.parse halfAssigned)
    (p := fun tree => (lower "main" tree).toOption.any fun r =>
      r.1.functions.length = 1 && r.2.isEmpty) (by decide +kernel)
  obtain ⟨⟨m, diagnostics⟩, hlower, hshape⟩ := exists_of_any hrun
  rw [Bool.and_eq_true, decide_eq_true_eq, List.isEmpty_iff] at hshape
  obtain ⟨hone, rfl⟩ := hshape
  obtain ⟨l, hl⟩ := List.length_eq_one_iff.mp hone
  exact ⟨tree, m, l, hparse, hlower, hl⟩

end

end DefFlow.Compile

/-! ## Whole files -/

namespace DefFlow.Compile

open DefFlow.Flow DefFlow.Lowering

/-- The diagnostics of a compilation, and its functions with whether each is frozen. -/
def outcome (c : Compilation) : List Diagnostic × List (Syntax.Function × Bool) :=
  (c.diagnostics, ((c.module.map Module.functions).getD []).map fun l => (l.source, l.func.frozen))

/-- Functions that are built alike one by one are so together. -/
theorem mapM_build_flatten (file : String) (s : Settings) {fs : List Lowered}
    (h : ∀ l ∈ fs, l.func.Unjoined) : ∃ built built',
      fs.mapM (build file { s with flatten := true }) = .ok built ∧
      fs.mapM (build file { s with flatten := false }) = .ok built' ∧
      built'.map (fun b => (b.1.source, b.1.func.frozen, b.2)) =
        built.map fun b => (b.1.source, b.1.func.frozen, b.2) := by
  induction fs with
  | nil => exact ⟨[], [], rfl, rfl, rfl⟩
  | cons l fs ih =>
    obtain ⟨k, k', ds, hk, hk', hfrozen⟩ := build_flatten (h l List.mem_cons_self) file s
    obtain ⟨built, built', hb, hb', heq⟩ := ih fun x hx => h x (List.mem_cons_of_mem _ hx)
    refine ⟨({ l with func := k }, ds) :: built, ({ l with func := k' }, ds) :: built', ?_, ?_, ?_⟩
    · rw [List.mapM_cons, hk, ok_bind, hb]
      rfl
    · rw [List.mapM_cons, hk', ok_bind, hb']
      rfl
    · rw [List.map_cons, List.map_cons, heq, hfrozen]

/-- Compiling a text that can be lowered succeeds unless it is cancelled, and has the same outcome
with and without flattening. -/
theorem flattening_cannot_be_observed {file source : String} {tree : Syntax.File} {m : Module}
    {ds : List Diagnostic} (hparse : Syntax.parse source = .ok tree)
    (hlower : lower file tree = .ok (m, ds)) (s : Settings) :
    (∃ c, compile file source { s with flatten := true } false = .ok c) ∧
    ∀ cancelled, (compile file source { s with flatten := true } cancelled).map outcome =
      (compile file source { s with flatten := false } cancelled).map outcome := by
  obtain ⟨built, built', hb, hb', heq⟩ := mapM_build_flatten file s
    fun l hl => (lowered_unjoined hlower hl).1
  simp only [compile_eq hparse hlower, buildAll_eq hb, buildAll_eq hb']
  refine ⟨⟨_, rfl⟩, fun cancelled => ?_⟩
  have hnotes := congrArg (List.map fun e => e.2.2) heq
  have hfrozen := congrArg (List.map fun e => (e.1, e.2.1)) heq
  simp only [List.map_map, Function.comp_def] at hnotes hfrozen
  have hout : outcome (assembled file source tree m ds built') =
      outcome (assembled file source tree m ds built) := by
    simp only [outcome, assembled, Option.map_some, Option.getD_some, List.map_map,
      Function.comp_def, hfrozen]
    rw [show built'.map Prod.snd = built.map Prod.snd from hnotes]
  cases cancelled && !m.functions.isEmpty with
  | true => rfl
  | false => exact congrArg Except.ok hout.symm

/-- Flattening dissolves the nested block, which nobody can tell from the outcome. -/
theorem flattening_cannot_be_observed_in_branch :
    (∃ c, compile "main" halfAssigned { Settings.standard with flatten := true } false = .ok c) ∧
    ∀ cancelled,
      (compile "main" halfAssigned { Settings.standard with flatten := true }
          cancelled).map outcome =
        (compile "main" halfAssigned { Settings.standard with flatten := false } cancelled).map
          outcome := by
  obtain ⟨tree, m, l, hparse, hlower, -⟩ := halfAssigned_lowered
  exact flattening_cannot_be_observed hparse hlower Settings.standard

end DefFlow.Compile
