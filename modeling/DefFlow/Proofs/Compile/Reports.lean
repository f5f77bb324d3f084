import DefFlow.Proofs.Compile.Build
import DefFlow.Proofs.Lowering.Silent
import DefFlow.Proofs.Reaching.Paths

/-!
# Which uses are told

A use of a variable is told as undefined exactly if no way from the entry to it runs a definition,
and as possibly undefined only if some ways do and others do not. Of these it is told exactly
once, unless different values meet at the top of its block and the block itself defines the
variable later on.
-/

set_option autoImplicit false

namespace DefFlow.Flow

open Func

def Func.Way (f : Func) (u : UseSite) (is : List InstId) : Prop :=
  ∃ b js, (f.inst u.inst).block = some b ∧ f.Trail b js ∧
    is = js ++ (f.code b).take (f.indexOf u.inst)

section

variable {f g : Func} {v : VarId} {b : NodeId} {u : UseSite} {is : List InstId}

/-! ## Ways -/

theorem Func.UsedAt.way_iff (hu : f.UsedAt b v u) : f.Way u is ↔
    ∃ js, f.Trail b js ∧ is = js ++ (f.code b).take (f.indexOf u.inst) := by
  constructor
  · rintro ⟨c, js, hc, hjs⟩
    rw [hu.block, Option.some.injEq] at hc
    exact ⟨js, hc ▸ hjs⟩
  · rintro ⟨js, hjs⟩
    exact ⟨b, js, hu.block, hjs⟩

/-- A way to a use is free if it is so up to the block and inside. -/
theorem Func.UsedAt.forall_way_iff (hu : f.UsedAt b v u) (hf : f.Forest) (hb : b ∈ f.blocks) :
    (∀ is, f.Way u is → f.Free v is) ↔
      f.Quiet v b 0 (f.indexOf u.inst) ∧ ∀ js, f.Trail b js → f.Free v js := by
  simp only [hu.way_iff]
  constructor
  · intro h
    obtain ⟨js, hjs⟩ := hf.exists_trail hb
    exact ⟨free_take.mp (free_append.mp (h _ ⟨js, hjs, rfl⟩)).2,
      fun js hjs => (free_append.mp (h _ ⟨js, hjs, rfl⟩)).1⟩
  · rintro ⟨hq, h⟩ is ⟨js, hjs, rfl⟩
    exact free_append.mpr ⟨h js hjs, free_take.mpr hq⟩

theorem Func.UsedAt.exists_way_iff (hu : f.UsedAt b v u) : (∃ is, f.Way u is ∧ f.Free v is) ↔
    f.Quiet v b 0 (f.indexOf u.inst) ∧ ∃ js, f.Trail b js ∧ f.Free v js := by
  simp only [hu.way_iff]
  constructor
  · rintro ⟨is, ⟨js, hjs, rfl⟩, hfree⟩
    rw [free_append] at hfree
    exact ⟨free_take.mp hfree.2, js, hjs, hfree.1⟩
  · rintro ⟨hq, js, hjs, hfree⟩
    exact ⟨_, ⟨js, hjs, rfl⟩, free_append.mpr ⟨hfree, free_take.mpr hq⟩⟩

theorem Func.UsedAt.exists_not_way_iff (hu : f.UsedAt b v u)
    (hq : f.Quiet v b 0 (f.indexOf u.inst)) : (∃ is, f.Way u is ∧ ¬ f.Free v is) ↔
      ∃ js, f.Trail b js ∧ ¬ f.Free v js := by
  simp only [hu.way_iff]
  constructor
  · rintro ⟨is, ⟨js, hjs, rfl⟩, hfree⟩
    exact ⟨js, hjs, fun h => hfree (free_append.mpr ⟨h, free_take.mpr hq⟩)⟩
  · rintro ⟨js, hjs, hfree⟩
    exact ⟨_, ⟨js, hjs, rfl⟩, fun h => hfree (free_append.mp h).1⟩

/-! ## Reports -/

/-- What a completion finds at the top of a block in which uses wait. -/
theorem Completes.undefinedAt_iff (c : Completes f g) (hf : f.Unjoined) (hb : b ∈ f.blocks)
    (hw : f.waiting b v ≠ []) : ∃ r, g.undefinedAt b v = .ok r ∧
      (r = some false ↔ ∀ js, f.Trail b js → f.Free v js) ∧
      (r = some true ↔ (∃ js, f.Trail b js ∧ f.Free v js) ∧
        (∃ js, f.Trail b js ∧ ¬ f.Free v js) ∧ ¬ (f.Needed v b ∧ f.Defining v b)) := by
  have hg := c.canonicalJoins.sound.nodesFresh
  obtain ⟨r, hr, hfalse, htrue⟩ := hg.undefinedAt_iff c.canonicalJoins.thrifty (c.blocks ▸ hb)
    (c.furnished hf.forest hb hw)
  refine ⟨r, hr, ?_, ?_⟩
  · rw [hfalse, c.defining, ← forall_arrives_iff hf.scheduled hf.forest hf.enters hb]
    simp only [c.arrives_iff hf.forest hg.searchable.forest hb]
  · rw [htrue, Needed, Needed, c.defining, c.meets_iff hf.forest hg.searchable.forest hb,
      ← arrives_none_iff hf.scheduled hf.forest hf.enters hb,
      ← arrives_some_iff hf.scheduled hf.forest hf.enters hb]
    simp only [c.arrives_iff hf.forest hg.searchable.forest hb]

variable {found : List Violation}

theorem Completes.mem_verify (c : Completes f g) (hwaits : f.Waits) (hv : g.verify = .ok found)
    {x : Violation} : x ∈ found ↔ ∃ b ∈ f.blocks, ∃ v u partly, x = .undefinedUse partly b v u ∧
      (f.UsedAt b v u ∧ f.Quiet v b 0 (f.indexOf u.inst)) ∧
      g.undefinedAt b v = .ok (some partly) := by
  obtain ⟨found', hv', hmem⟩ := c.canonicalJoins.sound.nodesFresh.mem_verify
  rw [hv, Except.ok.injEq] at hv'
  subst hv'
  simp only [hmem, c.blocks, c.waiting, hwaits.mem]

/-- A use is reported as undefined exactly if all ways to it are free, and as possibly undefined
if some are and some are not, apart from the case that is overlooked. -/
theorem Completes.reported_iff (c : Completes f g) (hf : f.Unjoined) (hwaits : f.Waits)
    (hv : g.verify = .ok found) (hb : b ∈ f.blocks) (hu : f.UsedAt b v u) :
    (.undefinedUse false b v u ∈ found ↔ ∀ is, f.Way u is → f.Free v is) ∧
    (.undefinedUse true b v u ∈ found ↔ (∃ is, f.Way u is ∧ f.Free v is) ∧
      (∃ is, f.Way u is ∧ ¬ f.Free v is) ∧ ¬ (f.Needed v b ∧ f.Defining v b)) := by
  have hmem : ∀ partly, .undefinedUse partly b v u ∈ found ↔
      f.Quiet v b 0 (f.indexOf u.inst) ∧ g.undefinedAt b v = .ok (some partly) := by
    intro partly
    rw [c.mem_verify hwaits hv]
    constructor
    · rintro ⟨_, -, _, _, _, heq, ⟨-, hq⟩, hr⟩
      cases heq
      exact ⟨hq, hr⟩
    · rintro ⟨hq, hr⟩
      exact ⟨b, hb, v, u, partly, rfl, ⟨hu, hq⟩, hr⟩
  by_cases hq : f.Quiet v b 0 (f.indexOf u.inst)
  · have hw := List.ne_nil_of_mem ((hwaits.mem b v u).mpr ⟨hu, hq⟩)
    obtain ⟨r, hr, hfalse, htrue⟩ := c.undefinedAt_iff hf hb hw
    rw [hmem, hmem, hr, hu.forall_way_iff hf.forest hb, hu.exists_way_iff,
      hu.exists_not_way_iff hq, ← hfalse]
    simp only [hq, true_and, Except.ok.injEq, htrue]
  · rw [hmem, hmem, hu.forall_way_iff hf.forest hb, hu.exists_way_iff]
    simp only [hq, false_and, and_self]

theorem Completes.verify_nodup (c : Completes f g) (hwaits : f.Waits)
    (hv : g.verify = .ok found) : found.Nodup := by
  have hs := c.canonicalJoins.sound.nodesFresh
  rw [hs.verify_eq, Except.ok.injEq] at hv
  subst hv
  have hreports : ∀ b v, (g.reports b v).Nodup := by
    intro b v
    rw [reports]
    split
    · refine (c.waiting b v ▸ hwaits.nodup b v).map fun u u' he => ?_
      cases he
      rfl
    · exact List.nodup_nil
  refine List.nodup_flatMap.mpr
      ⟨fun b hb => List.nodup_flatMap.mpr ⟨fun e _ => hreports b e.1, ?_⟩, ?_⟩
  · refine (List.pairwise_map.mp (hs.searchable.tables.keys b)).imp fun hne x hx hx' => ?_
    obtain ⟨u, p, rfl, -⟩ := mem_reports.mp hx
    obtain ⟨u', p', heq, -⟩ := mem_reports.mp hx'
    exact hne (Violation.undefinedUse.inj heq).2.2.1
  · refine hs.searchable.forest.blocks_nodup.imp fun hne x hx hx' => ?_
    obtain ⟨e, -, hx⟩ := List.mem_flatMap.mp hx
    obtain ⟨e', -, hx'⟩ := List.mem_flatMap.mp hx'
    obtain ⟨u, p, rfl, -⟩ := mem_reports.mp hx
    obtain ⟨u', p', heq, -⟩ := mem_reports.mp hx'
    exact hne (Violation.undefinedUse.inj heq).2.1

end

end DefFlow.Flow

namespace DefFlow.Compile

open DefFlow.Flow DefFlow.Flow.Func DefFlow.Lowering

section

variable {file : String} {level : Level} {l : Lowered}

/-- The code of a diagnostic tells on how many paths a definition is missing. -/
theorem Told.code {x : Violation} {d : Diagnostic} (h : Told file level l x d) :
    ∃ partly b v u, x = .undefinedUse partly b v u ∧ d.location = useLocation file l u ∧
      d.code = if partly then Code.possiblyUndefined else Code.undefinedVariable := by
  cases h with
  | undefined b v u => exact ⟨false, b, v, u, rfl, rfl, rfl⟩
  | possibly b v u paths =>
    refine ⟨true, b, v, u, rfl, ?_⟩
    rw [Diagnostic.possiblyUndefined]
    cases paths <;> exact ⟨rfl, rfl⟩

theorem Told.isAlarm {x : Violation} {d : Diagnostic} (h : Told file level l x d) :
    d.isAlarm = true := by
  obtain ⟨partly, -, -, -, -, -, hcode⟩ := h.code
  rw [Diagnostic.isAlarm, hcode]
  cases partly <;> decide

structure Reported (file : String) (level : Level) (l : Lowered)
    (rs : List (Violation × Diagnostic)) : Prop where
  unjoined : l.func.Unjoined
  waits : l.func.Waits
  told : ∀ r ∈ rs, Told file level l r.1 r.2
  completed : ∃ g, Completes l.func g ∧ g.verify = .ok (rs.map Prod.fst)

theorem build_reported (hl : l.func.Unjoined ∧ l.func.Waits) (file : String) (s : Settings) :
    ∃ k rs, build file s l = .ok ({ l with func := k }, rs.map Prod.snd) ∧
      Reported file (Level.ofSetting s.possiblyUndefined) l rs := by
  obtain ⟨found, g, k, ds, hbuild, c, hv, htold⟩ := build_ok hl.1 file s
  have hlen := htold.length_eq
  refine ⟨k, found.zip ds, ?_, hl.1, hl.2, fun r hr => List.forall₂_zip htold hr, g, c, ?_⟩
  · rw [hbuild, List.map_snd_zip hlen.ge]
  · rw [hv, List.map_fst_zip hlen.le]

theorem compile_alarms {source : String} {tree : Syntax.File} {m : Module} {ds : List Diagnostic}
    (hparse : Syntax.parse source = .ok tree) (hlower : lower file tree = .ok (m, ds))
    (s : Settings) : ∃ c alarms, compile file source s false = .ok c ∧
      (c.diagnostics.filter Diagnostic.isAlarm).Perm (alarms.flatten.map Prod.snd) ∧
      List.Forall₂ (Reported file (Level.ofSetting s.possiblyUndefined)) m.functions alarms := by
  have hall : ∀ {fs : List Lowered}, (∀ l ∈ fs, l.func.Unjoined ∧ l.func.Waits) → ∃ built alarms,
      fs.mapM (build file s) = .ok built ∧ built.map Prod.snd = alarms.map (List.map Prod.snd) ∧
      List.Forall₂ (Reported file (Level.ofSetting s.possiblyUndefined)) fs alarms := by
    intro fs hfs
    induction fs with
    | nil => exact ⟨[], [], rfl, rfl, .nil⟩
    | cons l fs ih =>
      obtain ⟨k, rs, hbuild, hrs⟩ := build_reported (hfs l List.mem_cons_self) file s
      obtain ⟨built, alarms, hb, heq, hall⟩ := ih fun x hx => hfs x (List.mem_cons_of_mem _ hx)
      refine ⟨({ l with func := k }, rs.map Prod.snd) :: built, rs :: alarms, ?_,
          ?_, .cons hrs hall⟩
      · rw [List.mapM_cons, hbuild, ok_bind, hb]
        rfl
      · rw [List.map_cons, List.map_cons, heq]
  obtain ⟨built, alarms, hb, heq, hrep⟩ := hall fun l hl => lowered_unjoined hlower hl
  refine ⟨assembled file source tree m ds built, alarms, ?_, ?_, hrep⟩
  · rw [compile_eq hparse hlower, buildAll_eq hb]
    rfl
  refine ((List.mergeSort_perm _ _).filter _).trans ?_
  have hds : ds.filter Diagnostic.isAlarm = [] := by
    simpa [List.filter_eq_nil_iff] using lower_silent hlower
  have hversions : ((m.version.map versionProblem).getD []).filter Diagnostic.isAlarm = [] := by
    cases m.version with
    | none => rfl
    | some v =>
      rw [Option.map_some, Option.getD_some, versionProblem]
      split
      · rfl
      · exact List.filter_eq_nil_iff.mpr (List.forall_mem_singleton.mpr (by
          show ¬ Code.isAlarm Code.unsupportedVersion = true
          decide))
  have hown : ∀ d ∈ alarms.flatten.map Prod.snd, d.isAlarm = true := by
    intro d hd
    obtain ⟨r, hr, rfl⟩ := List.mem_map.mp hd
    obtain ⟨rs, hrs, hr⟩ := List.mem_flatten.mp hr
    obtain ⟨l, -, hl⟩ := forall₂_right hrep hrs
    exact (hl.told r hr).isAlarm
  rw [List.filter_append, List.filter_append, hds, hversions, heq, ← List.map_flatten,
    List.filter_eq_self.mpr hown]
  rfl

/-- The alarms of a function are raised for the right uses and with the right codes. -/
structure Warranted (file : String) (level : Level) (l : Lowered)
    (rs : List (Violation × Diagnostic)) : Prop where
  told : ∀ r ∈ rs, Told file level l r.1 r.2
  used : ∀ r ∈ rs, ∃ b ∈ l.func.blocks, ∃ v u partly, r.1 = .undefinedUse partly b v u ∧
    l.func.UsedAt b v u ∧ r.2.location = useLocation file l u ∧
    r.2.code = if partly then Code.possiblyUndefined else Code.undefinedVariable
  undefined : ∀ b ∈ l.func.blocks, ∀ v u, l.func.UsedAt b v u →
    (.undefinedUse false b v u ∈ rs.map Prod.fst ↔
      ∀ is, l.func.Way u is → l.func.Free v is)
  possibly : ∀ b ∈ l.func.blocks, ∀ v u, l.func.UsedAt b v u →
    .undefinedUse true b v u ∈ rs.map Prod.fst →
      (∃ is, l.func.Way u is ∧ l.func.Free v is) ∧ ∃ is, l.func.Way u is ∧ ¬ l.func.Free v is

theorem Reported.warranted {rs : List (Violation × Diagnostic)} (h : Reported file level l rs) :
    Warranted file level l rs := by
  obtain ⟨g, c, hv⟩ := h.completed
  refine ⟨h.told, fun r hr => ?_, fun b hb v u hu => ?_, fun b hb v u hu hr => ?_⟩
  · obtain ⟨b, hb, v, u, partly, hx, ⟨hu, -⟩, -⟩ :=
      (c.mem_verify h.waits hv).mp (List.mem_map_of_mem hr)
    obtain ⟨partly', b', v', u', hx', hloc, hcode⟩ := (h.told r hr).code
    cases hx.symm.trans hx'
    exact ⟨b, hb, v, u, partly, hx, hu, hloc, hcode⟩
  · exact (c.reported_iff h.unjoined h.waits hv hb hu).1
  · obtain ⟨hfree, hnot, -⟩ := (c.reported_iff h.unjoined h.waits hv hb hu).2.mp hr
    exact ⟨hfree, hnot⟩

/-- The alarms of a file are those of its functions: a use is told to be undefined exactly if all
ways to it from the entry are free of definitions, and to be possibly undefined only if some are
and some are not. -/
theorem alarms_are_warranted {source : String} {tree : Syntax.File} {m : Module}
    {ds : List Diagnostic} (hparse : Syntax.parse source = .ok tree)
    (hlower : lower file tree = .ok (m, ds)) (s : Settings) :
    ∃ c alarms, compile file source s false = .ok c ∧
      (c.diagnostics.filter Diagnostic.isAlarm).Perm (alarms.flatten.map Prod.snd) ∧
      List.Forall₂ (Warranted file (Level.ofSetting s.possiblyUndefined)) m.functions alarms := by
  obtain ⟨c, alarms, hc, hperm, hrep⟩ := compile_alarms hparse hlower s
  exact ⟨c, alarms, hc, hperm, hrep.imp fun _ _ h => h.warranted⟩

/-- The one function of a text in which a variable is assigned in one of two branches. -/
theorem alarms_are_warranted_behind_branch : ∃ tree m c l rs,
    Syntax.parse halfAssigned = .ok tree ∧ lower "main" tree = .ok (m, []) ∧ m.functions = [l] ∧
      compile "main" halfAssigned Settings.standard false = .ok c ∧
      (c.diagnostics.filter Diagnostic.isAlarm).Perm (rs.map Prod.snd) ∧
      Warranted "main" .warning l rs := by
  obtain ⟨tree, m, l, hparse, hlower, hm⟩ := halfAssigned_lowered
  obtain ⟨c, alarms, hc, hperm, hall⟩ := alarms_are_warranted hparse hlower Settings.standard
  rw [hm] at hall
  cases hall with
  | @cons _ rs _ _ hrs hnil =>
    cases hnil
    have hlevel : Level.ofSetting Settings.standard.possiblyUndefined =
        .warning := by decide +kernel
    exact ⟨tree, m, c, l, rs, hparse, hlower, hm, hc, by simpa using hperm, hlevel ▸ hrs⟩

/-! ## How often a use is told -/

def useOf : Violation → Option UseSite
  | .undefinedUse _ _ _ u => some u
  | _ => none

/-- How often a use is told that some way reaches without a definition: once, but never if different
values meet at the top of its block and the block defines the variable itself. -/
def ToldOnce (l : Lowered) (rs : List (Violation × Diagnostic)) : Prop :=
  ∀ b ∈ l.func.blocks, ∀ v u, l.func.UsedAt b v u →
    (∃ is, l.func.Way u is ∧ l.func.Free v is) →
      (¬ (l.func.Needed v b ∧ l.func.Defining v b) →
        rs.countP (fun r => useOf r.1 = some u) = 1) ∧
      (l.func.Needed v b ∧ l.func.Defining v b → rs.countP (fun r => useOf r.1 = some u) = 0)

theorem Reported.toldOnce {rs : List (Violation × Diagnostic)} (h : Reported file level l rs) :
    ToldOnce l rs := by
  obtain ⟨g, c, hv⟩ := h.completed
  intro b hb v u hu hfree
  have hcount : rs.countP (fun r => useOf r.1 = some u) =
      (rs.map Prod.fst).countP fun x => useOf x = some u := by
    rw [List.countP_map]
    rfl
  rw [hcount]
  generalize rs.map Prod.fst = found at hv
  obtain ⟨hfalse, htrue⟩ := c.reported_iff h.unjoined h.waits hv hb hu
  -- The reports about a use differ at most in whether they are about all paths.
  have hcases : ∀ x ∈ found, useOf x = some u →
      x = .undefinedUse false b v u ∨ x = .undefinedUse true b v u := by
    intro x hx hxu
    obtain ⟨b', -, v', u', partly, rfl, ⟨hu', -⟩, -⟩ := (c.mem_verify h.waits hv).mp hx
    cases hxu
    obtain rfl : b' = b := Option.some.inj (hu'.block.symm.trans hu.block)
    obtain rfl : v' = v := by
      have := hu'.operand.symm.trans hu.operand
      simpa using this
    cases partly
    · exact .inl rfl
    · exact .inr rfl
  have hone : ∀ partly, .undefinedUse partly b v u ∈ found →
      .undefinedUse (!partly) b v u ∉ found → found.countP (fun x => useOf x = some u) = 1 := by
    intro partly hin hout
    have hsame : ∀ x ∈ found, decide (useOf x = some u) = true ↔
        (x == .undefinedUse partly b v u) = true := by
      intro x hx
      rw [decide_eq_true_iff, beq_iff_eq]
      constructor
      · intro hxu
        cases partly with
        | false => exact (hcases x hx hxu).resolve_right fun he => hout (he ▸ hx)
        | true => exact (hcases x hx hxu).resolve_left fun he => hout (he ▸ hx)
      · rintro rfl
        rfl
    rw [List.countP_congr hsame]
    exact List.count_eq_one_of_mem (c.verify_nodup h.waits hv) hin
  refine ⟨fun hnot => ?_, fun hboth => ?_⟩
  · by_cases hall : ∀ is, l.func.Way u is → l.func.Free v is
    · refine hone false (hfalse.mpr hall) fun htr => ?_
      obtain ⟨-, ⟨is, his, hdef⟩, -⟩ := htrue.mp htr
      exact hdef (hall is his)
    · have hdef : ∃ is, l.func.Way u is ∧ ¬ l.func.Free v is := by simpa using hall
      exact hone true (htrue.mpr ⟨hfree, hdef, hnot⟩) fun hfa => hall (hfalse.mp hfa)
  · rw [List.countP_eq_zero]
    intro x hx hxu
    rcases hcases x hx (of_decide_eq_true hxu) with rfl | rfl
    · obtain ⟨hq, hall⟩ := (hu.forall_way_iff h.unjoined.forest hb).mp (hfalse.mp hx)
      obtain ⟨js, hjs, hdef⟩ := (arrives_some_iff h.unjoined.scheduled h.unjoined.forest
        h.unjoined.enters hb).mp hboth.1.exists_some
      exact hdef (hall js hjs)
    · exact (htrue.mp hx).2.2 hboth

/-- Some way without a definition to a use is told exactly once, apart from the case that is
overlooked. -/
theorem undefined_ways_are_told {source : String} {tree : Syntax.File} {m : Module}
    {ds : List Diagnostic} (hparse : Syntax.parse source = .ok tree)
    (hlower : lower file tree = .ok (m, ds)) (s : Settings) :
    ∃ c alarms, compile file source s false = .ok c ∧
      (c.diagnostics.filter Diagnostic.isAlarm).Perm (alarms.flatten.map Prod.snd) ∧
      List.Forall₂ (fun l rs =>
          (∀ r ∈ rs, Told file (Level.ofSetting s.possiblyUndefined) l r.1 r.2) ∧
        ToldOnce l rs) m.functions alarms := by
  obtain ⟨c, alarms, hc, hperm, hrep⟩ := compile_alarms hparse hlower s
  exact ⟨c, alarms, hc, hperm, hrep.imp fun _ _ h => ⟨h.told, h.toldOnce⟩⟩

theorem undefined_ways_are_told_behind_branch : ∃ tree m c l rs,
    Syntax.parse halfAssigned = .ok tree ∧ lower "main" tree = .ok (m, []) ∧ m.functions = [l] ∧
      compile "main" halfAssigned Settings.standard false = .ok c ∧
      (c.diagnostics.filter Diagnostic.isAlarm).Perm (rs.map Prod.snd) ∧ ToldOnce l rs := by
  obtain ⟨tree, m, l, hparse, hlower, hm⟩ := halfAssigned_lowered
  obtain ⟨c, alarms, hc, hperm, hall⟩ := undefined_ways_are_told hparse hlower Settings.standard
  rw [hm] at hall
  cases hall with
  | @cons _ rs _ _ hrs hnil =>
    cases hnil
    exact ⟨tree, m, c, l, rs, hparse, hlower, hm, hc, by simpa using hperm, hrs.2⟩

end

end DefFlow.Compile
