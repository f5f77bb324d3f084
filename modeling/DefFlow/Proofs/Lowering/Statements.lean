import DefFlow.Proofs.Lowering.Instructions

/-!
# Lowering statements

Lowering fills the sequence that stands last among the trees. What a statement is made of is
built behind that sequence and then put into it. None of it fails. Main statement: the sequence has
got the accepted instructions of the statements in the order of the text, the others and the strays
are reported, and without a diagnostic the sequence has got the sequences of steps that the
statements allow.
-/

set_option autoImplicit false

namespace DefFlow.Lowering

open DefFlow.Flow Syntax Component Computability

variable {types : String → Option ValueType}

structure Good (types : String → Option ValueType) (s : State) : Prop where
  draft : s.out.func.Draft
  knows : Knows types s.out.func
  keyed : s.out.Keyed

theorem Good.extends {busy : Option NodeId} {s s' : State} (h : Good types s)
    (hext : Extends busy s s') : Good types s' :=
  ⟨hext.builds.draft, h.knows.builds hext.builds, hext.keyed h.keyed⟩

/-! ## Parts that have been built -/

/-- The trees `xs` have been built behind all others. They hold the accepted ones of the
instructions `wss`, the others and the strays `sts` have been reported, and without a diagnostic
they allow the steps `Ls`. -/
structure Makes (types : String → Option ValueType) (xs : List Component)
    (Ls : List (Language Step)) (wss : List (List Written)) (sts : List Statement)
    (s s' : State) : Prop extends Extends none s s' where
  trees : s'.out.func.trees = s.out.func.trees ++ xs
  clean : s'.diagnostics = [] → s.diagnostics = [] ∧ xs.map (lang s'.out.func.steps) = Ls
  code : List.Forall₂ (fun x ws => Holds types s' (x.blocks.flatMap s'.out.func.code) ws) xs wss
  accounts : ∃ new, s'.diagnostics = s.diagnostics ++ new ∧ Accounts types wss.flatten sts new

section

variable {s s₁ s' : State} {xs ys : List Component} {Ls Ms : List (Language Step)}
  {L M : Language Step} {b q : NodeId} {ws : List Written} {wss wss' : List (List Written)}
  {sts sts' : List Statement}

/-- What holds the accepted instructions goes on doing so where the code of its blocks stays. -/
theorem Extends.holds_code {busy : Option NodeId} {x : Component} (h : Extends busy s s')
    (hd : s.out.func.Draft) (hx : x ∈ s.out.func.trees) (hbusy : ∀ b ∈ x.blocks, busy ≠ some b)
    (hh : Holds types s (x.blocks.flatMap s.out.func.code) ws) :
    Holds types s' (x.blocks.flatMap s'.out.func.code) ws := by
  have hcode : x.blocks.flatMap s'.out.func.code = x.blocks.flatMap s.out.func.code :=
    List.flatMap_congr fun b hb => h.builds.code
      (hd.forest.stored b (mem_blocksAll.mpr ⟨x, hx, hb⟩)) (hbusy b hb)
  rw [hcode]
  exact h.holds hh

/-- Trees that hold their instructions go on doing so while others are built. -/
theorem Makes.code_later {s'' : State} (h : Makes types xs Ls wss sts s s')
    (hext : Extends none s' s'') :
    List.Forall₂ (fun x ws => Holds types s'' (x.blocks.flatMap s''.out.func.code) ws) xs wss := by
  have htree : ∀ x ∈ xs, x ∈ s'.out.func.trees := fun x hx => by
    rw [h.trees]
    exact List.mem_append_right _ hx
  have hd := h.builds.draft
  have hcode := h.code
  clear h
  induction hcode with
  | nil => exact .nil
  | cons hone _ ih =>
    exact .cons (hext.holds_code hd (htree _ List.mem_cons_self) nofun hone)
      (ih fun y hy => htree y (List.mem_cons_of_mem _ hy))

theorem Makes.nothing (hd : s.out.func.Draft) : Makes types [] [] [] [] s s :=
  ⟨.refl hd _, by rw [List.append_nil], fun hc => ⟨hc, rfl⟩, .nil, [], (List.append_nil _).symm,
    .nil types⟩

theorem Makes.append (h : Makes types xs Ls wss sts s s₁) (h' : Makes types ys Ms wss' sts' s₁ s') :
    Makes types (xs ++ ys) (Ls ++ Ms) (wss ++ wss') (sts ++ sts') s s' where
  toExtends := h.toExtends.idle h'.toExtends
  trees := by rw [h'.trees, h.trees, List.append_assoc]
  clean hc := by
    obtain ⟨hc₁, hys⟩ := h'.clean hc
    obtain ⟨hc₀, hxs⟩ := h.clean hc₁
    refine ⟨hc₀, ?_⟩
    rw [List.map_append, hys, ← hxs]
    refine congrArg (· ++ Ms) (List.map_congr_left fun x hx => ?_)
    exact h'.builds.lang h.builds.draft (h.trees ▸ List.mem_append_right _ hx)
  code := List.rel_append (h.code_later h'.toExtends) h'.code
  accounts := by
    obtain ⟨new, hnew, ha⟩ := h.accounts
    obtain ⟨new', hnew', ha'⟩ := h'.accounts
    refine ⟨new ++ new', by rw [hnew', hnew, List.append_assoc], ?_⟩
    rw [List.flatten_append]
    exact ha.append ha'

theorem Makes.cons {x : Component} (h : Makes types [x] [L] [ws] sts s s₁)
    (h' : Makes types ys Ms wss' sts' s₁ s') :
    Makes types (x :: ys) (L :: Ms) (ws :: wss') (sts ++ sts') s s' := h.append h'

theorem newSequence_run (hg : Good types s) : ∃ q s', edit (Edit.newSequence []) s = .ok (q, s') ∧
    Makes types [.seq q []] [1] [[]] [] s s' := by
  obtain ⟨q, f, hrun⟩ := newSequence_granted hg.draft.unfrozen
  obtain ⟨hb, ht⟩ := newSequence_builds hg.draft hrun
  exact ⟨q, _, edit_eq hrun, .of_builds hb, ht, fun hc => ⟨hc, rfl⟩, .cons (.nil types _) .nil,
    [], (List.append_nil _).symm, .nil types⟩

theorem trees_eq (f : Func) : f.trees = f.body :: f.detached := rfl

theorem Makes.assemble {f : Func} {z : Component} (h : Makes types xs Ls wss sts s s₁)
    (hbuilds : Builds none s₁.out.func f) (htrees : f.trees = s.out.func.trees ++ [z])
    (hlang : xs.map (lang f.steps) = Ls → z.lang f.steps = L)
    (hcode : ∀ {t : State}, t.out.func = f → List.Forall₂ (fun x ws => Holds types t
      (x.blocks.flatMap t.out.func.code) ws) xs wss → Holds types t (z.blocks.flatMap f.code) ws)
    (hws : wss.flatten.Perm ws) (hsts : sts.Perm sts') :
    Makes types [z] [L] [ws] sts' s { s₁ with out := { s₁.out with func := f } } where
  toExtends := h.toExtends.idle (.of_builds hbuilds)
  trees := htrees
  clean hc := by
    obtain ⟨hc₀, hxs⟩ := h.clean hc
    refine ⟨hc₀, ?_⟩
    have hmoved : xs.map (lang f.steps) = xs.map (lang s₁.out.func.steps) :=
      List.map_congr_left fun x hx =>
        hbuilds.lang h.builds.draft (h.trees ▸ List.mem_append_right _ hx)
    rw [List.map_singleton]
    exact congrArg (· :: []) (hlang (hmoved.trans hxs))
  code := .cons (hcode rfl (h.code_later (.of_builds hbuilds))) .nil
  accounts := by
    obtain ⟨new, hnew, ha⟩ := h.accounts
    refine ⟨new, hnew, ?_⟩
    rw [List.flatten_singleton]
    exact ha.perm hws hsts

/-- The instructions of some trees are those of each in its turn. -/
theorem holds_blocksAll {s : State} {code : NodeId → List InstId} {xs : List Component}
    {wss : List (List Written)}
    (h : List.Forall₂ (fun x ws => Holds types s (x.blocks.flatMap code) ws) xs wss) :
    Holds types s ((blocksAll xs).flatMap code) wss.flatten := by
  induction h with
  | nil => exact .nil types s
  | cons h _ ih =>
    rw [blocksAll, List.flatMap_append, List.flatten_cons]
    exact h.append ih

/-- A fork is made of the block and the trees built behind it. -/
theorem fork_run {cond : NodeId} {P : List Component} (ts : List Component) {Lc : Language Step}
    {wc : List Written}
    (h : Makes types (.block cond :: P) (Lc :: Ls) (wc :: wss) sts s s₁) (hperm : P.Perm ts)
    (hcases : ∀ code : NodeId → List Step, P.map (lang code) = Ls → langCases code ts = M)
    (hparts : ∀ R : Component → List Written → Prop, List.Forall₂ R P wss → List.Forall₂ R ts wss')
    (hws : wss.Perm wss') (hsts : sts.Perm sts') : ∃ q s',
    fork cond (ts.map Component.id) s₁ = .ok (q, s') ∧
    Makes types [.fork q cond ts] [Lc * M] [wc ++ wss'.flatten] sts' s s' := by
  have htree : ∀ x ∈ .block cond :: P, x ∈ s₁.out.func.trees := fun x hx => by
    rw [h.trees]
    exact List.mem_append_right _ hx
  obtain ⟨rc, hrc, href⟩ := refers_tree (htree _ List.mem_cons_self)
  obtain ⟨refs, hrefs, hall⟩ := refers_all ts fun x hx =>
    htree x (List.mem_cons_of_mem _ (hperm.symm.subset hx))
  have ht : s₁.out.func.trees = s.out.func.body :: s.out.func.detached ++ .block cond :: P := by
    rw [h.trees, trees_eq]
  obtain ⟨q, f, hnew⟩ := newFork_granted h.builds.draft ht hperm href hall
  obtain ⟨hd, hasm⟩ := newFork_draft h.builds.draft ht hperm href.id hall.ids hnew
  refine ⟨q, _, edit_eq ?_, h.assemble (hasm.builds hd none) hasm.trees (fun hl => ?_)
    (fun {t} _ hcode => ?_) ?_ hsts⟩
  · exact (Edit.bind_eq hrc).trans ((Edit.bind_eq hrefs).trans hnew)
  · obtain ⟨hcond, hl⟩ := List.cons.inj hl
    rw [lang, hcases _ hl, ← hcond, lang]
  · subst f
    cases hcode with
    | cons hcond hrest =>
    have hts := holds_blocksAll (hparts _ hrest)
    rw [Component.blocks, List.flatMap_cons]
    refine Holds.append ?_ hts
    rwa [Component.blocks, List.flatMap_singleton] at hcond
  · rw [List.flatten_cons]
    exact (hws.flatten).append_left wc

/-- A loop is made of the trees built last. Without a start of its own it starts at once. -/
theorem loop_run {cond : NodeId} (given : Option Component) {body update : Component}
    {P : List Component} {Li Lc Lb Lu : Language Step} (h : Makes types P Ls wss sts s s₁)
    (hperm : P.Perm (given.toList ++ [.block cond, body, update]))
    (hlangs : ∀ code : NodeId → List Step, P.map (lang code) = Ls →
      (given.map (lang code)).getD 1 = Li ∧ {code cond} = Lc ∧ body.lang code = Lb ∧
        update.lang code = Lu)
    (hparts : ∀ R : Component → List Written → Prop, List.Forall₂ R P wss →
      List.Forall₂ R (given.toList ++ [.block cond, body, update]) wss')
    (hws : wss.Perm wss') (hsts : sts.Perm sts') : ∃ q s' x,
    loop (given.map Component.id) cond body.id update.id s₁ = .ok (q, s') ∧ x.id = q ∧
    Makes types [x] [Li * (Lc * (Lb * Lu * Lc)∗)] [wss'.flatten] sts' s s' := by
  have htree : ∀ x ∈ given.toList ++ [.block cond, body, update], x ∈ s₁.out.func.trees :=
    fun x hx => by
      rw [h.trees]
      exact List.mem_append_right _ (hperm.symm.subset hx)
  obtain ⟨refs, hrefs, hgiven, hid⟩ : ∃ refs : Option (ComponentRef × Component),
      (given.map Component.id).mapM Edit.refTo s₁.out.func = .ok (refs.map Prod.fst) s₁.out.func ∧
      refs.map Prod.snd = given ∧ ∀ e ∈ refs, Refers e.2 s₁.out.func e.1 := by
    cases given with
    | none => exact ⟨none, rfl, rfl, nofun⟩
    | some x =>
      obtain ⟨ref, href, hrefers⟩ := refers_tree (htree x (by simp))
      refine ⟨some (ref, x), ?_, rfl, fun e he => by cases he; exact hrefers⟩
      rw [Option.map_some, Option.mapM_some, map_eq_pure_bind, Edit.bind_eq href]
      rfl
  obtain ⟨rc, hrc, hcond⟩ := refers_tree (htree (.block cond) (by simp))
  obtain ⟨rb, hrb, hbody⟩ := refers_tree (htree body (by simp))
  obtain ⟨ru, hru, hupdate⟩ := refers_tree (htree update (by simp))
  have ht : s₁.out.func.trees = s.out.func.body :: s.out.func.detached ++ P := by
    rw [h.trees, trees_eq]
  obtain ⟨q, f, hnew⟩ := newLoop_granted h.builds.draft ht (hgiven ▸ hperm) hid hcond hbody hupdate
  obtain ⟨st, after, hbuilds, htrees, hafter, hst⟩ := newLoop_builds h.builds.draft ht
    (hgiven ▸ hperm) (fun e he => (hid e he).id) hcond.id hbody.id hupdate.id hnew
  refine ⟨q, _, .loop q st cond body update after, edit_eq ?_, rfl,
    h.assemble hbuilds htrees (fun hl => ?_) (fun {t} htf hcode => ?_) hws.flatten hsts⟩
  · exact (Edit.bind_eq hrefs).trans <| (Edit.bind_eq hrc).trans <| (Edit.bind_eq hrb).trans <|
      (Edit.bind_eq hru).trans hnew
  · obtain ⟨hi, hcond, hbody, hupdate⟩ := hlangs _ hl
    have hstart : st.lang f.steps = Li := by
      rw [← hi, ← hgiven]
      rcases hst with hst | ⟨rfl, i, rfl⟩
      · rw [hst]
        rfl
      · rfl
    have hnil : ({f.steps after} : Language Step) = 1 := by
      rw [Func.steps_eq_told, hafter]
      rfl
    rw [lang, hstart, hcond, hbody, hupdate, hnil, mul_one]
  · have hnil : f.code after = [] := List.map_eq_nil_iff.mp hafter
    have hall := holds_blocksAll (hparts _ hcode)
    rw [htf] at hall
    have hblocks : (Component.loop q st cond body update after).blocks.flatMap f.code =
        (blocksAll (given.toList ++ [.block cond, body, update])).flatMap f.code := by
      have hstart : st.blocks = blocksAll given.toList := by
        rw [← hgiven]
        rcases hst with hst | ⟨rfl, i, rfl⟩
        · rw [hst, Option.toList_some, blocksAll_singleton]
        · rfl
      simp [Component.blocks, blocksAll_append, blocksAll, hstart, hnil]
    rw [hblocks]
    exact hall

/-! ## Conditions -/

theorem conditionStatement_run (hg : Good types s) (hb : (s.out.func.nodes.get? b).isSome)
    (st : Statement) : ∃ s', conditionStatement b st s = .ok ((), s') ∧ Does b st.reading s s' ∧
      Lands types b (st.direct (s.out.func.ended b)) ([st].filter Statement.isStructure) s s' ∧
      s'.out.func.ended b = st.endsRun types (s.out.func.ended b) := by
  have hinst : ∀ dest i, ∃ s', instruction b dest i s = .ok ((), s') ∧
      Does b {[i.step dest]} s s' ∧ Lands types b [⟨dest, i, s.out.func.ended b⟩] [] s s' ∧
      s'.out.func.ended b = (s.out.func.ended b || i.ends types dest) :=
    instruction_run hg.draft hg.knows hg.keyed hb
  have hrefused : ∀ p, ∃ s', conditionStatement.refused p s = .ok ((), s') ∧
      (∀ L, Does b L s s') ∧ Lands types b [] [st] s s' ∧
      s'.out.func.ended b = (s.out.func.ended b || false) := by
    intro p
    obtain ⟨s', hrun, hr⟩ := report_run s (d := .invalidInstruction
      "control flow is not allowed in a condition" (.ofPosition s.file p)) rfl
    refine ⟨s', (bind_eq (locate_eq _ _)).trans hrun, hr.does hg.draft (List.cons_ne_nil _ _) b,
      ⟨⟨[], by rw [hr.out, List.append_nil], .nil types s'⟩, _, hr.diagnostics,
        .stray ⟨by simp, hr.errors⟩⟩, ?_⟩
    rw [hr.out, Bool.or_false]
  cases st with
  | comment _ _ | declare _ _ _ =>
    refine ⟨s, rfl, ?_, .refl types b s, (Bool.or_false _).symm⟩
    rw [Statement.reading]
    exact .refl hg.draft b
  | assign _ dest i =>
    rw [Statement.reading]
    exact hinst (some dest) i
  | plain i =>
    rw [Statement.reading]
    exact hinst none i
  | branch start _ _ _ | select start _ _ | whileLoop start _ _ _ | forLoop start _ _ _ _ =>
    obtain ⟨s', hrun, hdoes, hrest⟩ := hrefused start
    exact ⟨s', hrun, hdoes _, hrest⟩
  | nested block =>
    obtain ⟨s', hrun, hdoes, hrest⟩ := hrefused block.start
    exact ⟨s', hrun, hdoes _, hrest⟩

theorem conditionStatements_run (sts : List Statement) : ∀ {s : State}, Good types s →
    (s.out.func.nodes.get? b).isSome → ∃ s', sts.forM (conditionStatement b) s = .ok ((), s') ∧
      Does b (readingAll sts) s s' ∧ Lands types b (heldAll types (s.out.func.ended b) sts)
        (sts.filter Statement.isStructure) s s' := by
  induction sts with
  | nil =>
    intro s hg hb
    refine ⟨s, rfl, ?_, .refl types b s⟩
    rw [readingAll]
    exact .refl hg.draft b
  | cons st sts ih =>
    intro s hg hb
    obtain ⟨s₁, h₁, hdoes, hlands, hended⟩ := conditionStatement_run hg hb st
    obtain ⟨s', h', hdoes', hlands'⟩ := ih (hg.extends hdoes.toExtends) (hdoes.builds.stored hb)
    refine ⟨s', (bind_eq (x := conditionStatement b st) h₁).trans h', ?_, ?_⟩
    · rw [readingAll]
      exact hdoes.trans hdoes'
    · rw [heldAll, ← hended, ← List.singleton_append, List.filter_append]
      exact hlands.trans hlands' hdoes'.toExtends

theorem ended_of_code_nil {f : Func} (h : f.code b = []) : f.ended b = false := by
  rw [Func.ended, Func.terminator?, show (f.blockAt b).instructions = [] from h]
  rfl

/-- A new block with the accepted instructions of a condition. -/
theorem condition_run (hg : Good types s) (label : String) (block : Syntax.Block) : ∃ b s',
    condition label block s = .ok (b, s') ∧
    Makes types [.block b] [block.reading] [block.held types] block.strays s s' := by
  obtain ⟨b, f, hrun⟩ := newBlock_granted hg.draft.unfrozen label
  obtain ⟨hbuilds, htrees, htold, hfresh, hstored⟩ := newBlock_builds hg.draft hrun
  have hext : Extends none s { s with out := { s.out with func := f } } := .of_builds hbuilds
  have hcode : f.code b = [] := List.map_eq_nil_iff.mp htold
  obtain ⟨s', hsts, hdoes, hlands⟩ := conditionStatements_run block.statements (hg.extends hext)
    hstored
  refine ⟨b, s', (bind_eq (edit_eq hrun)).trans ((bind_eq hsts).trans rfl), ?_, ?_, fun hc => ?_,
    .cons ?_ .nil, ?_⟩
  · refine hext.trans hdoes.toExtends fun c hc hs => ?_
    cases hc
    rw [hfresh] at hs
    cases hs
  · exact hdoes.trees.trans htrees
  · obtain ⟨hc₀, hsteps⟩ := hdoes.clean hc
    have hnil : ({f.steps b} : Language Step) = 1 := by
      rw [Func.steps, hcode]
      rfl
    refine ⟨hc₀, ?_⟩
    change {s'.out.func.steps b} = {f.steps b} * _ at hsteps
    rw [List.map_singleton, lang, hsteps, hnil, one_mul]
    cases block
    rfl
  · obtain ⟨is, his, hholds⟩ := hlands.code
    change s'.out.func.code b = f.code b ++ is at his
    rw [hcode, List.nil_append] at his
    rw [Component.blocks, List.flatMap_singleton, his]
    rwa [show f.ended b = false from ended_of_code_nil hcode] at hholds
  · obtain ⟨new, hnew, ha⟩ := hlands.accounts
    refine ⟨new, hnew, ?_⟩
    rw [List.flatten_singleton]
    rwa [show f.ended b = false from ended_of_code_nil hcode] at ha

end

/-! ## Filling a sequence -/

def lateOf (cur : Option NodeId) (s : State) : Bool := cur.any s.out.func.ended

/-- The elements `es` of the last tree `q` have become `es'`, which without a diagnostic allow the
steps `L` in addition. They have got the accepted ones of the instructions `ws`; the others and the
strays `sts` have been reported. The next instruction went into the block `cur` before, if there was
one, and goes into `cur'` now. -/
structure Fills (types : String → Option ValueType) (q : NodeId) (pre : List Component)
    (cur cur' : Option NodeId) (es es' : List Component) (L : Language Step) (ws : List Written)
    (sts : List Statement) (s s' : State) : Prop extends Extends cur s s' where
  trees : s'.out.func.trees = pre ++ [.seq q es']
  kept : ∃ new, es' = es ++ new
  last : ∀ b, cur' = some b →
    (∃ l, es' = l ++ [.block b]) ∧ ((s.out.func.nodes.get? b).isSome → cur = some b)
  clean : s'.diagnostics = [] → s.diagnostics = [] ∧
    langAll s'.out.func.steps es' = langAll s.out.func.steps es * L
  code : ∃ is, listing s'.out.func es' = listing s.out.func es ++ is ∧ Holds types s' is ws
  accounts : ∃ new, s'.diagnostics = s.diagnostics ++ new ∧ Accounts types ws sts new

/-- A sequence can be filled: it stands last among the trees, and the block for the next
instruction stands last in it. -/
structure Open (types : String → Option ValueType) (q : NodeId) (pre : List Component)
    (cur : Option NodeId) (es : List Component) (s : State) : Prop extends Good types s where
  trees : s.out.func.trees = pre ++ [.seq q es]
  last : ∀ b, cur = some b → ∃ l, es = l ++ [.block b]

section

variable {s s₁ s' : State} {q b : NodeId} {pre es es' es'' : List Component}
  {cur cur' cur'' : Option NodeId} {L M : Language Step} {ws ws' : List Written}
  {sts sts' : List Statement}

theorem Open.refl (h : Open types q pre cur es s) :
    Fills types q pre cur cur es es 1 [] [] s s where
  toExtends := .refl h.draft _
  trees := h.trees
  kept := ⟨[], (List.append_nil _).symm⟩
  last b hb := ⟨h.last b hb, fun _ => hb⟩
  clean hc := ⟨hc, (mul_one _).symm⟩
  code := ⟨[], (List.append_nil _).symm, .nil types s⟩
  accounts := ⟨[], (List.append_nil _).symm, .nil types⟩

theorem Fills.open (h : Fills types q pre cur cur' es es' L ws sts s s')
    (ho : Open types q pre cur es s) : Open types q pre cur' es' s' :=
  ⟨ho.toGood.extends h.toExtends, h.trees, fun b hb => (h.last b hb).1⟩

theorem Fills.trans (h : Fills types q pre cur cur' es es' L ws sts s s₁)
    (h' : Fills types q pre cur' cur'' es' es'' M ws' sts' s₁ s') :
    Fills types q pre cur cur'' es es'' (L * M) (ws ++ ws') (sts ++ sts') s s' where
  toExtends := h.toExtends.trans h'.toExtends fun b hb hs => (h.last b hb).2 hs
  trees := h'.trees
  kept := by
    obtain ⟨new, rfl⟩ := h.kept
    obtain ⟨new', rfl⟩ := h'.kept
    exact ⟨new ++ new', List.append_assoc _ _ _⟩
  last b hb := ⟨(h'.last b hb).1, fun hs =>
    (h.last b ((h'.last b hb).2 (h.builds.stored hs))).2 hs⟩
  clean hc := by
    obtain ⟨hc₁, hM⟩ := h'.clean hc
    obtain ⟨hc₀, hL⟩ := h.clean hc₁
    exact ⟨hc₀, by rw [hM, hL, mul_assoc]⟩
  code := by
    obtain ⟨is, hcode, hholds⟩ := h.code
    obtain ⟨is', hcode', hholds'⟩ := h'.code
    exact ⟨is ++ is', by rw [hcode', hcode, List.append_assoc],
      (h'.toExtends.holds hholds).append hholds'⟩
  accounts := by
    obtain ⟨new, hnew, ha⟩ := h.accounts
    obtain ⟨new', hnew', ha'⟩ := h'.accounts
    exact ⟨new ++ new', by rw [hnew', hnew, List.append_assoc], ha.append ha'⟩

/-- What has been built behind the sequence is put into it. -/
theorem appendTo_run {x : Component} (ho : Open types q pre cur es s)
    (h : Makes types [x] [L] [ws] sts s s₁)
    (hlast : ∀ b, cur' = some b → x = .block b ∧ (s.out.func.nodes.get? b).isSome = false) :
    ∃ s', appendTo q x.id s₁ = .ok ((), s') ∧
      Fills types q pre cur cur' es (es ++ [x]) L ws sts s s' ∧
      ∀ b, s'.out.func.code b = s₁.out.func.code b := by
  have hd := h.builds.draft
  have htrees : s₁.out.func.trees = pre ++ [.seq q es, x] := by
    rw [h.trees, ho.trees, List.append_assoc]
    rfl
  obtain ⟨ref, href, hrefers⟩ := refers_tree (show x ∈ s₁.out.func.trees by rw [htrees]; simp)
  obtain ⟨u, f, happ⟩ := appendElement_root_granted hd.unfrozen htrees hd.forest.nodup hrefers
  have hasm := appendElement_assembles htrees hd.forest.nodup hrefers.id happ
  have hdraft : f.Draft := by
    refine hasm.draft hd [] (List.Perm.subperm ?_) List.nodup_nil
      (fun i hi => absurd hi List.not_mem_nil) ?_
    · rw [htrees, List.append_nil]
      simp only [idsAll_append, idsAll, ids, List.append_nil]
      simp
    · intro b hb
      rw [htrees]
      simpa only [blocksAll_append, blocksAll, Component.blocks, List.append_nil] using hb
  have hbuilds := hasm.builds hdraft none
  have hext := h.toExtends.idle (.of_builds hbuilds)
  refine ⟨_, edit_eq ((Edit.bind_eq href).trans happ), ⟨hext.of_idle cur, hasm.trees, ⟨[x], rfl⟩,
    fun b hb => ?_, fun hc => ?_, ?_, ?_⟩, hasm.code⟩
  · obtain ⟨rfl, hnew⟩ := hlast b hb
    exact ⟨⟨es, rfl⟩, fun hs => by rw [hnew] at hs; cases hs⟩
  · obtain ⟨hc₀, hL⟩ := h.clean hc
    refine ⟨hc₀, ?_⟩
    have hmoved : x.lang f.steps = L := by
      rw [hbuilds.lang hd (by rw [htrees]; simp)]
      exact (List.cons.inj hL).1
    have hes : (Component.seq q es).lang f.steps = (Component.seq q es).lang s.out.func.steps := by
      rw [hbuilds.lang hd (by rw [htrees]; simp), h.builds.lang ho.draft (by rw [ho.trees]; simp)]
    rw [langAll_append, langAll, langAll, mul_one, hmoved]
    exact congrArg (· * L) hes
  · refine ⟨x.blocks.flatMap f.code, ?_, ?_⟩
    · rw [listing_append, listing, listing, blocksAll_singleton]
      congr 1
      refine List.flatMap_congr fun b hb => hext.builds.code (ho.draft.forest.stored b ?_)
        (Option.some_ne_none b).symm
      rw [ho.trees, blocksAll_append, blocksAll_singleton, Component.blocks]
      exact List.mem_append_right _ hb
    · have hlater := h.code_later (.of_builds hbuilds)
      cases hlater with
      | cons hx _ => exact hx
  · obtain ⟨new, hnew, ha⟩ := h.accounts
    rw [List.flatten_singleton] at ha
    exact ⟨new, hnew, ha⟩

theorem Open.not_mem {l : List Component} (ho : Open types q pre (some b) (l ++ [.block b]) s) :
    b ∉ blocksAll l := by
  have hn := ho.draft.forest.nodup
  rw [ho.trees, idsAll_append, idsAll_singleton, ids, idsAll_append, idsAll_singleton, ids] at hn
  have hn := (List.nodup_cons.mp hn.of_append_right).2
  exact fun hb => (List.nodup_append.mp hn).2.2 b (mem_idsAll_of_mem_blocksAll hb) b (by simp) rfl

/-- What is lowered into the current block stands behind all else in the sequence. -/
theorem Does.fills (ho : Open types q pre (some b) es s) (h : Does b L s s')
    (hl : Lands types b ws sts s s') :
    Fills types q pre (some b) (some b) es es L ws sts s s' := by
  obtain ⟨l, rfl⟩ := ho.last b rfl
  have hstored : ∀ c ∈ blocksAll l, (s.out.func.nodes.get? c).isSome := fun c hc => by
    refine ho.draft.forest.stored c ?_
    rw [ho.trees, blocksAll_append, blocksAll_singleton, Component.blocks, blocksAll_append]
    exact List.mem_append_right _ (List.mem_append_left _ hc)
  have hne : ∀ c ∈ blocksAll l, some b ≠ some c := by
    rintro c hc ⟨⟩
    exact ho.not_mem hc
  refine ⟨h.toExtends, h.trees.trans ho.trees, ⟨[], (List.append_nil _).symm⟩, fun c hc => ?_,
    fun hc => ?_, ?_, hl.accounts⟩
  · cases hc
    exact ⟨⟨l, rfl⟩, fun _ => rfl⟩
  · obtain ⟨hc₀, hL⟩ := h.clean hc
    refine ⟨hc₀, ?_⟩
    have hold : langAll s'.out.func.steps l = langAll s.out.func.steps l :=
      langAll_congr l fun c hc => h.builds.steps (hstored c hc) (hne c hc)
    simp only [langAll_append, langAll, lang, mul_one, hold, hL, mul_assoc]
  · obtain ⟨is, hcode, hholds⟩ := hl.code
    have hold : listing s'.out.func l = listing s.out.func l :=
      listing_congr fun c hc => h.builds.code (hstored c hc) (hne c hc)
    have hone : ∀ f : Func, listing f [.block b] = f.code b := fun f => by
      rw [listing, blocksAll_singleton, Component.blocks, List.flatMap_singleton]
    exact ⟨is, by rw [listing_append, listing_append, hold, hone, hone, hcode, List.append_assoc],
      hholds⟩

theorem Open.stored (ho : Open types q pre (some b) es s) : (s.out.func.nodes.get? b).isSome := by
  obtain ⟨l, rfl⟩ := ho.last b rfl
  refine ho.draft.forest.stored b ?_
  rw [ho.trees]
  simp [blocksAll_append, blocksAll, Component.blocks]

/-- A new block at the end of the sequence takes the next instruction. -/
theorem newBlock_run (ho : Open types q pre cur es s) (label : String) : ∃ b s₁ s',
    edit (Edit.newBlock label) s = .ok (b, s₁) ∧ s₁.out.func.body = s.out.func.body ∧
    appendTo q b s₁ = .ok ((), s') ∧
    Fills types q pre cur (some b) es (es ++ [.block b]) 1 [] [] s s' ∧
    s'.out.func.code b = [] := by
  obtain ⟨b, f, hrun⟩ := newBlock_granted ho.draft.unfrozen label
  obtain ⟨hbuilds, htrees, htold, hfresh, -⟩ := newBlock_builds ho.draft hrun
  have hcode : f.code b = [] := List.map_eq_nil_iff.mp htold
  have hmakes :
      Makes types [.block b] [1] [[]] [] s { s with out := { s.out with func := f } } := by
    refine ⟨.of_builds hbuilds, htrees, fun hc => ⟨hc, ?_⟩, .cons ?_ .nil, [],
      (List.append_nil _).symm, .nil types⟩
    · rw [List.map_singleton, lang, Func.steps_eq_told, htold]
      rfl
    · rw [Component.blocks, List.flatMap_singleton]
      change Holds types _ (f.code b) []
      rw [hcode]
      exact .nil types _
  obtain ⟨s', happ, hfills, hformed⟩ := appendTo_run ho hmakes
    fun c (hc : some b = some c) => by cases hc; exact ⟨rfl, hfresh⟩
  exact ⟨b, _, s', edit_eq hrun, (List.cons.inj htrees).1, happ, hfills, (hformed b).trans hcode⟩

/-- The block for the next instruction is the current one or a new one in the sequence. -/
theorem currentBlock_run (ho : Open types q pre cur es s) : ∃ b es' s',
    currentBlock q cur s = .ok (b, s') ∧ Fills types q pre cur (some b) es es' 1 [] [] s s' ∧
    s'.out.func.ended b = lateOf cur s := by
  cases cur with
  | some c => exact ⟨c, es, s, rfl, ho.refl, rfl⟩
  | none =>
    obtain ⟨b, s₁, s', hnew, -, happ, hfills, hcode⟩ := newBlock_run ho "bb"
    refine ⟨b, _, s', ?_, hfills, ended_of_code_nil hcode⟩
    exact (bind_eq hnew).trans ((bind_eq happ).trans rfl)

theorem instruction_fills (ho : Open types q pre cur es s) (dest : Option Name) (i : Syntax.Inst) :
    ∃ cur' es' s', (do
      let b ← currentBlock q cur
      instruction b dest i
      return some b : Lower (Option NodeId)) s = .ok (cur', s') ∧
    Fills types q pre cur cur' es es' {[i.step dest]} [⟨dest, i, lateOf cur s⟩] [] s s' ∧
    lateOf cur' s' = (lateOf cur s || i.ends types dest) := by
  obtain ⟨b, es', s₁, hcur, hf, hlate⟩ := currentBlock_run ho
  have ho₁ := hf.open ho
  obtain ⟨s', hinst, hdoes, hlands, hended⟩ := instruction_run ho₁.draft ho₁.knows ho₁.keyed
    ho₁.stored dest i
  rw [hlate] at hlands hended
  have hall := hf.trans (hdoes.fills ho₁ hlands)
  rw [one_mul] at hall
  exact ⟨some b, es', s', (bind_eq hcur).trans ((bind_eq hinst).trans rfl), hall, hended⟩

/-- What has been built for a statement is put into the sequence; the next instruction needs a
block of its own. -/
theorem structure_fills {build : Lower NodeId} {x : Component} {i : NodeId}
    (ho : Open types q pre cur es s) (hbuild : build s₁ = .ok (i, s')) (hi : x.id = i)
    (h : Makes types [x] [L] [ws] sts s s') :
    ∃ cur' es' s'', (do
      appendTo q (← build)
      return none : Lower (Option NodeId)) s₁ = .ok (cur', s'') ∧
    Fills types q pre cur cur' es es' L ws sts s s'' ∧ lateOf cur' s'' = false := by
  obtain ⟨s'', happ, hfills, -⟩ := appendTo_run ho h (nofun : ∀ b, none = some b → _)
  rw [hi] at happ
  exact ⟨none, _, s'', (bind_eq hbuild).trans ((bind_eq happ).trans rfl), hfills, rfl⟩

theorem langCases_eq (code : NodeId → List Step) {xs : List Component} :
    ∀ {bs : List Syntax.Block}, xs.map (lang code) = bs.map Block.reading →
      langCases code xs = readingCases bs := by
  induction xs with
  | nil =>
    intro bs h
    obtain rfl := List.map_eq_nil_iff.mp h.symm
    rw [langCases, readingCases]
  | cons x xs ih =>
    rintro (_ | ⟨b, bs⟩) h
    · cases h
    obtain ⟨hx, hxs⟩ := List.cons.inj h
    cases xs with
    | nil =>
      obtain rfl := List.map_eq_nil_iff.mp hxs.symm
      rw [langCases, readingCases, hx]
    | cons y xs =>
      cases bs with
      | nil => cases hxs
      | cons c bs => rw [langCases_cons, readingCases_cons, hx, ih hxs]

theorem flatten_written (bs : List Syntax.Block) :
    (bs.map (Block.written types)).flatten = writtenBlocks types bs := by
  induction bs with
  | nil => rw [writtenBlocks]; rfl
  | cons b bs ih => rw [writtenBlocks, ← ih]; rfl

theorem forall₂_swap {α β : Type} {R : α → β → Prop} {a a' : α} {b b' : β} {as : List α}
    {bs : List β} (h : List.Forall₂ R (a :: a' :: as) (b :: b' :: bs)) :
    List.Forall₂ R (a' :: a :: as) (b' :: b :: bs) := by
  obtain ⟨hab, h⟩ := List.forall₂_cons.mp h
  obtain ⟨hab', h⟩ := List.forall₂_cons.mp h
  exact .cons hab' (.cons hab h)

mutual
theorem statements_run : (sts : List Statement) → ∀ {q pre cur es s}, Open types q pre cur es s →
    ∃ cur' es' s', statements q cur sts s = .ok ((), s') ∧ Fills types q pre cur cur' es es'
      (readingAll sts) (writtenAll types (lateOf cur s) sts) (straysAll sts) s s'
  | [], q, pre, cur, es, s, ho => by
    rw [readingAll, writtenAll, straysAll, statements]
    exact ⟨cur, es, s, rfl, ho.refl⟩
  | st :: sts, q, pre, cur, es, s, ho => by
    obtain ⟨cur₁, es₁, s₁, h₁, hf₁, hlate⟩ := statement_run st ho
    obtain ⟨cur₂, es₂, s₂, h₂, hf₂⟩ := statements_run sts (hf₁.open ho)
    rw [hlate] at hf₂
    rw [readingAll, writtenAll, straysAll, statements]
    exact ⟨cur₂, es₂, s₂, (bind_eq h₁).trans h₂, hf₁.trans hf₂⟩

theorem statement_run : (st : Statement) → ∀ {q pre cur es s}, Open types q pre cur es s →
    ∃ cur' es' s', statement q cur st s = .ok (cur', s') ∧ Fills types q pre cur cur' es es'
      st.reading (st.written types (lateOf cur s)) st.strays s s' ∧
      lateOf cur' s' = st.lateAfter types (lateOf cur s)
  | .comment _ _, q, pre, cur, es, s, ho => by
    rw [Statement.reading, Statement.written, Statement.strays, statement]
    exact ⟨cur, es, s, rfl, ho.refl, (Bool.or_false _).symm⟩
  | .declare _ _ _, q, pre, cur, es, s, ho => by
    rw [Statement.reading, Statement.written, Statement.strays, statement]
    exact ⟨cur, es, s, rfl, ho.refl, (Bool.or_false _).symm⟩
  | .assign _ dest inst, q, pre, cur, es, s, ho => by
    rw [Statement.reading, Statement.written, Statement.strays, statement]
    exact instruction_fills ho (some dest) inst
  | .plain inst, q, pre, cur, es, s, ho => by
    rw [Statement.reading, Statement.written, Statement.strays, statement]
    exact instruction_fills ho none inst
  | .nested inner, q, pre, cur, es, s, ho => by
    obtain ⟨x, s₁, hrun, hmakes⟩ := sequence_run inner ho.toGood
    rw [Statement.reading, Statement.written, Statement.strays, statement]
    exact structure_fills ho hrun rfl hmakes
  | .branch _ cond yes no, q, pre, cur, es, s, ho => by
    obtain ⟨c, s₁, hc, hcond⟩ := condition_run ho.toGood "if" cond
    have hg₁ := ho.toGood.extends hcond.toExtends
    obtain ⟨xn, s₂, hno, hmno⟩ := optionalSequence_run no hg₁
    obtain ⟨xy, s₃, hyes, hmyes⟩ := sequence_run yes (hg₁.extends hmno.toExtends)
    have hl : ∀ code, [xn, xy].map (lang code) = [readingOptional no, yes.reading] →
        langCases code [xy, xn] = yes.reading + readingOptional no := fun code hl => by
      obtain ⟨hxn, hl⟩ := List.cons.inj hl
      rw [langCases_cons, langCases, hxn, (List.cons.inj hl).1]
    obtain ⟨f, s₄, hfork, hmakes⟩ := fork_run [xy, xn] (hcond.cons (hmno.cons hmyes)) (.swap _ _ _)
      hl (fun R hR => forall₂_swap hR) (.swap _ _ _)
      (List.Perm.append_left _ List.perm_append_comm)
    simp only [List.flatten_cons, List.flatten_nil, List.append_nil] at hmakes
    rw [Statement.reading, Statement.written, Statement.strays, statement, bind_eq hc, bind_eq hno,
      bind_eq hyes]
    exact structure_fills ho hfork rfl hmakes
  | .select _ cond cases, q, pre, cur, es, s, ho => by
    obtain ⟨c, s₁, hc, hcond⟩ := condition_run ho.toGood "switch" cond
    obtain ⟨xs, s₂, hcases, hmcases⟩ := sequences_run cases (ho.toGood.extends hcond.toExtends)
    obtain ⟨f, s₃, hfork, hmakes⟩ := fork_run xs (hcond.cons hmcases) (.refl _)
      (fun code hl => langCases_eq code hl) (fun R hR => hR) (.refl _) (.refl _)
    rw [flatten_written] at hmakes
    rw [Statement.reading, Statement.written, Statement.strays, statement, bind_eq hc,
      bind_eq hcases]
    exact structure_fills ho hfork rfl hmakes
  | .whileLoop _ cond body advance, q, pre, cur, es, s, ho => by
    obtain ⟨c, s₁, hc, hcond⟩ := condition_run ho.toGood "loop_cond" cond
    have hg₁ := ho.toGood.extends hcond.toExtends
    obtain ⟨xb, s₂, hbody, hmbody⟩ := sequence_run body hg₁
    obtain ⟨xa, s₃, hadv, hmadv⟩ := optionalSequence_run advance (hg₁.extends hmbody.toExtends)
    obtain ⟨f, s₄, x, hloop, rfl, hmakes⟩ :=
        loop_run none (hcond.cons (hmbody.cons hmadv)) (.refl _)
      (fun code hl => by
        obtain ⟨hc, hl⟩ := List.cons.inj hl
        obtain ⟨hb, hl⟩ := List.cons.inj hl
        exact ⟨rfl, hc, hb, (List.cons.inj hl).1⟩) (fun R hR => hR) (.refl _) (.refl _)
    rw [Statement.reading, Statement.written, Statement.strays, statement, bind_eq hc,
      bind_eq hbody, bind_eq hadv, ← one_mul (_ * _)]
    simp only [List.flatten_cons, List.flatten_nil, List.append_nil] at hmakes
    exact structure_fills ho hloop rfl hmakes
  | .forLoop _ init cond body advance, q, pre, cur, es, s, ho => by
    obtain ⟨c, s₁, hc, hcond⟩ := condition_run ho.toGood "loop_cond" cond
    have hg₁ := ho.toGood.extends hcond.toExtends
    obtain ⟨xi, s₂, hinit, hminit⟩ := sequence_run init hg₁
    have hg₂ := hg₁.extends hminit.toExtends
    obtain ⟨xb, s₃, hbody, hmbody⟩ := sequence_run body hg₂
    obtain ⟨xa, s₄, hadv, hmadv⟩ := sequence_run advance (hg₂.extends hmbody.toExtends)
    obtain ⟨f, s₅, x, hloop, rfl, hmakes⟩ := loop_run (some xi)
      (hcond.cons (hminit.cons (hmbody.cons hmadv))) (.swap _ _ _)
      (fun code hl => by
        obtain ⟨hc, hl⟩ := List.cons.inj hl
        obtain ⟨hi, hl⟩ := List.cons.inj hl
        obtain ⟨hb, hl⟩ := List.cons.inj hl
        exact ⟨hi, hc, hb, (List.cons.inj hl).1⟩)
      (fun R hR => forall₂_swap hR) (.swap _ _ _) (List.perm_append_comm_assoc _ _ _)
    rw [Statement.reading, Statement.written, Statement.strays, statement, bind_eq hc,
      bind_eq hinit, bind_eq hbody, bind_eq hadv]
    simp only [List.flatten_cons, List.flatten_nil, List.append_nil] at hmakes
    exact structure_fills ho hloop rfl hmakes

theorem sequence_run : (b : Syntax.Block) → ∀ {s}, Good types s → ∃ x s',
    sequence b s = .ok (x.id, s') ∧
    Makes types [x] [b.reading] [b.written types] b.straysWithin s s'
  | .mk _ _ body, s, hg => by
    obtain ⟨q, s₁, hnew, hmakes⟩ := newSequence_run hg
    have ho : Open types q s.out.func.trees none [] s₁ :=
      ⟨hg.extends hmakes.toExtends, hmakes.trees, nofun⟩
    obtain ⟨cur, es, s₂, hbody, hf⟩ := statements_run body ho
    rw [Block.reading, Block.written, Block.straysWithin, sequence]
    refine ⟨.seq q es, s₂, (bind_eq hnew).trans ((bind_eq hbody).trans rfl),
      hmakes.toExtends.trans hf.toExtends nofun, hf.trees, fun hc => ?_, .cons ?_ .nil, ?_⟩
    · obtain ⟨hc₁, hL⟩ := hf.clean hc
      refine ⟨(hmakes.clean hc₁).1, ?_⟩
      rw [List.map_singleton, lang, hL, langAll, one_mul]
    · obtain ⟨is, hcode, hholds⟩ := hf.code
      rw [listing, listing, blocksAll, List.flatMap_nil, List.nil_append] at hcode
      rw [Component.blocks, hcode]
      exact hholds
    · obtain ⟨new, hnew, ha⟩ := hf.accounts
      obtain ⟨new', hnew', ha'⟩ := hmakes.accounts
      refine ⟨new' ++ new, by rw [hnew, hnew', List.append_assoc], ?_⟩
      rw [List.flatten_singleton]
      exact ha'.append ha

theorem optionalSequence_run : (b : Option Syntax.Block) → ∀ {s}, Good types s → ∃ x s',
    optionalSequence b s = .ok (x.id, s') ∧
    Makes types [x] [readingOptional b] [writtenOptional types b] (straysOptional b) s s'
  | none, s, hg => by
    obtain ⟨q, s', hrun, hmakes⟩ := newSequence_run hg
    rw [readingOptional, writtenOptional, straysOptional, optionalSequence]
    exact ⟨.seq q [], s', hrun, hmakes⟩
  | some b, s, hg => by
    rw [readingOptional, writtenOptional, straysOptional, optionalSequence]
    exact sequence_run b hg

theorem sequences_run : (bs : List Syntax.Block) → ∀ {s}, Good types s → ∃ xs s',
    sequences bs s = .ok (xs.map Component.id, s') ∧
    Makes types xs (bs.map Block.reading) (bs.map (Block.written types)) (straysBlocks bs) s s'
  | [], s, hg => by
    rw [sequences, straysBlocks]
    exact ⟨[], s, rfl, .nothing hg.draft⟩
  | b :: bs, s, hg => by
    obtain ⟨x, s₁, hx, hm⟩ := sequence_run b hg
    obtain ⟨xs, s₂, hxs, hms⟩ := sequences_run bs (hg.extends hm.toExtends)
    rw [sequences, straysBlocks]
    exact ⟨x :: xs, s₂, (bind_eq hx).trans ((bind_eq hxs).trans rfl), hm.cons hms⟩
end

end

end DefFlow.Lowering
