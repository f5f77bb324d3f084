import DefFlow.Editor.Hover
import DefFlow.Proofs.Compile.Build
import DefFlow.Proofs.Resolution.Roots
import DefFlow.Proofs.State.Ledger
import DefFlow.Proofs.Verification.Frozen

/-!
# Asking a compilation

A hover may build joins in a function that has not been frozen, and a frozen function remembers
the answers that it gave. Main statement: neither changes what any later hover shows.
-/

set_option autoImplicit false

namespace DefFlow.Flow

open Func

/-! ## Questions asked before -/

/-- What arrives depends only on the blocks that are seen. -/
theorem arrives_of_seen {preds : NodeId → List NodeId} {opq wide wide' : NodeId → Prop}
    {x y : NodeId} {a : Option NodeId} (hopq : ∀ {p}, opq p → wide p)
    (hsame : ∀ {y p}, Sees preds opq x y → p ∈ preds y → (wide p ↔ wide' p))
    (hy : Sees preds opq x y) (h : Arrives preds wide y a) : Arrives preds wide' y a := by
  induction h with
  | start hp => exact .start hp
  | leaves hp ho => exact .leaves hp ((hsame hy hp).mp ho)
  | passes hp ho _ ih =>
    exact .passes hp (fun hn => ho ((hsame hy hp).mpr hn)) (ih (hy.step hp fun hn => ho (hopq hn)))

section

variable {f g g' : Func} {Q Q' : NodeId → VarId → Prop} {b c : NodeId} {v : VarId}

namespace Asked

/-- Once a question has been asked, the needed joins that it sees are there. -/
theorem joinNodes_iff (h : Asked f Q g) (hQ : Q b v) (hs : Sees f.preds (f.Defining v) b c) :
    g.joinNodes c v ≠ [] ↔ f.joinNodes c v ≠ [] ∨ f.Needed v c := by
  rw [h.joined]
  exact or_congr_right (and_iff_left ⟨b, hQ, hs⟩)

theorem decides_iff (h : Asked f Q g) (h' : Asked f Q' g') (hQ : Q b v) (hQ' : Q' b v)
    (hs : Sees f.preds (f.Defining v) b c) {p : NodeId} (hp : p ∈ f.preds c) :
    g.Decides v p ↔ g'.Decides v p := by
  rw [h.refines.tables.decides_iff, h'.refines.tables.decides_iff, h.refines.defining,
    h'.refines.defining]
  by_cases hd : f.Defining v p
  · exact iff_of_true (.inl hd) (.inl hd)
  · rw [h.joinNodes_iff hQ (hs.step hp hd), h'.joinNodes_iff hQ' (hs.step hp hd)]

theorem arrives (h : Asked f Q g) (h' : Asked f Q' g') (hQ : Q b v) (hQ' : Q' b v)
    {a : Option NodeId} (ha : Arrives g.preds (g.Decides v) b a) :
    Arrives g'.preds (g'.Decides v) b a := by
  rw [h.refines.keeps.preds] at ha
  rw [h'.refines.keeps.preds]
  have hsame : ∀ {y p}, Sees f.preds (f.Defining v) b y → p ∈ f.preds y →
      (g.Decides v p ↔ g'.Decides v p) := fun hs hp => h.decides_iff h' hQ hQ' hs hp
  refine arrives_of_seen (fun hp => ?_) hsame .refl ha
  rw [h.refines.tables.decides_iff, h.refines.defining]
  exact .inl hp

/-- Other questions asked before do not change what an answer says. -/
theorem sight_of_shows (h : Asked f Q g) (h' : Asked f Q' g') (hQ : Q b v) (hQ' : Q' b v)
    {r r' : Resolution} (hr : g.Shows v b r) (hr' : g'.Shows v b r') :
    g'.sight r' = g.sight r := by
  have hj : g'.joinNodes b v ≠ [] ↔ g.joinNodes b v ≠ [] :=
    (h'.joinNodes_iff hQ' .refl).trans (h.joinNodes_iff hQ .refl).symm
  rcases h.refines.tables.sight_of_shows hr with ⟨hne, he⟩ | ⟨hn, a, ha, he⟩
  · rcases h'.refines.tables.sight_of_shows hr' with ⟨-, he'⟩ | ⟨hn', -⟩
    · rw [he, he']
    · exact absurd hn' (hj.mpr hne)
  · rcases h'.refines.tables.sight_of_shows hr' with ⟨hne', -⟩ | ⟨-, a', ha', he'⟩
    · exact absurd hn (hj.mp hne')
    · obtain rfl : a' = a := (ha a').mp (h'.arrives h hQ' hQ ((ha' a').mpr rfl))
      have hlast : g'.lastDef v = g.lastDef v := by
        funext c
        rw [Func.lastDef, Func.lastDef, h'.refines.locals, h.refines.locals]
      rw [he, he', sightFrom.eq_def, sightFrom.eq_def, hlast]

end Asked

/-! ## Frozen functions -/

structure Func.Recollects (f g : Func) : Prop where
  rest : f.UpToMemo g
  memo : ∀ q, g.memo.lookup q = f.memo.lookup q ∨
    (f.memo.lookup q = none ∧ ∃ s, f.solve q.block q.var = .ok s ∧ g.memo.lookup q = some s)

theorem Func.Recollects.refl (f : Func) : f.Recollects f := ⟨rfl, fun _ => .inl rfl⟩

/-- A frozen function has an answer to every question about its blocks. -/
theorem Func.Answerable.answers (h : f.Answerable) (hb : b ∈ f.blocks) (v : VarId) :
    f.resolvable b = .ok () ∧ ∃ s r, s.resolution f = .ok r ∧
      (f.memo.lookup ⟨b, v, false⟩ =
          some s ∨ (f.memo.lookup ⟨b, v, false⟩ = none ∧ f.solve b v = .ok s)) := by
  have G := h.forest.graph h.enters
  obtain ⟨s, hs, hsol⟩ := solve_ok (v := v) G hb
  obtain ⟨r, hr, -⟩ := hsol.sight G h.tables hb
  refine ⟨by rw [Func.resolvable, if_pos (h.forest.hasParent hb)], ?_⟩
  cases hm : f.memo.lookup ⟨b, v, false⟩ with
  | none => exact ⟨s, r, hr, .inr ⟨rfl, hs⟩⟩
  | some s' =>
    rcases h.memo hm hb with ⟨r', hr', -⟩ | ⟨-, hs'⟩
    · exact ⟨s', r', hr', .inl rfl⟩
    · cases hs.symm.trans hs'
      exact ⟨s, r, hr, .inl rfl⟩

/-- An answer that is found is remembered, so that it is the same the next time. -/
theorem Func.Recollects.stackAt (h : f.Recollects g) (hf : f.frozen = true)
    (hres : f.resolvable b = .ok ()) {s : Stack} (hs : f.memo.lookup ⟨b, v, false⟩ = some s ∨
      (f.memo.lookup ⟨b, v, false⟩ = none ∧ f.solve b v = .ok s)) :
    ∃ m, Edit.stackAt b v g = .ok s { f with memo := m } ∧ f.Recollects { f with memo := m } := by
  obtain ⟨m, rfl⟩ : ∃ m, g = { f with memo := m } := ⟨g.memo, h.rest⟩
  have hcases : m.lookup ⟨b, v, false⟩ = some s ∨
      (f.memo.lookup ⟨b, v, false⟩ = none ∧ f.solve b v = .ok s ∧
          m.lookup ⟨b, v, false⟩ = none) := by
    rcases h.memo ⟨b, v, false⟩, hs with ⟨he | ⟨hnone, s', hs', he⟩, hm | ⟨hm, hs⟩⟩
    · exact .inl (he.trans hm)
    · exact .inr ⟨hm, hs, he.trans hm⟩
    · rw [hm] at hnone
      cases hnone
    · cases hs'.symm.trans hs
      exact .inl he
  rcases hcases with hm | ⟨hnone, hs, hm⟩
  · exact ⟨m, Edit.stackAt_of_memo hres hm, h⟩
  · refine ⟨(⟨b, v, false⟩, s) :: m, Edit.stackAt_of_solve hres hf hm
        ((solve_memo f m b v).trans hs), rfl,
      fun q => ?_⟩
    by_cases hq : q = ⟨b, v, false⟩
    · subst hq
      exact .inr ⟨hnone, s, hs, List.lookup_cons_self⟩
    · rw [lookup_cons_of_ne hq]
      exact h.memo q

theorem Func.Recollects.reachingDef (h : f.Recollects g) (hi : f.Answerable) (hf : f.frozen = true)
    (hb : b ∈ f.blocks) {u : UseSite} (hu : f.UsedAt b v u) :
    ∃ r m m', Edit.reachingDef u f = .ok r { f with memo := m } ∧
      Edit.reachingDef u g = .ok r { f with memo := m' } ∧ f.Recollects { f with memo := m' } := by
  obtain ⟨m, rfl⟩ : ∃ m, g = { f with memo := m } := ⟨g.memo, h.rest⟩
  have hu' : ({ f with memo := m } : Func).UsedAt b v u := ⟨hu.block, hu.operand⟩
  cases ho : f.observed? u with
  | some i =>
    exact ⟨_, _, _, reachingDef_of_observed hu ho, reachingDef_of_observed hu' ho, h⟩
  | none =>
    obtain ⟨hres, s, r, hr, hs⟩ := hi.answers hb v
    obtain ⟨m₁, hrun, -⟩ := (Recollects.refl f).stackAt hf hres hs
    obtain ⟨m₂, hrun', hg⟩ := h.stackAt hf hres hs
    -- what is remembered has no bearing on what a value means
    have hr₁ : s.resolution { f with memo := m₁ } = .ok r := hr
    have hr₂ : s.resolution { f with memo := m₂ } = .ok r := hr
    exact ⟨Edit.reachingOf f r, m₁, m₂, reachingDef_eq hu (resolveAt_of_stackAt hrun hr₁) ho,
      reachingDef_eq hu' (resolveAt_of_stackAt hrun' hr₂) ho, hg⟩

/-! ## Functions that are not frozen -/

theorem Func.Tables.join_of_shows (ht : f.Tables) {r : Resolution} (h : f.Shows v b r)
    {t : TimelineId} (hr : Edit.reachingOf f r = .join t) :
    ∃ c, f.timelineId? c v = some t ∧ f.joinNodes c v ≠ [] := by
  cases r with
  | undefined => cases hr
  | join _ => cases hr
  | top t' =>
    obtain rfl : t' = t := Reaching.join.inj hr
    obtain ⟨c, hc⟩ : ∃ c, f.joined? c v = some t' := by
      rcases h with hj | ⟨-, c, hj, -⟩
      · exact ⟨b, hj⟩
      · exact ⟨c, hj⟩
    exact ⟨c, (ht.joinNodes_of_joined? hc).symm⟩
  | timeline t' =>
    obtain ⟨-, c, hc, -⟩ := h
    obtain rfl : t = t' := leaving_join hr
    have hid := timelineId?_of_explicit? hc
    refine ⟨c, hid, ?_⟩
    have hdecides : f.Decides v c := by rw [Decides, hc]; rfl
    refine (ht.decides_iff.mp hdecides).resolve_left fun hd => ?_
    obtain ⟨i, -, hleaving⟩ := ht.leaving_of_defining hid hd
    rw [Edit.reachingOf, hleaving] at hr
    cases hr

/-- What a use observes does not depend on the questions that have been asked before. -/
theorem Asked.reachingDef_alike (h : Asked f Q g) (h' : Asked f Q' g') (hf : f.Forest)
    (hb : b ∈ f.blocks) {u : UseSite} (hu : f.UsedAt b v u) : ∃ r k P r' k' P',
      Edit.reachingDef u g = .ok r k ∧ Edit.reachingDef u g' = .ok r' k' ∧
      Asked f P k ∧ Asked f P' k' ∧ k'.sightOf r' = k.sightOf r ∧
      (∀ t, r = .join t → ∃ c, k.timelineId? c v = some t ∧ k.joinNodes c v ≠ []) ∧
      ∀ t, r' = .join t → ∃ c, k'.timelineId? c v = some t ∧ k'.joinNodes c v ≠ [] := by
  have hsame : g'.observed? u = g.observed? u :=
    (h'.refines.keeps.observed? h'.refines.held u).trans
      (h.refines.keeps.observed? h.refines.held u).symm
  cases hi : g.observed? u with
  | some i =>
    exact ⟨_, g, Q, _, g', Q', reachingDef_of_observed (h.used hu) hi,
      reachingDef_of_observed (h'.used hu) (hsame.trans hi), h, h', rfl, nofun, nofun⟩
  | none =>
    obtain ⟨s, k, hrun, hk, -, r, hr, hsh⟩ := h.ask hf hb v
    obtain ⟨s', k', hrun', hk', -, r', hr', hsh'⟩ := h'.ask hf hb v
    have hsight := hk.sight_of_shows hk' (.inr ⟨rfl, rfl⟩) (.inr ⟨rfl, rfl⟩) hsh hsh'
    refine ⟨_, k, _, _, k', _, reachingDef_eq (h.used hu) (resolveAt_of_stackAt hrun hr) hi,
      reachingDef_eq (h'.used hu) (resolveAt_of_stackAt hrun' hr') (hsame.trans hi), hk, hk', ?_,
      fun t => hk.refines.tables.join_of_shows hsh, fun t => hk'.refines.tables.join_of_shows hsh'⟩
    cases r with
    | join _ => exact hsh.elim
    | _ => cases r' with
      | join _ => exact hsh'.elim
      | _ => exact hsight

end

end DefFlow.Flow

namespace DefFlow.Editor

open DefFlow.Flow DefFlow.Flow.Func DefFlow.Lowering

def Ready (l : Lowered) : Prop := ∃ g : Func, g.CanonicalJoins ∧ l.func =
    { g with frozen := l.func.frozen }

structure Consulted (l l' : Lowered) : Prop where
  rest : l' = { l with func := l'.func }
  func : (l.func.frozen = true ∧ l.func.Recollects l'.func) ∨ ∃ Q, Asked l.func Q l'.func

section

variable {l l' : Lowered} {g : Func}

theorem Ready.answerable (h : Ready l) : l.func.Answerable := by
  obtain ⟨g, hg, heq⟩ := h
  have hi := hg.sound.answerable
  have hview : SameView g { g with frozen := l.func.frozen } :=
    ⟨rfl, rfl, fun _ _ => rfl, fun _ _ => rfl, fun _ _ => rfl⟩
  rw [heq]
  refine ⟨⟨hi.forest.held, hi.forest.nodup, hi.forest.bounded, hi.forest.stored⟩, hi.enters,
    ⟨hi.tables.placed, hi.tables.listed, hi.tables.sorted, hi.tables.owner, hi.tables.node,
      hi.tables.nodes_nodup, hi.tables.target, hi.tables.referrer, hi.tables.referrers_nodup⟩,
    ⟨hi.scheduled.place, hi.scheduled.home, hi.scheduled.phis, hi.scheduled.locals⟩, ?_⟩
  intro b v s hs hb
  obtain ⟨r, hr, hsh⟩ := hg.sound.nodesFresh.searchable.memo hs hb
  exact .inl ⟨r, hview.resolution hr, hview.shows hsh⟩

theorem Ready.canonicalJoins (h : Ready l) (hf : l.func.frozen = false) :
    l.func.CanonicalJoins := by
  obtain ⟨g, hg, heq⟩ := h
  have hsame : ({ g with frozen := l.func.frozen } : Func) = g := by
    rw [hf, ← hg.sound.nodesFresh.searchable.unfrozen]
  rw [heq, hsame]
  exact hg

theorem Ready.consulted (h : Ready l) : Consulted l l := by
  refine ⟨rfl, ?_⟩
  cases hf : l.func.frozen with
  | true => exact .inl ⟨rfl, .refl _⟩
  | false => exact .inr ⟨_, .nothing (h.canonicalJoins hf).sound (h.canonicalJoins hf).thrifty⟩

theorem Consulted.keeps (h : Consulted l l') : Keeps l.func l'.func := by
  rcases h.func with ⟨-, hr⟩ | ⟨Q, hq⟩
  · obtain ⟨m, hm⟩ : ∃ m, l'.func = { l.func with memo := m } := ⟨_, hr.rest⟩
    rw [hm]
    exact ⟨⟨rfl, rfl, rfl, rfl, rfl, rfl, fun _ => rfl⟩, rfl, rfl, rfl, rfl, rfl, fun _ => rfl,
      fun _ => rfl, fun _ => rfl⟩
  · exact hq.refines.keeps

/-! ## Written names -/

theorem ofInst_eq (h : Keeps l.func g) (i : InstId) :
    Spot.ofInst { l with func := g } i = Spot.ofInst l i := by
  rw [Spot.ofInst, Spot.ofInst, Spot.ofDest, Spot.ofDest, usesOf, usesOf, h.inst]
  rfl

theorem all_eq (h : Keeps l.func g) : Spot.all { l with func := g } = Spot.all l := by
  simp only [Spot.all, funext (ofInst_eq h), h.blocks, h.instructions]

theorem covers_eq (h : Keeps l.func g) (line column : Nat) :
    Spot.covers { l with func := g } line column = Spot.covers l line column := by
  funext s
  rw [Spot.covers, Spot.covers, Spot.name, Spot.name, h.varAt]

theorem header_eq (h : Keeps l.func g) (s : Spot) :
    s.header { l with func := g } = s.header l := by
  simp only [Spot.header, Spot.name, h.varAt]

theorem range_eq (h : Keeps l.func g) (s : Spot) : s.range { l with func := g } = s.range l := by
  simp only [Spot.range, Spot.name, h.varAt]

theorem usedAt_of_mem (h : l.func.Scheduled) {u : UseSite} {v : VarId} {p : Location}
    (hs : .use u v p ∈ Spot.all l) : ∃ b ∈ l.func.blocks, l.func.UsedAt b v u := by
  obtain ⟨b, hb, hs⟩ := List.mem_flatMap.mp hs
  obtain ⟨i, hi, hs⟩ := List.mem_flatMap.mp hs
  refine ⟨b, hb, ?_⟩
  rcases List.mem_append.mp hs with hs | hs
  · obtain ⟨⟨u', v'⟩, hu, hs⟩ := List.mem_filterMap.mp hs
    obtain ⟨q, -, heq⟩ := Option.map_eq_some_iff.mp hs
    cases heq
    obtain ⟨rfl, hop⟩ := mem_usesOf.mp hu
    obtain ⟨k, hk⟩ := List.mem_iff_getElem?.mp hi
    obtain ⟨x, hx, hxb, -⟩ := h.place hk
    exact ⟨by rw [Func.inst, hx]; exact hxb, hop⟩
  · rw [Option.mem_toList, Spot.ofDest] at hs
    split at hs
    · cases hs
    · obtain ⟨d, -, hs⟩ := Option.bind_eq_some_iff.mp hs
      obtain ⟨q, -, hs⟩ := Option.bind_eq_some_iff.mp hs
      cases hs

/-! ## What is told about them -/

def sightTold (l : Lowered) : Sight → String
  | .nothing => "no definition reaches this use"
  | .definition i =>
    let place := (l.instAt.lookup i).map fun p => s!" at {p.line}:{p.column}"
    "reached by " ++ l.func.destText i ++ place.getD ""
  | .join b =>
    "reached by a join in " ++ l.func.label b ++ " from " ++
      ", ".intercalate ((l.func.preds b).map l.func.label)
  | .unbuilt _ => ""

/-- The joins of a function with ordered nodes are told by their blocks. -/
theorem describeReaching_eq (hk : Keeps l.func g) (ht : g.Tables) (ho : g.Ordered) {r : Reaching}
    {v : VarId} (hr : ∀ t, r = .join t → ∃ c, g.timelineId? c v = some t ∧ g.joinNodes c v ≠ []) :
    describeReaching { l with func := g } r = sightTold l (g.sightOf r) := by
  cases r with
  | undefined => rfl
  | defined i =>
    show _ ++ g.destText i ++ _ = _
    rw [hk.destText]
    rfl
  | join t =>
    obtain ⟨c, hid, hne⟩ := hr t rfl
    have hlabel : ∀ b, g.label b = l.func.label b := hk.label
    have hpreds : (g.timelineAt t).incoming.map (fun n => g.label (g.incomingAt n).pred) =
        (l.func.preds c).map l.func.label := by
      rw [← ht.joinNodes_eq hid, ← hk.preds, ← ho hne, feeds, List.map_map, List.map_map]
      exact List.map_congr_left fun n _ => hlabel _
    show "reached by a join in " ++ g.label (g.timelineAt t).block ++ " from " ++
      ", ".intercalate ((g.timelineAt t).incoming.map fun n => g.label (g.incomingAt n).pred) = _
    rw [hpreds, hlabel, ht.block_eq hid, sightOf, ht.block_eq hid]
    rfl

/-- A hover shows the same before and after other hovers. -/
theorem Consulted.describe (h : Consulted l l') (hl : Ready l) {s : Spot}
    (hs : s ∈ Spot.all l) : ∃ text k k', s.describe l = .ok (text, k) ∧
      s.describe l' = .ok (text, k') ∧ Consulted l k' := by
  rw [h.rest]
  cases s with
  | dest d p =>
    refine ⟨"defines " ++ l.func.defText d, l, { l with func := l'.func }, rfl, ?_, h.rest ▸ h⟩
    rw [Spot.describe, h.keeps.defText]
  | use u v p =>
    have hi := hl.answerable
    obtain ⟨b, hb, hu⟩ := usedAt_of_mem hi.scheduled hs
    rcases h.func with ⟨hf, hr⟩ | ⟨Q, hq⟩
    · obtain ⟨r, m, m', hrun, hrun', hr'⟩ := hr.reachingDef hi hf hb hu
      refine ⟨describeReaching l r, { l with func := { l.func with memo := m } },
        { l with func := { l.func with memo := m' } }, ?_, ?_, rfl, .inl ⟨hf, hr'⟩⟩
      · simp only [Spot.describe, EStateM.run, hrun]
        rfl
      · simp only [Spot.describe, EStateM.run, hrun']
        rfl
    · have hcanonical := hl.canonicalJoins (hq.refines.keeps.frozen.symm.trans
          hq.sound.nodesFresh.searchable.unfrozen)
      have htold : ∀ {k P r}, Asked l.func P k →
          (∀ t, r = .join t → ∃ c, k.timelineId? c v = some t ∧ k.joinNodes c v ≠ []) →
          describeReaching { l with func := k } r = sightTold l (k.sightOf r) := fun hk hr =>
        describeReaching_eq hk.refines.keeps hk.refines.tables
          (hk.refines.ordered hi.tables hcanonical.ordered) hr
      obtain ⟨r, k, P, r', k', P', hrun, hrun', hk, hk', hsight, hr, hr'⟩ :=
        (Asked.nothing hcanonical.sound hcanonical.thrifty).reachingDef_alike hq hi.forest hb hu
      refine ⟨sightTold l (k.sightOf r), { l with func := k }, { l with func := k' }, ?_, ?_, rfl,
        .inr ⟨P', hk'⟩⟩
      · simp only [Spot.describe, EStateM.run, hrun, htold hk hr]
      · simp only [Spot.describe, EStateM.run, hrun', htold hk' hr', hsight]

/-! ## Compilations -/

/-- Looking a place up tells the same before and after other hovers. -/
theorem hoverIn_alike {fs gs : List Lowered} (h : List.Forall₂ Consulted fs gs)
    (hfs : ∀ l ∈ fs, Ready l) (line column : Nat) : ∃ found ks ks',
      hoverIn line column fs = .ok (found, ks) ∧ hoverIn line column gs = .ok (found, ks') ∧
      List.Forall₂ Consulted fs ks' := by
  induction h with
  | nil => exact ⟨none, [], [], rfl, rfl, .nil⟩
  | @cons l l' fs gs hl hrest ih =>
    have hkeeps := hl.keeps
    obtain ⟨hready, hfs⟩ := List.forall_mem_cons.mp hfs
    have hfind : (Spot.all l').find? (Spot.covers l' line column) =
        (Spot.all l).find? (Spot.covers l line column) := by
      rw [hl.rest, all_eq hkeeps, covers_eq hkeeps]
    cases hspot : (Spot.all l).find? (Spot.covers l line column) with
    | none =>
      obtain ⟨found, ks, ks', hrun, hrun', hks⟩ := ih hfs
      refine ⟨found, l :: ks, l' :: ks', ?_, ?_, .cons hl hks⟩
      · rw [hoverIn, hspot]
        simp only [hrun]
        rfl
      · rw [hoverIn, hfind, hspot]
        simp only [hrun']
        rfl
    | some s =>
      obtain ⟨text, k, k', hrun, hrun', hk⟩ := hl.describe hready (List.mem_of_find?_eq_some hspot)
      refine ⟨some ⟨s.header l ++ text, s.range l⟩, k :: fs, k' :: gs, ?_, ?_, .cons hk hrest⟩
      · rw [hoverIn, hspot]
        simp only [hrun]
        rfl
      · rw [hoverIn, hfind, hspot]
        simp only [hrun']
        rw [hl.rest, header_eq hkeeps, range_eq hkeeps]
        rfl

def Complete (c : Compilation) : Prop := ∀ m, c.module = some m → ∀ l ∈ m.functions, Ready l

inductive Hovered : Compilation → Compilation → Prop
  | text {c : Compilation} (h : c.module = none) : Hovered c c
  | functions {c : Compilation} {m : Module} {fs : List Lowered} (h : c.module = some m)
      (hfs : List.Forall₂ Consulted m.functions fs) :
      Hovered c { c with module := some { m with functions := fs } }

variable {c c' : Compilation}

theorem Complete.hovered (h : Complete c) : Hovered c c := by
  cases hm : c.module with
  | none => exact .text hm
  | some m =>
    have hself := Hovered.functions hm
      (List.forall₂_same.mpr fun l hl => (h m hm l hl).consulted)
    rwa [show ({ c with module := some { m with functions := m.functions } } : Compilation) = c by
      rw [← hm]] at hself

theorem Hovered.tree (h : Hovered c c') : c'.tree = c.tree := by cases h <;> rfl

theorem Hovered.source (h : Hovered c c') : c'.source = c.source := by cases h <;> rfl

/-- A hover succeeds and shows the same before and after other hovers. -/
theorem Hovered.hoverAt (h : Hovered c c') (hc : Complete c) (line char : Nat) :
    ∃ found k k', Editor.hoverAt line char c = .ok (found, k) ∧
      Editor.hoverAt line char c' = .ok (found, k') ∧ Hovered c k' := by
  cases h with
  | text hm =>
    refine ⟨none, c, c, ?_, ?_, .text hm⟩ <;> rw [Editor.hoverAt, hm]
  | @functions m fs hm hfs =>
    obtain ⟨found, ks, ks', hrun, hrun', hks⟩ :=
      hoverIn_alike hfs (hc m hm) (line + 1) (char + 1)
    refine ⟨found, { c with module := some { m with functions := ks } }, _, ?_, ?_,
      .functions hm hks⟩
    · rw [Editor.hoverAt, hm]
      simp only [hrun]
      rfl
    · rw [Editor.hoverAt]
      simp only [hrun']
      rfl

end

end DefFlow.Editor

namespace DefFlow.Compile

open DefFlow.Flow DefFlow.Lowering DefFlow.Editor

/-- A function that is built is complete, whether it is frozen or not. -/
theorem build_ready {file : String} {s : Settings} {l l' : Lowered} {ds : List Diagnostic}
    (hl : l.func.Unjoined) (h : build file s l = .ok (l', ds)) : Ready l' := by
  obtain ⟨found, g, hrun, c, hv⟩ := complete_ok hl s
  simp only [build, hrun] at h
  obtain ⟨notes, -, h⟩ := of_bind_ok h
  split at h
  · obtain ⟨n, k, hresolve, c'⟩ := c.again hl.forest
    split at h
    · cases h
    · next hfreeze =>
      cases h
      obtain ⟨n', k', hresolve', -, rfl⟩ := freeze_ok hfreeze
      cases hresolve.symm.trans hresolve'
      exact ⟨k, c'.canonicalJoins, rfl⟩
  · cases h
    exact ⟨g, c.canonicalJoins, rfl⟩

theorem compile_complete {file source : String} {s : Settings} {cancelled : Bool}
    {c : Compilation} (h : compile file source s cancelled = .ok c) : Complete c := by
  intro m hm l hl
  cases hparse : Syntax.parse source with
  | error e =>
    rw [compile, hparse] at h
    cases h
    cases hm
  | ok tree =>
    cases hlower : lower file tree with
    | error e =>
      rw [compile, hparse] at h
      simp only [hlower] at h
      cases h
    | ok r =>
      obtain ⟨m₀, ds⟩ := r
      rw [compile_eq hparse hlower] at h
      cases hbuilt : buildAll file s cancelled m₀.functions with
      | error e =>
        rw [hbuilt] at h
        cases h
      | ok built =>
        rw [hbuilt] at h
        cases h
        cases hm
        obtain ⟨b, hb, rfl⟩ := List.mem_map.mp hl
        rw [buildAll] at hbuilt
        split at hbuilt
        · cases hbuilt
        · cases hall : m₀.functions.mapM (build file s) with
          | error e =>
            rw [hall] at hbuilt
            cases hbuilt
          | ok built' =>
            rw [hall] at hbuilt
            cases hbuilt
            obtain ⟨l₀, hl₀, hbuild⟩ := forall₂_right (of_mapM_ok hall) hb
            exact build_ready (lowered_unjoined hlower hl₀).1 hbuild

end DefFlow.Compile
