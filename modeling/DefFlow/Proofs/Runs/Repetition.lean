import DefFlow.Proofs.Edits.Firm
import DefFlow.Proofs.Resolution.Beside
import DefFlow.Proofs.Runs.Recall
import DefFlow.Proofs.Verification.Sealed

/-!
# Asking again

Between two answers to the same question any number of other questions may have been asked; they
build joins, and with each of them all that was remembered is forgotten. Main statement: the second
answer names the same timeline and denotes the same definition. It is the very same answer, unless
the first one had to build the join that it names, away from the block of the question: then the
second one finds the join there, and names it as what leaves its block.
-/

set_option autoImplicit false

namespace DefFlow.Flow

open Func

section

variable {f g k : Func} {b c : NodeId} {v w : VarId} {r r' : Resolution} {s : Stack}

/-! ## What an answer says -/

/-- The second answer is the first one, or it names as what leaves a block what the first one
names as the join at the top of it. -/
def Func.Repeats (f : Func) (b : NodeId) (r r' : Resolution) : Prop :=
  r' = r ∨ ∃ t, r = .top t ∧ r' = .timeline t ∧ (f.timelineAt t).block ≠ b

def Func.Reads (f : Func) (v : VarId) (b : NodeId) (r : Resolution) : Sight → Prop
  | .nothing => r = .undefined
  | .definition i => ∃ c t, r = .timeline t ∧ f.timelineId? c v = some t ∧ f.lastDef v c = some i ∧
      Edit.reachingOf f r = .defined i
  | .join c => ∃ t, f.joined? c v = some t ∧ Edit.reachingOf f r = .join t ∧
      (r = .top t ∨ (r = .timeline t ∧ c ≠ b))
  | .unbuilt _ => False

theorem Func.Tells.reads (h : f.Tells v b r) (ht : f.Tables) : f.Reads v b r (f.view v b) := by
  obtain ⟨hsight, hnames⟩ := h
  rw [← hsight]
  cases r with
  | undefined => rfl
  | join _ => exact hnames.elim
  | top t =>
    obtain ⟨c, hc⟩ := hnames
    rw [Edit.reachingOf, sightOf, ht.block_eq (ht.joinNodes_of_joined? hc).2]
    exact ⟨t, hc, rfl, Or.inl rfl⟩
  | timeline t =>
    obtain ⟨hnone, c, hc⟩ := hnames
    have hid := timelineId?_of_explicit? hc
    rw [Edit.reachingOf]
    by_cases hd : f.Defining v c
    · obtain ⟨i, hi, hl⟩ := ht.leaving_of_defining hid hd
      rw [hl]
      exact ⟨c, t, rfl, hid, hi, hl⟩
    · have hl := ht.leaving_of_not_defining hid hd
      -- a block that decides without a definition has a join
      have hjoined : f.joined? c v = some t := by
        rw [ht.joined?_eq, if_neg, hid]
        intro hn
        rw [ht.explicit?_eq, if_pos ⟨not_not.mp hd, hn⟩] at hc
        cases hc
      rw [hl, sightOf, ht.block_eq hid]
      refine ⟨t, hjoined, hl, Or.inr ⟨rfl, ?_⟩⟩
      rintro rfl
      rw [hnone] at hjoined
      cases hjoined

theorem Rewires.joined? (hw : Rewires f g) (ht : f.Tables) (ht' : g.Tables)
    (hnodes : ∀ {b v}, f.joinNodes b v ≠ [] → g.joinNodes b v ≠ []) {t : TimelineId}
    (hc : f.joined? c v = some t) : g.joined? c v = some t := by
  obtain ⟨hne, hid⟩ := ht.joinNodes_of_joined? hc
  rw [ht'.joined?_eq, if_neg (hnodes hne), hw.id hid]

theorem Weaves.joinNodes_ne_nil (hw : Weaves f g) (hf : f.Linked) (h : f.joinNodes b v ≠ []) :
    g.joinNodes b v ≠ [] := by
  obtain ⟨n, hn⟩ := List.exists_mem_of_ne_nil _ h
  obtain ⟨t, i, hid, hi, howner⟩ := hf.tables.get?_of_mem hn
  obtain ⟨j, hj, hjo, -⟩ := hw.nodes hi
  have hmem := hw.linked.tables.mem_joinNodes hj
  rw [hjo, howner] at hmem
  rw [hw.linked.tables.block_eq (hw.id hid), hw.linked.tables.var_eq (hw.id hid)] at hmem
  exact List.ne_nil_of_mem hmem

theorem Weaves.repeats (hw : Weaves f g) (hf : f.WellFormed) (hview : g.view v b = f.view v b)
    (hr : f.Tells v b r) (hr' : g.Tells v b r') :
    r'.timeline? = r.timeline? ∧ Edit.reachingOf g r' = Edit.reachingOf f r ∧
      (f.Repeats b r r' ∨ ∃ c t, r' = .top t ∧ f.joined? c v = some t ∧ c ≠ b) := by
  have ht := hf.linked.tables
  have ht' := hw.linked.tables
  have hreads := hr.reads ht
  have hreads' := hr'.reads ht'
  rw [hview] at hreads'
  cases hx : f.view v b with
  | nothing =>
    rw [hx] at hreads hreads'
    obtain rfl : r = .undefined := hreads
    obtain rfl : r' = .undefined := hreads'
    exact ⟨rfl, rfl, Or.inl (Or.inl rfl)⟩
  | definition i =>
    rw [hx] at hreads hreads'
    obtain ⟨c, t, rfl, hid, hlast, hreach⟩ := hreads
    obtain ⟨c', t', rfl, hid', hlast', hreach'⟩ := hreads'
    have hc := hf.scheduled.block_of_lastDef hlast
    have hc' := (hw.toRelinks.wellFormed hf).scheduled.block_of_lastDef hlast'
    rw [hw.inst, hc] at hc'
    cases hc'
    cases hid'.symm.trans (hw.id hid)
    exact ⟨rfl, hreach'.trans hreach.symm, Or.inl (Or.inl rfl)⟩
  | join c =>
    rw [hx] at hreads hreads'
    obtain ⟨t, hj, hreach, hcases⟩ := hreads
    obtain ⟨t', hj', hreach', hcases'⟩ := hreads'
    have hjoined := hw.joined? ht ht' (fun h => hw.joinNodes_ne_nil hf.linked h) hj
    cases hj'.symm.trans hjoined
    have hblock := ht.block_eq (ht.joinNodes_of_joined? hj).2
    refine ⟨?_, hreach'.trans hreach.symm, ?_⟩
    · rcases hcases with rfl | ⟨rfl, -⟩ <;> rcases hcases' with rfl | ⟨rfl, -⟩ <;> rfl
    · rcases hcases with rfl | ⟨rfl, hne⟩ <;> rcases hcases' with rfl | ⟨rfl, hne'⟩
      · exact Or.inl (Or.inl rfl)
      · exact Or.inl (Or.inr ⟨t, rfl, rfl, hblock ▸ hne'⟩)
      · exact Or.inr ⟨c, t, rfl, hj, hne⟩
      · exact Or.inl (Or.inl rfl)
  | unbuilt c =>
    rw [hx] at hreads
    exact hreads.elim

/-! ## Questions in between -/

/-- Since `r` was the answer about `v` at the top of `b`, joins have been built and nothing else
has been done. What is remembered of the question repeats the answer. -/
structure Recounts (f : Func) (b : NodeId) (v : VarId) (r : Resolution) (g : Func) : Prop where
  weaves : Weaves f g
  view : ∀ {c} w, c ∈ f.blocks → g.view w c = f.view w c
  recalls : ∀ {s}, g.memo.lookup ⟨b, v, false⟩ = some s →
    ∃ r', s.resolution g = .ok r' ∧ f.Repeats b r r'

theorem Recounts.ready (h : Recounts f b v r g) (hf : f.MemoCorrect) (hu : f.frozen = false) :
    g.Ready := by
  have ht := h.weaves.memoCorrect hf
  have hg : g.frozen = false := h.weaves.frozen.trans hu
  exact ⟨ht.forest, ht.linked.tables, hg, ht.retells⟩

theorem Recounts.afresh (h : Recounts f b v r g) (hf : f.MemoCorrect) (hu : f.frozen = false)
    (hb : b ∈ f.blocks) (hr : f.Tells v b r) (hm : g.memo.lookup ⟨b, v, false⟩ = none) :
    ∃ s k r', Edit.stackAt b v g = .ok s k ∧ s.resolution k = .ok r' ∧
      r'.timeline? = r.timeline? ∧ Edit.reachingOf k r' = Edit.reachingOf f r ∧
      f.Repeats b r r' := by
  have hready := h.ready hf hu
  have hb' : b ∈ g.blocks := h.weaves.blocks ▸ hb
  obtain ⟨s, k, r', hrun, hres, htells, htop⟩ := hready.stackAt_anew hb' hm
  obtain ⟨_, _, hrun', ha, -⟩ := hready.stackAt hb' v
  cases hrun.symm.trans hrun'
  have hw := h.weaves.trans (stackAt_weaves h.weaves.linked
    (h.weaves.block (hf.forest.stored b (Forest.mem_trees hb))) hrun).1
  obtain ⟨htimeline, hreach, hrep | ⟨c, t, rfl, hj, hne⟩⟩ := hw.repeats hf.toWellFormed
    ((ha.view v hb').trans (h.view v hb)) hr htells
  · exact ⟨s, k, r', hrun, hres, htimeline, hreach, hrep⟩
  · -- the join was there when the question was first answered
    obtain ⟨j, hjoined, hcases⟩ := htop t rfl
    obtain ⟨hnodes, hid⟩ := hf.linked.tables.joinNodes_of_joined? hj
    have ht := ha.ready.tables
    obtain rfl : j = c := by
      rw [← ht.block_eq (ht.joinNodes_of_joined? hjoined).2, ht.block_eq (hw.id hid)]
    exact absurd (hcases.resolve_left hne) (h.weaves.joinNodes_ne_nil hf.linked hnodes)

theorem outcome_answer_of_detached {q : Question} (hp : g.hasParent q.block = false) :
    (Edit.answer q).outcome g = g := by
  have hask : g.resolvable q.block = .error ⟨.resolve, .detachedBlock (g.label q.block)⟩ := by
    rw [resolvable, hp]
    rfl
  rw [Edit.outcome, Edit.answer, Edit.ask, bind_assoc, Edit.bind_eq Edit.get_eq, hask]
  rfl

theorem Recounts.stackAt (h : Recounts f b v r g) (hf : f.MemoCorrect) (hu : f.frozen = false)
    (hb : b ∈ f.blocks) (hr : f.Tells v b r) (hc : (g.nodes.get? c).isSome) :
    Recounts f b v r ((Edit.stackAt c w).outcome g) ∧
      Weaves g ((Edit.stackAt c w).outcome g) := by
  have hready := h.ready hf hu
  have hconsistent := (h.weaves.memoCorrect hf).toConsistent
  cases hp : g.hasParent c with
  | false =>
    rw [Edit.stackAt, outcome_answer_of_detached hp]
    exact ⟨h, .refl h.weaves.linked⟩
  | true =>
  have hres : g.resolvable c = .ok () := by rw [resolvable, if_pos hp]
  cases hm : g.memo.lookup ⟨c, w, false⟩ with
  | some s =>
    rw [Edit.outcome_ok (Edit.stackAt_of_memo hres hm)]
    exact ⟨h, .refl h.weaves.linked⟩
  | none =>
    obtain ⟨root, rest, hperm, hcr⟩ := exists_root ((hconsistent.stocked.stored c).mpr hc)
    obtain ⟨s, created, g₁, hsol, hfine, hbuilt, hrun⟩ := Flow.stackAt_anew hready.forest
      hready.tables hready.unfrozen hperm hcr hres hm
    have hw := (stackAt_weaves h.weaves.linked hc hrun).1
    have hk := hbuilt.extended.keeps
    rw [Edit.outcome_ok hrun]
    refine ⟨⟨h.weaves.trans hw, fun {x} w' hx => ?_, fun {s'} hs' => ?_⟩, hw⟩
    · have hx' : x ∈ g.blocks := h.weaves.blocks ▸ hx
      rw [view_memo, ← h.view w' hx]
      exact hsol.view_beside hready.forest hperm hready.tables hfine hbuilt w' hx'
    rcases of_lookup_cons hs' with ⟨hq, rfl⟩ | ⟨-, hs'⟩
    · obtain ⟨rfl, rfl, -⟩ := Question.mk.inj hq
      obtain ⟨_, _, r', hrun', hres', -, -, hrep⟩ := h.afresh hf hu hb hr hm
      cases hrun.symm.trans hrun'
      exact ⟨r', hres', hrep⟩
    · rcases hbuilt.forgets with rfl | hnil
      · obtain ⟨r', hres', hrep⟩ := h.recalls hs'
        exact ⟨r', (sameView_memo g₁ _).resolution hres', hrep⟩
      · rw [hnil] at hs'
        cases hs'

theorem Recounts.probe (h : Recounts f b v r g) (hf : f.MemoCorrect)
    (hc : (g.nodes.get? c).isSome) :
    Recounts f b v r ((Edit.answer ⟨c, w, true⟩).outcome g) ∧
      Weaves g ((Edit.answer ⟨c, w, true⟩).outcome g) := by
  have hg := h.weaves.memoCorrect hf
  cases hp : g.hasParent c with
  | false =>
    rw [outcome_answer_of_detached hp]
    exact ⟨h, .refl h.weaves.linked⟩
  | true =>
  have hres : g.resolvable c = .ok () := by rw [resolvable, if_pos hp]
  cases hm : g.memo.lookup ⟨c, w, true⟩ with
  | some s =>
    rw [Edit.outcome_ok (Edit.answer_of_memo hres hm)]
    exact ⟨h, .refl h.weaves.linked⟩
  | none =>
    obtain ⟨s, hs, -⟩ := hg.solve_anywhere hc w
    have hrun := Edit.answer_of_solve (q := ⟨c, w, true⟩) hres rfl hm hs.solved
    have hw := (answer_weaves h.weaves.linked hc hrun).1
    rw [Edit.outcome_ok hrun]
    refine ⟨⟨h.weaves.trans hw, fun {x} w' hx => ?_, fun {s'} hs' => ?_⟩, hw⟩
    · rw [view_memo, h.view w' hx]
    · rw [lookup_cons_of_ne (by simp)] at hs'
      obtain ⟨r', hres', hrep⟩ := h.recalls hs'
      exact ⟨r', (sameView_memo g _).resolution hres', hrep⟩

/-! ## Asking -/

theorem Recounts.serve {req : Request} (h : Recounts f b v r g) (hf : f.MemoCorrect)
    (hu : f.frozen = false) (hb : b ∈ f.blocks) (hr : f.Tells v b r) (ha : req.asks = true)
    (hl : req.live g = true) : Recounts f b v r (req.serve g) := by
  have hk := (h.weaves.memoCorrect hf).toWellFormed
  have hlinked := h.weaves.linked
  refine (Request.asks_keep (I := fun k => Recounts f b v r k ∧ Weaves g k)
    (P := fun c => (g.nodes.get? c).isSome = true) (fun {q} hc k hI => ?_)
    (fun k hI c hc => ?_) ha g ⟨h, .refl hlinked⟩).1
  · obtain ⟨c, w, probe⟩ := q
    cases probe with
    | false =>
      obtain ⟨h', hw⟩ := hI.1.stackAt (w := w) hf hu hb hr (hI.2.block hc)
      exact ⟨h', hI.2.trans hw⟩
    | true =>
      obtain ⟨h', hw⟩ := hI.1.probe (w := w) hf (hI.2.block hc)
      exact ⟨h', hI.2.trans hw⟩
  · cases req with
    | resolve x _ =>
      subst hc
      exact hl
    | resolveStack x _ =>
      subst hc
      exact hl
    | reachingAt x _ _ =>
      subst hc
      exact hl
    | probe x _ =>
      subst hc
      exact hl
    | resolveAll => exact hk.forest.stored c (Forest.mem_trees (hI.2.blocks ▸ hc))
    | reachingDef u =>
      rw [Request.about, hI.2.inst] at hc
      exact hk.stored_of_block hc
    | outgoing t =>
      obtain ⟨x, hx⟩ := Option.isSome_iff_exists.mp hl
      obtain ⟨y, hy, hblock, -⟩ := hI.2.toRewires.live hlinked.tables hI.2.linked.tables hx
      subst hc
      rw [timelineAt_of_get? hy, hblock]
      exact stored_of_timelineId? (hlinked.tables.listed hx)
    | _ => exact hc.elim

/-- Some questions have been asked, one after the other, each about something that is there;
they were answered or refused. -/
inductive Questioned (f : Func) : Func → Prop
  | start : Questioned f f
  | ask {g : Func} {req : Request} (h : Questioned f g) (ha : req.asks = true)
      (hl : req.live g = true) : Questioned f (req.serve g)

/-- While questions are asked, an answer can be repeated. -/
theorem Questioned.recounts (h : Questioned f g) (hf : f.MemoCorrect) (hu : f.frozen = false)
    (hb : b ∈ f.blocks) (hr : f.Tells v b r)
    (hmemo : ∃ s, f.memo.lookup ⟨b, v, false⟩ = some s ∧ s.resolution f = .ok r) :
    Recounts f b v r g := by
  induction h with
  | start =>
    refine ⟨.refl hf.linked, fun _ _ => rfl, fun {s} hs => ?_⟩
    obtain ⟨s', hs', hres⟩ := hmemo
    cases hs.symm.trans hs'
    exact ⟨r, hres, Or.inl rfl⟩
  | ask _ ha hl ih => exact ih.serve hf hu hb hr ha hl

theorem answer_remembers (hu : f.frozen = true) (q : Question) :
    Edit.Upholds (fun k => f.UpToMemo k ∧ k.memo.lookup ⟨b, v, false⟩ = some s)
        (Edit.answer q) := by
  intro k hk
  rcases answer_outcome (q := q) (f := k) (by rw [hk.1.frozen.trans hu, Bool.or_true]) with
    h | ⟨s', hm, -, h⟩
  · rw [h]
    exact hk
  have hne : ⟨b, v, false⟩ ≠ q := fun he => by
    have hlookup := hk.2
    rw [he, hm] at hlookup
    cases hlookup
  rw [h]
  exact ⟨hk.1.trans rfl, (lookup_cons_of_ne hne).trans hk.2⟩

theorem Questioned.remembers (h : Questioned f g) (hu : f.frozen = true)
    (hm : f.memo.lookup ⟨b, v, false⟩ = some s) :
    f.UpToMemo g ∧ g.memo.lookup ⟨b, v, false⟩ = some s := by
  induction h with
  | start => exact ⟨.refl f, hm⟩
  | ask _ ha _ ih => exact Request.asks_upholds (answer_remembers hu) ha _ ih

/-! ## Asking twice -/

theorem memo_of_answer {q : Question} (h : Edit.answer q f = .ok s g) :
    g.memo.lookup q = some s := by
  obtain ⟨-, ⟨hm, rfl⟩ | ⟨-, s₀, f₁, -, rfl, -⟩⟩ := Edit.answer_cases h
  · exact hm
  · exact List.lookup_cons_self

theorem resolve_eq {b : ComponentRef} {v : Variable} (hb : b.owner = f.handle)
    (hv : v.owner = f.handle) : Edit.resolve b v f = Edit.resolveAt b.id v.id f := by
  rw [Edit.resolve, Edit.bind_eq (ownQuery_eq hb hv)]

theorem Questioned.again_frozen (h : Questioned f g) (hf : f.Forest) (hu : f.frozen = true)
    (hb : b ∈ f.blocks) (hm : f.memo.lookup ⟨b, v, false⟩ = some s) (hr : s.resolution f = .ok r) :
    ∃ m, g = { f with memo := m } ∧ Edit.resolveAt b v g = .ok r g := by
  obtain ⟨hup, hlookup⟩ := h.remembers hu hm
  obtain ⟨m, rfl⟩ : ∃ m, g = { f with memo := m } := ⟨g.memo, hup⟩
  exact ⟨m, rfl, resolveAt_of_stackAt (Edit.stackAt_of_memo ((hf.memo m).resolvable hb) hlookup)
    ((sameView_memo f m).resolution hr)⟩

theorem Questioned.again (h : Questioned f g) (hf : f.MemoCorrect) (hu : f.frozen = false)
    (hb : b ∈ f.blocks) (hr : f.Tells v b r) (hm : f.memo.lookup ⟨b, v, false⟩ = some s)
    (hs : s.resolution f = .ok r) :
    g.handle = f.handle ∧ ∃ r' k, Edit.resolveAt b v g = .ok r' k ∧
      r'.timeline? = r.timeline? ∧ Edit.reachingOf k r' = Edit.reachingOf f r ∧
      f.Repeats b r r' := by
  have hrec := h.recounts hf hu hb hr ⟨s, hm, hs⟩
  refine ⟨hrec.weaves.handle, ?_⟩
  have hready := hrec.ready hf hu
  have hb' : b ∈ g.blocks := hrec.weaves.blocks.symm ▸ hb
  cases hlookup : g.memo.lookup ⟨b, v, false⟩ with
  | some s' =>
    obtain ⟨r', hr', hrep⟩ := hrec.recalls hlookup
    obtain ⟨r'', hr'', htells⟩ :=
        tells_of_memo hready.retells hready.forest hready.unfrozen hlookup hb'
    cases hr'.symm.trans hr''
    obtain ⟨htimeline, hreach, -⟩ := hrec.weaves.repeats hf.toWellFormed (hrec.view v hb) hr htells
    have hrun := Edit.stackAt_of_memo (hready.resolvable hb') hlookup
    exact ⟨r', g, resolveAt_of_stackAt hrun hr', htimeline, hreach, hrep⟩
  | none =>
    obtain ⟨s', k, r', hrun, hr', htimeline, hreach, hrep⟩ := hrec.afresh hf hu hb hr hlookup
    exact ⟨r', k, resolveAt_of_stackAt hrun hr', htimeline, hreach, hrep⟩

/-- Whatever has been asked in between, the same question is answered by the same timeline and
definition, and by the same resolution unless the first answer is a join that had to be built in
another block. -/
theorem questions_repeat {b : ComponentRef} {v : Variable} (h : Reached f) (hb : b.id ∈ f.blocks)
    (hown : b.owner = f.handle) (hvar : v.owner = f.handle) :
    ∃ r g, Edit.resolve b v f = .ok r g ∧ ∀ k, Questioned g k →
      ∃ r' k', Edit.resolve b v k = .ok r' k' ∧ r'.timeline? = r.timeline? ∧
        Edit.reachingOf k' r' = Edit.reachingOf g r ∧ g.Repeats b.id r r' ∧
        (f.frozen = true → r' = r) := by
  have ht := h.memoCorrect
  have hstored := ht.forest.stored b.id (Forest.mem_trees hb)
  obtain ⟨s, g, hrun, r, hr⟩ := ht.stackAt_ok hstored (ht.forest.hasParent hb) v.id
  have hw := (stackAt_weaves ht.linked hstored hrun).1
  have hm := memo_of_answer hrun
  have hb' : b.id ∈ g.blocks := hw.blocks.symm ▸ hb
  refine ⟨r, g, (resolve_eq hown hvar).trans (resolveAt_of_stackAt hrun hr), fun k hk => ?_⟩
  have hresolve (hhandle : k.handle = g.handle) : Edit.resolve b v k = Edit.resolveAt b.id v.id k :=
    have heq := (hhandle.trans hw.handle).symm
    resolve_eq (hown.trans heq) (hvar.trans heq)
  cases hu : f.frozen with
  | true =>
    obtain ⟨m, rfl, hagain⟩ := hk.again_frozen (hw.toSameGraph.forest ht.forest)
      (hw.frozen.trans hu) hb' hm hr
    exact ⟨r, _, (hresolve rfl).trans hagain, rfl, rfl, Or.inl rfl, fun _ => rfl⟩
  | false =>
    obtain ⟨_, _, hrun', -, r', hr', htells⟩ := (h.ready hu).stackAt hb v.id
    cases hrun.symm.trans hrun'
    cases hr.symm.trans hr'
    obtain ⟨hhandle, r', k', hagain, htimeline, hreach, hrep⟩ := hk.again (hw.memoCorrect ht)
      (hw.frozen.trans hu) hb' htells hm hr
    exact ⟨r', k', (hresolve hhandle).trans hagain, htimeline, hreach, hrep, nofun⟩

def meetingDiamond : List Request :=
  [.addVariable "x" (.int 64), .addVariable "y" (.int 64), .newBlock "left", .newBlock "right",
    .newFork none [⟨0, 3, .block, "left"⟩, ⟨0, 4, .block, "right"⟩], .newBlock "join",
    .newBlock "use", .appendElement 2 ⟨0, 6, .fork, ""⟩, .appendElement 2 ⟨0, 7, .block, "join"⟩,
    .appendElement 2 ⟨0, 8, .block, "use"⟩,
    .appendInst 3 .undef (some ⟨0, 1, "x", .int 64, 0⟩) [],
    .appendInst 4 .undef (some ⟨0, 1, "x", .int 64, 0⟩) [],
    .appendInst 3 .undef (some ⟨0, 2, "y", .int 64, 0⟩) [],
    .appendInst 4 .undef (some ⟨0, 2, "y", .int 64, 0⟩) []]

theorem meetingDiamond_repeats : ∃ f r g r' k t, Reached f ∧
    Edit.resolve ⟨0, 8, .block, "use"⟩ ⟨0, 1, "x", .int 64, 0⟩ f = .ok r g ∧
    Edit.resolve ⟨0, 8, .block, "use"⟩ ⟨0, 1, "x", .int 64, 0⟩
      (Request.serve g (.resolve ⟨0, 8, .block, "use"⟩ ⟨0, 2, "y", .int 64, 0⟩)) = .ok r' k ∧
    r = .top t ∧ r' = .timeline t ∧ Edit.reachingOf k r' = Edit.reachingOf g r := by
  let c : ComponentRef := ⟨0, 8, .block, "use"⟩
  let x : Variable := ⟨0, 1, "x", .int 64, 0⟩
  let req : Request := .resolve c ⟨0, 2, "y", .int 64, 0⟩
  obtain ⟨f, hf, hpass⟩ := Reached.exists_of_requests 0 "f" meetingDiamond
    (fun f => decide (8 ∈ f.blocks ∧ f.handle = 0) &&
      Edit.passes (Edit.resolve c x) (fun r g => req.live g &&
        Edit.passes (Edit.resolve c x) (fun r' _ => decide (r' ≠ r)) (req.serve g)) f)
    (by decide +kernel)
  rw [Bool.and_eq_true, decide_eq_true_eq] at hpass
  obtain ⟨⟨hb, hown⟩, hpass⟩ := hpass
  obtain ⟨r, g, hfirst, hpass⟩ := Edit.of_passes hpass
  rw [Bool.and_eq_true] at hpass
  obtain ⟨hlive, hagain⟩ := hpass
  obtain ⟨r', k, hsecond, hne⟩ := Edit.of_passes hagain
  obtain ⟨r₁, g₁, hfirst₁, hrepeat⟩ := questions_repeat (b := c) (v := x) hf hb hown.symm hown.symm
  cases hfirst.symm.trans hfirst₁
  obtain ⟨r₂, k₂, hsecond₂, -, hreach, hrep, -⟩ := hrepeat _ (.ask .start rfl hlive)
  cases hsecond.symm.trans hsecond₂
  obtain ⟨t, hr, hr', -⟩ := hrep.resolve_left (of_decide_eq_true hne)
  exact ⟨f, r, g, r', k, t, hf, hfirst, hsecond, hr, hr', hreach⟩

end

end DefFlow.Flow
