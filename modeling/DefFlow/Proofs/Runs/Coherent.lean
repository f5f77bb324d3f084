import DefFlow.Proofs.Edits.Propagate
import DefFlow.Proofs.Reaching.Lazy
import DefFlow.Proofs.Verification.Report

/-!
# Joins stay coherent

Main statement: after any run of edits and questions, a join has one node for each
predecessor, bound to the timeline whose value leaves it. Nothing is wrong with such nodes,
and another propagation finds nothing to bind.
-/

set_option autoImplicit false

namespace DefFlow.Flow

open Func

section

variable {f f' f'' : Func} {v : VarId} {b x y : NodeId} {T : Option TimelineId}

/-! ## Questions that change nothing -/

def Idle (f f' : Func) : Prop := f'.Sound ∧ ∃ m, f' = { f with memo := m }

theorem Idle.refl (h : f.Sound) : Idle f f := ⟨h, f.memo, rfl⟩

theorem Idle.trans (h : Idle f f') (h' : Idle f' f'') : Idle f f'' := by
  obtain ⟨_, m, rfl⟩ := h
  obtain ⟨hs, m', rfl⟩ := h'
  exact ⟨hs, m', rfl⟩

/-- Only one timeline can be the one whose value leaves a block. -/
theorem Func.Fresh.eq (hw : f.Searchable) (hb : b ∈ f.blocks) {U : Option TimelineId}
    (hT : f.Fresh v b T) (hU : f.Fresh v b U) : T = U := by
  obtain ⟨G⟩ := hw.graph
  obtain ⟨a, ha⟩ : ∃ a, Departs f.preds (f.Decides v) b a := G.exists_departs hb
  rw [hT a ha, hU a ha]

/-- A block that decides nothing passes on the one value that arrives there. -/
theorem Func.Fresh.arrives_eq (hw : f.Searchable) (hb : b ∈ f.blocks) (hT : f.Fresh v b T)
    (hd : ¬ f.Decides v b) : ∃ a, ∀ c, Arrives f.preds (f.Decides v) b c → c = a := by
  obtain ⟨G⟩ := hw.graph
  obtain ⟨a, ha⟩ : ∃ a, Departs f.preds (f.Decides v) b a := G.exists_departs hb
  exact ⟨a, fun c hc => hT.unique hw.tables (Or.inr ⟨hd, hc⟩) ha⟩

/-- Where a single value arrives there is nothing to build, and asking changes nothing. -/
theorem resolveAt_idle (h : f.Sound) (hb : b ∈ f.blocks) {a : Option NodeId}
    (ha : ∀ c, Arrives f.preds (f.Decides v) b c → c = a) :
    ∃ r f', Edit.resolveAt b v f = .ok r f' ∧ Idle f f' := by
  have hw := h.nodesFresh.searchable
  obtain ⟨G⟩ := hw.graph
  obtain ⟨r, f', hrun, -⟩ := resolveAt_ok hw hb v
  refine ⟨r, f', hrun, (resolveAt_sound h hb hrun).1, ?_⟩
  obtain ⟨s, f₁, hstack, hcases⟩ := stackAt_cases h.answerable hb v
  rw [Edit.resolveAt, Edit.bind_eq hstack] at hrun
  obtain ⟨-, rfl⟩ := Edit.ask_ok hrun
  rcases hcases with ⟨rfl, -⟩ | ⟨-, hm⟩ | ⟨s₀, f₂, c, m, hsol, -, -, rfl, hsame⟩
  · exact ⟨_, rfl⟩
  · exact hm
  · rw [hsame (hsol.surviving_of_single G hw.tables ha)]
    exact ⟨m, rfl⟩

theorem valueLeaving_idle (h : f.Sound) (hb : b ∈ f.blocks) (hT : f.Fresh v b T) :
    ∃ f', Edit.valueLeaving b v f = .ok T f' ∧ Idle f f' := by
  have hw := h.nodesFresh.searchable
  cases he : f.explicit? b v with
  | some t =>
    obtain rfl := hT.eq hw hb (fresh_of_explicit? he)
    refine ⟨f, ?_, .refl h⟩
    rw [Edit.valueLeaving, Edit.bind_eq Edit.get_eq, he]
    rfl
  | none =>
    have hd : ¬ f.Decides v b := by rw [Decides, he]; simp
    obtain ⟨a, ha⟩ := hT.arrives_eq hw hb hd
    obtain ⟨r, f', hrun, hidle⟩ := resolveAt_idle h hb ha
    obtain ⟨U, f₁, hleave, -, -, -, hU, -⟩ := valueLeaving_ok hw hb v
    have heq : Edit.valueLeaving b v f = .ok r.timeline? f' := by
      rw [Edit.valueLeaving, Edit.bind_eq Edit.get_eq, he]
      exact Edit.bind_eq hrun
    rw [heq] at hleave
    cases hleave
    refine ⟨f', ?_, hidle⟩
    obtain ⟨-, m, rfl⟩ := hidle
    have hfresh : f.Fresh v b r.timeline? := hU
    rw [heq, hfresh.eq hw hb hT]

/-! ## A propagation with nothing to do -/

/-- A node is bound already to what leaves its predecessor. -/
theorem rebind_idle (h : f.NodesFresh) {n : IncomingId} (hn : n ∈ f.joinNodes x v) :
    Edit.rebind n (f.incomingAt n).target f = .ok false f := by
  have hw := h.searchable
  have he := mem_feeds hn
  obtain ⟨t, i, hid, hi, hit⟩ := hw.tables.get?_of_mem hn
  refine rebind_of_eq hi (by rw [incomingAt_of_get? hi]) fun u hu => ?_
  have hfresh : f.Fresh v (f.incomingAt n).pred (some u) := hu ▸ h.fresh _ he
  obtain ⟨z, hz, hv⟩ := hfresh.live hw (h.pred_mem he)
  rw [timelineAt_of_get? hz, hv, hit, hw.tables.var_eq hid]

theorem rebindBrought_idle (h : f.Sound) {n : IncomingId} (hn : n ∈ f.joinNodes x v) {known : Bool}
    (hk : f.Knows v (f.incomingAt n).pred known T) (c : Nat) :
    ∃ f', (do
      let target ← if known then pure T else Edit.valueLeaving (f.incomingAt n).pred v
      if ← Edit.rebind n target then return c + 1 else return c : Edit Nat) f = .ok c f' ∧
      Idle f f' := by
  have hp := h.nodesFresh.pred_mem (mem_feeds hn)
  have hfresh := h.nodesFresh.fresh _ (mem_feeds hn)
  cases known with
  | true =>
    rw [(hk rfl).eq h.nodesFresh.searchable hp hfresh]
    exact ⟨f, Edit.bind_eq (rebind_idle h.nodesFresh hn), .refl h⟩
  | false =>
    obtain ⟨f', hrun, hidle⟩ := valueLeaving_idle h hp hfresh
    refine ⟨f', (Edit.bind_eq hrun).trans ?_, hidle⟩
    obtain ⟨h', m, rfl⟩ := hidle
    have hn' : n ∈ ({ f with memo := m } : Func).joinNodes x v := hn
    exact Edit.bind_eq (rebind_idle h'.nodesFresh hn')

theorem rebindNodes_idle (h : f.Sound) {o : Edit.Outlook} (ho : o.leaving = Edit.valueLeaving)
    {step : PropagationStep} (hk : f.Knows v y step.known step.value) :
    ∃ f', Edit.rebindNodes o v [y] step (f.joinNodes x v) f = .ok 0 f' ∧ Idle f f' := by
  suffices hloop : ∃ c f', Edit.rebindNodes o v [y] step (f.joinNodes x v) f = .ok c f' ∧
      c = 0 ∧ Idle f f' by
    obtain ⟨_, f', hrun, rfl, hidle⟩ := hloop
    exact ⟨f', hrun, hidle⟩
  refine Edit.foldlM_run (fun _ c f' => c = 0 ∧ Idle f f') ?_ ⟨rfl, .refl h⟩
  rintro done n rest c f₁ hsplit ⟨rfl, h₁, m, rfl⟩
  have hn : n ∈ ({ f with memo := m } : Func).joinNodes x v :=
    (hsplit ▸ List.mem_append_right _ List.mem_cons_self : n ∈ f.joinNodes x v)
  rw [Edit.bind_eq Edit.get_eq]
  by_cases hpred : (({ f with memo := m } : Func).incomingAt n).pred = y
  · obtain ⟨f₂, hrun, hidle⟩ := rebindBrought_idle h₁ hn (hpred.symm ▸ hk) 0
    refine ⟨0, f₂, ?_, rfl, Idle.trans ⟨h₁, m, rfl⟩ hidle⟩
    rw [if_neg (by simp [hpred]), ho]
    exact hrun
  · refine ⟨0, _, ?_, rfl, h₁, m, rfl⟩
    rw [if_pos (by simpa using hpred)]
    rfl

structure Rightful (f : Func) (v : VarId) (step : PropagationStep) : Prop where
  source : step.source ∈ f.blocks
  block : step.block ∈ f.succs step.source
  admits : step.cache.take.1 = [step.source]
  knows : f.Knows v step.source step.known step.value

theorem Rightful.idle {step : PropagationStep} (h : Rightful f v step) (hi : Idle f f') :
    Rightful f' v step := by
  obtain ⟨-, m, rfl⟩ := hi
  exact ⟨h.source, h.block, h.admits, h.knows⟩

theorem spread_idle (n : Nat) : ∀ {f queue} visited, f.Sound → (∀ step ∈ queue, Rightful f v step) →
    ∃ f', Edit.spread (outlookOf f) v n queue visited 0 f = .ok 0 f' ∧ Idle f f' := by
  induction n with
  | zero => exact fun _ h _ => ⟨_, rfl, .refl h⟩
  | succ n ih =>
    intro f queue visited h hq
    cases queue with
    | nil => exact ⟨f, rfl, .refl h⟩
    | cons step queue =>
      have hstep := hq step List.mem_cons_self
      obtain ⟨f₁, hrun, hidle⟩ := rebindNodes_idle h (o := outlookOf f) (x := step.block) rfl
        hstep.knows
      have hstep₁ := hstep.idle hidle
      have hrest : ∀ s ∈ queue, Rightful f₁ v s := fun s hs =>
        (hq s (List.mem_cons_of_mem _ hs)).idle hidle
      have hw := hidle.1.nodesFresh.searchable
      have hblock := hw.forest.succ_mem hstep₁.source hstep₁.block
      obtain ⟨r, hr, -, hon⟩ := carriedOn_ok hw.tables (.refl hw.tables) hw
        ((hw.forest.mem_preds_iff_mem_succs hstep₁.source hblock).mpr hstep₁.block) hstep₁.knows
      -- The numbers of the nodes are those of the start, since none has been made.
      have hsize : f₁.incoming.size = f.incoming.size := by
        obtain ⟨-, m, rfl⟩ := hidle
        rfl
      have hout : outlookOf f = outlookOf f₁ := by rw [outlookOf, outlookOf, hsize]
      rw [Edit.spread, Edit.bind_eq Edit.get_eq, hstep.admits, Edit.bind_eq hrun, hout]
      cases r with
      | none =>
        obtain ⟨f', hrun', hidle'⟩ := ih visited hidle.1 hrest
        exact ⟨f', (Edit.bind_eq hr).trans hrun', hidle.trans hidle'⟩
      | some carried =>
        obtain ⟨U, known⟩ := carried
        have hmore : ∀ s ∈ queue ++ ((f₁.succs step.block).filter fun s =>
            !visited.contains (step.block, s)).map fun s =>
              ⟨s, step.block, U, known, .ofBlocks [step.block]⟩, Rightful f₁ v s := by
          intro s hs
          rcases List.mem_append.mp hs with hs | hs
          · exact hrest s hs
          · obtain ⟨c, hc, rfl⟩ := List.mem_map.mp hs
            exact ⟨hblock, (List.mem_filter.mp hc).1, rfl, hon U known rfl⟩
        obtain ⟨f', hrun', hidle'⟩ := ih _ hidle.1 hmore
        exact ⟨f', (Edit.bind_eq hr).trans ((Edit.bind_eq Edit.get_eq).trans hrun'),
          hidle.trans hidle'⟩

/-- A propagation through coherent joins binds nothing and builds nothing. -/
theorem propagate_idle (h : f.Sound) (hb : b ∈ f.blocks) {t : TimelineId}
    (ht : f.explicit? b v = some t) :
    ∃ f', Edit.propagate t none f = .ok 0 f' ∧ Idle f f' := by
  have hw := h.nodesFresh.searchable
  have hid := timelineId?_of_explicit? ht
  have hstart : ∀ step ∈ (f.succs b).zipIdx.map fun p =>
      (⟨p.1, b, some t, true, if p.2 = 0 then .ofBlocks [b] else .ofBlocks [b]⟩ : PropagationStep),
      Rightful f v step := by
    intro step hstep
    obtain ⟨⟨s, i⟩, hs, rfl⟩ := List.mem_map.mp hstep
    refine ⟨hb, List.fst_mem_of_mem_zipIdx hs, ?_, fun _ => fresh_of_explicit? ht⟩
    simp only [ite_self]
    rfl
  obtain ⟨f', hrun, hidle⟩ := spread_idle (f.edgeBound + 1) _ h hstart
  refine ⟨f', ?_, hidle⟩
  rw [Edit.propagate, Edit.bind_eq (Edit.unfrozen_eq hw.unfrozen _), Edit.bind_eq Edit.get_eq,
    Edit.announce, Edit.bind_eq Edit.get_eq]
  simp only [hw.tables.block_eq hid, hw.tables.var_eq hid, hw.forest.hasParent hb]
  exact hrun

/-! ## What a predecessor sends -/

namespace Func

/-- The timeline whose value leaves `p` is its own if that decides it, and otherwise the one
that a question about the top of `p` names; there is none exactly if the answer is undefined. -/
def Sends (f : Func) (v : VarId) (p : NodeId) (T : Option TimelineId) : Prop :=
  match f.explicit? p v with
  | some t => T = some t
  | none => ∃ r, f.probe p v = .ok r ∧ T = r.timeline? ∧ (T = none ↔ r = .undefined)

/-- Where a single value arrives the answer of a search is right as it stands. -/
theorem Searchable.probe_of_single (h : f.Searchable) (hb : b ∈ f.blocks) {a : Option NodeId}
    (ha : ∀ c, Arrives f.preds (f.Decides v) b c → c = a) :
    ∃ r, f.probe b v = .ok r ∧ f.Shows v b r := by
  obtain ⟨G⟩ := h.graph
  obtain ⟨s, hsolve, hs⟩ := solve_ok (v := v) G hb
  have hnil := hs.surviving_of_single G h.tables ha
  obtain ⟨r, hr, hshows⟩ := hs.shows G h.tables hb (Built.nothing h.tables hnil) (c := s.created)
  refine ⟨r, ?_, hshows⟩
  rw [probe, probeStack, h.resolvable hb, ok_bind, hsolve, ok_bind]
  exact hr

theorem Fresh.sends (h : f.Fresh v b T) (hw : f.Searchable) (hb : b ∈ f.blocks) :
    f.Sends v b T := by
  rw [Sends]
  split
  next t he => exact h.eq hw hb (fresh_of_explicit? he)
  next he =>
  have hd : ¬ f.Decides v b := by rw [Decides, he]; simp
  obtain ⟨a, ha⟩ := h.arrives_eq hw hb hd
  obtain ⟨r, hr, hshows⟩ := hw.probe_of_single hb ha
  have hl : f.locals b v = [] := by
    by_contra hne
    exact hd (hw.tables.decides_iff.mpr (Or.inl hne))
  have hT := h.eq hw hb (hshows.fresh hw.tables hl)
  refine ⟨r, hr, hT, ?_⟩
  rw [hT]
  cases r with
  | undefined => simp [Resolution.timeline?]
  | timeline t => simp [Resolution.timeline?]
  | top t => simp [Resolution.timeline?]
  | join c => exact hshows.elim

/-- The nodes of a join stand for the predecessors of its block, each once, and are bound to
what these send. -/
structure Coherent (f : Func) (b : NodeId) (v : VarId) : Prop where
  preds : ((f.joinNodes b v).map fun n => (f.incomingAt n).pred).Perm (f.preds b)
  once : (f.preds b).Nodup
  sends : ∀ n ∈ f.joinNodes b v, f.Sends v (f.incomingAt n).pred (f.incomingAt n).target
  bound : ∀ n ∈ f.joinNodes b v, ∀ t, (f.incomingAt n).target = some t →
    ∃ x, f.timelines.get? t = some x ∧ x.var = v ∧ x.isEmpty = false ∧ f.attached x.block = true

theorem NodesFresh.coherent (h : f.NodesFresh) (hb : b ∈ f.blocks) (hne : f.joinNodes b v ≠ []) :
    f.Coherent b v where
  preds := by
    have hperm := h.complete hb hne
    rwa [feeds, List.map_map] at hperm
  once := h.searchable.forest.preds_nodup hb
  sends n hn := (h.fresh _ (Flow.mem_feeds hn)).sends h.searchable (h.pred_mem (Flow.mem_feeds hn))
  bound n hn t ht := by
    obtain ⟨-, ⟨hnone, -⟩ | ⟨u, d, hu, hd, hexp, -⟩⟩ := h.target_cases hn
    · rw [hnone] at ht
      cases ht
    · rw [hu] at ht
      cases ht
      obtain ⟨x, hx, hxb, hxv⟩ := h.searchable.tables.placed (timelineId?_of_explicit? hexp)
      have hempty := not_isEmpty_of_explicit? hexp
      rw [timelineAt_of_get? hx] at hempty
      exact ⟨x, hx, hxv, hempty, hxb ▸ h.searchable.forest.attached hd⟩

end Func

/-- After any run of edits and questions the nodes of every join are coherent. Verification
finds nothing but undefined uses, and a propagation of any timeline that decides the value
leaving its block binds no node and makes nothing. -/
theorem joins_stay_coherent {f g : Func} (h : f.Unjoined) (hrun : Runs f g) :
    (∀ b ∈ g.blocks, ∀ v, g.joinNodes b v ≠ [] → g.Coherent b v) ∧
    (∃ found, g.verify = .ok found ∧
      ∀ x ∈ found, ∃ partly b v u, x = .undefinedUse partly b v u) ∧
    ∀ b ∈ g.blocks, ∀ v t, g.explicit? b v = some t →
      ∃ m, Edit.propagate t none g = .ok 0 { g with memo := m } := by
  have hsound := hrun.sound h.sound
  refine ⟨fun b hb v hne => hsound.nodesFresh.coherent hb hne, ?_, fun b hb v t ht => ?_⟩
  · obtain ⟨found, hfound, hmem⟩ := hsound.nodesFresh.mem_verify
    refine ⟨found, hfound, fun x hx => ?_⟩
    obtain ⟨b, -, v, u, partly, rfl, -⟩ := (hmem x).mp hx
    exact ⟨partly, b, v, u, rfl⟩
  · obtain ⟨f', hrun', -, m, rfl⟩ := propagate_idle hsound hb ht
    exact ⟨m, hrun'⟩

/-- A definition in one branch of a fork has given the block behind it two nodes. -/
theorem joins_stay_coherent_behind_fork : ∃ i g r g',
    Edit.appendInst 5 .undef (some ⟨0, 1, "x", .bool, 0⟩) [] diamond = .ok i g ∧
    Edit.resolve ⟨0, 7, .block, "end"⟩ ⟨0, 1, "x", .bool, 0⟩ g = .ok r g' ∧
    g'.joinNodes 7 1 = [1, 2] ∧ g'.Coherent 7 1 := by
  have hcalls : Edit.passes (Edit.appendInst 5 .undef (some ⟨0, 1, "x", .bool, 0⟩) [])
    (fun _ g => decide (7 ∈ g.blocks) &&
      Edit.passes (Edit.resolve ⟨0, 7, .block, "end"⟩ ⟨0, 1, "x", .bool, 0⟩)
        (fun _ g' => decide (7 ∈ g'.blocks ∧ g'.joinNodes 7 1 = [1, 2])) g) diamond = true := by
    decide +kernel
  obtain ⟨i, g, happend, hrest⟩ := Edit.of_passes hcalls
  rw [Bool.and_eq_true, decide_eq_true_eq] at hrest
  obtain ⟨r, g', hresolve, hnodes⟩ := Edit.of_passes hrest.2
  obtain ⟨hb, hnodes⟩ := of_decide_eq_true hnodes
  have hrun : Runs diamond g' :=
    .tail (.single (.append (by decide) happend)) (.resolve hrest.1 hresolve)
  exact ⟨i, g, r, g', happend, hresolve, hnodes,
    (joins_stay_coherent diamond_unjoined hrun).1 7 hb 1 (by rw [hnodes]; simp)⟩

end

end DefFlow.Flow
