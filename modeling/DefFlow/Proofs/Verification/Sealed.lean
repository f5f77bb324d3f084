import DefFlow.Proofs.Resolution.Roots
import DefFlow.Proofs.Runs.Recall
import DefFlow.Proofs.Verification.Frozen

/-!
# What freezing loses and accepts

Freezing builds the joins that uses wait for. A question that needs another one finds the block
where it would be, and has no timeline to name. First main statement: then, and only then, a
position of a frozen function is said to see nothing although it saw a join before; every other
answer is the one from before, and before no definition that reaches a position was missed.

Second main statement: the nodes of a frozen function are live, and where all work has kept nodes
bound, each of them brings exactly the definitions that reach the end of its predecessor. Changes of
the tree by hand leave nodes stale, and so does a block before an entry that control comes back to;
freezing does not notice.
-/

set_option autoImplicit false

namespace DefFlow.Flow

open Func

section

variable {f g : Func} {b : NodeId} {v : VarId} {s : Stack} {t : TimelineId}

/-! ## Bindings and answers -/

namespace Func.UpToBindings

variable (h : f.UpToBindings g)

include h

theorem unlisted (t : TimelineId) : (g.timelineAt t).unlisted = (f.timelineAt t).unlisted := by
  rw [Func.timelineAt, Func.timelineAt, ← Option.getD_map Timeline.unlisted,
    ← Option.getD_map Timeline.unlisted, h.timelines]

theorem locals_at (t : TimelineId) : (g.timelineAt t).locals = (f.timelineAt t).locals :=
  congrArg (fun x => x.locals) (h.unlisted t)

theorem incoming_at (t : TimelineId) : (g.timelineAt t).incoming = (f.timelineAt t).incoming :=
  congrArg (fun x => x.incoming) (h.unlisted t)

theorem block_at (t : TimelineId) : (g.timelineAt t).block = (f.timelineAt t).block :=
  congrArg (fun x => x.block) (h.unlisted t)

theorem preds : g.preds = f.preds := by rw [h.rest]; rfl

theorem blocks : g.blocks = f.blocks := by rw [h.rest]; rfl

theorem hasParent (b : NodeId) : g.hasParent b = f.hasParent b := by rw [h.rest]; rfl

theorem timelineId? (b : NodeId) (v : VarId) : g.timelineId? b v = f.timelineId? b v := by
  rw [h.rest]
  rfl

theorem held (b : NodeId) (v : VarId) : g.held b v = f.held b v := by
  rw [Func.held, Func.held, Func.timeline?, Func.timeline?, h.timelineId?]
  cases f.timelineId? b v with
  | none => rfl
  | some t =>
    have ht := h.timelines t
    rw [Option.bind_some, Option.bind_some]
    cases hx : f.timelines.get? t with
    | none =>
      rw [hx, Option.map_none, Option.map_eq_none_iff] at ht
      rw [ht]
    | some x =>
      rw [hx, Option.map_some, Option.map_eq_some_iff] at ht
      obtain ⟨y, hy, hyx⟩ := ht
      rw [hy]
      exact congrArg (fun x => x.locals) hyx

theorem explicit? (b : NodeId) (v : VarId) : g.explicit? b v = f.explicit? b v := by
  simp only [Func.explicit?, h.timelineId?, Timeline.explicit, Timeline.isEmpty, h.locals_at,
    h.incoming_at]

theorem joined? (b : NodeId) (v : VarId) : g.joined? b v = f.joined? b v := by
  simp only [Func.joined?, h.timelineId?, h.incoming_at]

theorem sameView : SameView f g :=
  ⟨h.blocks, h.preds, h.explicit?, h.joined?, fun b v => locals_of_held (h.held b v)⟩

theorem solve (b : NodeId) (v : VarId) : g.solve b v = f.solve b v :=
  solve_congr h.preds h.explicit? h.joined? (by rw [h.rest]) (by rw [h.rest]) b v

theorem latestDefBefore? (b : NodeId) (n : Nat) (v : VarId) :
    g.latestDefBefore? b n v = f.latestDefBefore? b n v := by
  have hindex : g.indexOf = f.indexOf := by rw [h.rest]; rfl
  rw [latestDefBefore?_eq_held, latestDefBefore?_eq_held, h.held, lastBefore, lastBefore, hindex]

theorem sightOf_reachingOf (r : Resolution) :
    g.sightOf (Edit.reachingOf g r) = f.sightOf (Edit.reachingOf f r) := by
  cases r with
  | timeline t =>
    rw [Edit.reachingOf, Edit.reachingOf, Edit.leaving, Edit.leaving, h.locals_at]
    cases (f.timelineAt t).locals.getLast? with
    | some l => rfl
    | none => rw [sightOf, sightOf, h.block_at]
  | top t => rw [Edit.reachingOf, Edit.reachingOf, sightOf, sightOf, h.block_at]
  | _ => rfl

end Func.UpToBindings

/-! ## What a frozen function remembers -/

def Func.Admits (f : Func) (b : NodeId) (v : VarId) (s : Stack) : Prop :=
  (b ∈ f.blocks → ∃ r, s.resolution f = .ok r ∧ f.Tells v b r) ∨ f.solve b v = .ok s

structure Func.Seals (f g : Func) : Prop extends f.UpToBindings g where
  admits : ∀ {b v s}, g.memo.lookup ⟨b, v, false⟩ = some s → f.Admits b v s

theorem Func.Seals.spares (f : Func) : SparesBindings f.Seals := by
  intro k k' hk hbinds hmemo
  refine ⟨hk.toUpToBindings.trans hbinds, fun {b v s} hs => ?_⟩
  rcases hmemo with hm | hm
  · exact hk.admits (hm ▸ hs)
  · rw [hm] at hs
    cases hs

theorem answer_seals (hf : f.frozen = true) (q : Question) :
    Edit.Upholds f.Seals (Edit.answer q) := by
  intro k hk
  rcases answer_outcome (q := q) (f := k) (by rw [hk.frozen.trans hf, Bool.or_true]) with
    h | ⟨s, -, hs, h⟩
  · rw [h]
    exact hk
  rw [h]
  refine ⟨hk.toUpToBindings.upToMemo rfl, fun {c w s'} hs' => ?_⟩
  rcases of_lookup_cons hs' with ⟨rfl, rfl⟩ | ⟨-, hs'⟩
  · exact Or.inr ((hk.solve c w).symm.trans hs)
  · exact hk.admits hs'

theorem Func.Seals.serve (h : f.Seals g) (hf : f.frozen = true) (r : Request) :
    f.Seals (r.serve g) := by
  cases hr : r.rebinds with
  | true => exact Request.rebinds_upholds (Seals.spares f) hr g h
  | false =>
  cases ha : r.asks with
  | true => exact Request.asks_upholds (answer_seals hf) ha g h
  | false =>
    obtain ⟨op, why, hrun, -⟩ := Request.edits_refused (r := r) (by rw [Request.edits, ha, hr]; rfl)
      (h.frozen.trans hf)
    rw [Request.serve, Edit.outcome_error hrun]
    exact h

theorem Func.Seals.serveAll (h : f.Seals g) (hf : f.frozen = true) (rs : List Request) :
    f.Seals (Request.serveAll g rs) := by
  induction rs generalizing g with
  | nil => exact h
  | cons r rs ih => exact ih (h.serve hf r)

/-! ## Asking a frozen function -/

/-- A question is answered by what the block sees, or by the join that it would see if it were
there. -/
theorem Func.Seals.resolveAt (h : f.Seals g) (hf : f.Forest) (ht : f.Tables)
    (hfrozen : f.frozen = true) (hb : b ∈ f.blocks) (v : VarId) :
    ∃ r g', Edit.resolveAt b v g = .ok r g' ∧ f.UpToBindings g' ∧
      (f.Tells v b r ∨ ∃ k, r = .join k ∧ f.view v b = .join k ∧ f.joined? k v = none) := by
  have hparent : g.resolvable b = .ok () := by
    rw [resolvable, h.hasParent, if_pos (hf.hasParent hb)]
  obtain ⟨s, hs, hsol, hfine⟩ := solve_finest hf.net (Solution.placed ht) (v := v) hb
  obtain ⟨r, hr, hcases⟩ := hsol.tells_or_unbuilt hf ht hb hfine
  have answer : ∀ {s : Stack} {k : Func} {r : Resolution}, Edit.stackAt b v g = .ok s k →
      f.UpToBindings k → s.resolution f = .ok r → Edit.resolveAt b v g = .ok r k := by
    intro s k r hrun hk hr
    rw [Edit.resolveAt, Edit.bind_eq hrun]
    exact Edit.ask_eq (hk.sameView.resolution hr)
  cases hm : g.memo.lookup ⟨b, v, false⟩ with
  | some s' =>
    have hrun := Edit.stackAt_of_memo hparent hm
    rcases h.admits hm with hright | hsolved
    · obtain ⟨r', hr', htells⟩ := hright hb
      exact ⟨r', g, answer hrun h.toUpToBindings hr', h.toUpToBindings, Or.inl htells⟩
    · rw [hs, Except.ok.injEq] at hsolved
      exact ⟨r, g, answer hrun h.toUpToBindings (hsolved ▸ hr), h.toUpToBindings, hcases⟩
  | none =>
    have hrun := Edit.stackAt_of_solve hparent (h.frozen.trans hfrozen) hm
      ((h.solve b v).trans hs)
    have hk : f.UpToBindings { g with memo := (⟨b, v, false⟩, s) :: g.memo } :=
      h.toUpToBindings.upToMemo rfl
    exact ⟨r, _, answer hrun hk hr, hk, hcases⟩

/-- What is remembered when a function is frozen is right. -/
theorem Func.Ready.seals (h : f.Ready) :
    ({ f with frozen := true } : Func).Seals { f with frozen := true } :=
  have hsame := sameRecords_frozen f
  have hview : SameView f { f with frozen := true } :=
    ⟨rfl, rfl, hsame.explicit?, hsame.joined?, hsame.locals⟩
  ⟨.refl _, fun hs => Or.inl fun hb => by
    obtain ⟨r, hr, htells⟩ := tells_of_memo h.retells h.forest h.unfrozen hs hb
    exact ⟨r, hview.resolution hr, hview.tells (hview.view h.forest h.forest.frozen h.tables
      (hsame.tables h.tables) hb) rfl htells⟩⟩

/-! ## Before and after -/

@[simp]
theorem sightOf_eq_nothing {r : Reaching} : f.sightOf r = .nothing ↔ r = .undefined := by
  cases r <;> simp [sightOf]

/-- Whether a function is frozen makes no difference to what a position sees. -/
theorem Func.Ready.viewAt_frozen (h : f.Ready) (hb : b ∈ f.blocks) (position : Nat) :
    ({ f with frozen := true } : Func).viewAt v b position = f.viewAt v b position := by
  have hsame := sameRecords_frozen f
  have hview : SameView f { f with frozen := true } :=
    ⟨rfl, rfl, hsame.explicit?, hsame.joined?, hsame.locals⟩
  rw [viewAt, viewAt, hview.view h.forest h.forest.frozen h.tables (hsame.tables h.tables) hb]
  rfl

theorem Func.WellFormed.viewAt_ne_nothing (h : f.WellFormed) (hb : b ∈ f.blocks)
    {position : Nat} {i : InstId}
    (hreach : f.Reaches v b position (some i)) : f.viewAt v b position ≠ .nothing := by
  rw [viewAt]
  cases hlatest : f.latestDefBefore? b position v with
  | some j =>
    intro hnone
    cases hnone
  | none =>
    obtain ⟨c, -, harrives⟩ := arrives_of_reaches h.scheduled h.forest hlatest hreach
    exact view_ne_nothing h.forest h.linked.tables hb harrives

/-- A frozen function says what a position sees, or nothing where a join would have to be
built. -/
theorem Func.Seals.reachingAt (h : f.Seals g) (hf : f.Forest) (ht : f.Tables)
    (hfrozen : f.frozen = true) {c : ComponentRef} {x : Variable} (hc : c.owner = f.handle)
    (hx : x.owner = f.handle) (hb : c.id ∈ f.blocks) (position : Nat) :
    ∃ r g', Edit.reachingAt c position x g = .ok r g' ∧
      (g'.sightOf r = f.viewAt x.id c.id position ∨
        ∃ k, f.latestDefBefore? c.id position x.id = none ∧ Edit.resolve c x g = .ok (.join k) g' ∧
          r = .undefined ∧ f.viewAt x.id c.id position = .join k) := by
  rw [Edit.reachingAt, Edit.bind_eq Edit.get_eq, h.latestDefBefore?, viewAt]
  cases f.latestDefBefore? c.id position x.id with
  | some i => exact ⟨.defined i, g, rfl, Or.inl rfl⟩
  | none =>
    obtain ⟨r, g', hrun, hg', hcases⟩ := h.resolveAt hf ht hfrozen hb x.id
    have hresolve : Edit.resolve c x g = .ok r g' := by
      rw [Edit.resolve, Edit.bind_eq (ownQuery_eq (hc.trans h.handle.symm)
          (hx.trans h.handle.symm)),
        hrun]
    refine ⟨Edit.reachingOf g' r, g', ?_, ?_⟩
    · dsimp only
      rw [Edit.bind_eq hresolve]
      rfl
    · rcases hcases with htells | ⟨k, rfl, hview, -⟩
      · exact Or.inl ((hg'.sightOf_reachingOf r).trans htells.sight)
      · exact Or.inr ⟨k, rfl, hresolve, rfl, hview⟩

/-- Whatever has been asked of a function since it was frozen, and however its nodes have been
bound, it answers as before for every position of its body, except where the answer is a join
that has not been built: there it says that nothing reaches. Before it was frozen it never said so
of a position that a definition reaches along some path. -/
theorem frozen_answers_but_unbuilt_joins {f₀ f : Func} {u : Unit} (h : Reached f₀)
    (hfreeze : Edit.freeze f₀ = .ok u f) (rs : List Request) {c : ComponentRef} {x : Variable}
    (hc : c.owner = f₀.handle) (hx : x.owner = f₀.handle) (hb : c.id ∈ f₀.blocks) (position : Nat) :
    ∃ r₀ g₀ r g, Edit.reachingAt c position x f₀ = .ok r₀ g₀ ∧
      Edit.reachingAt c position x (Request.serveAll f rs) = .ok r g ∧
      (∀ i, f₀.Reaches x.id c.id position (some i) → r₀ ≠ .undefined) ∧
      ((g.sightOf r = g₀.sightOf r₀ ∧ (r = .undefined ↔ r₀ = .undefined)) ∨
        ∃ k, Edit.resolve c x (Request.serveAll f rs) = .ok (.join k) g ∧
          r = .undefined ∧ g₀.sightOf r₀ = .join k) := by
  have hready := h.ready (Edit.unfrozen_bind_ok hfreeze).1
  obtain ⟨n, f₁, hall, -, rfl⟩ := freeze_ok hfreeze
  have ha := hready.resolveAll hall
  obtain ⟨r₀, g₀, hrun₀, -, hsight₀⟩ := hready.reachingAt hc hx hb position
  have hb₁ : c.id ∈ f₁.blocks := ha.keeps.blocks ▸ hb
  have hseals := ha.ready.seals.serveAll rfl rs
  obtain ⟨r, g, hrun, hcases⟩ := hseals.reachingAt ha.ready.forest.frozen
    ((sameRecords_frozen f₁).tables ha.ready.tables) rfl (hc.trans ha.keeps.handle.symm)
    (hx.trans ha.keeps.handle.symm) hb₁ position
  rw [ha.ready.viewAt_frozen hb₁, ha.viewAt hb, ← hsight₀] at hcases
  refine ⟨r₀, g₀, r, g, hrun₀, hrun, fun i hi hr => ?_, ?_⟩
  · rw [← sightOf_eq_nothing (f := g₀), hsight₀] at hr
    exact h.wellFormed.viewAt_ne_nothing hb hi hr
  · refine hcases.imp (fun hsight => ⟨hsight, ?_⟩) fun ⟨k, _, hresolve, hr, hk⟩ =>
        ⟨k, hresolve, hr, hk⟩
    rw [← sightOf_eq_nothing (f := g), ← sightOf_eq_nothing (f := g₀), hsight]

def unusedDiamond : List Request := sealedDiamond.dropLast

theorem unusedDiamond_loses : ∃ f₀ f r₀ g₀ r g, Reached f₀ ∧ Edit.freeze f₀ = .ok () f ∧
    Edit.reachingAt ⟨0, 7, .block, "join"⟩ 0 ⟨0, 1, "x", .int 64, 0⟩ f₀ = .ok r₀ g₀ ∧
    Edit.reachingAt ⟨0, 7, .block, "join"⟩ 0 ⟨0, 1, "x", .int 64, 0⟩ f = .ok r g ∧
    r = .undefined ∧ ∃ k, g₀.sightOf r₀ = .join k := by
  let c : ComponentRef := ⟨0, 7, .block, "join"⟩
  let x : Variable := ⟨0, 1, "x", .int 64, 0⟩
  obtain ⟨f₀, hf₀, hpass⟩ := Reached.exists_of_requests 0 "f" unusedDiamond
    (fun f₀ => decide (7 ∈ f₀.blocks ∧ f₀.handle = 0) &&
      (Edit.passes (Edit.reachingAt c 0 x) (fun r _ => decide (r ≠ .undefined)) f₀ &&
        Edit.passes Edit.freeze (fun _ f =>
          Edit.passes (Edit.reachingAt c 0 x) (fun r _ => decide (r = .undefined)) f) f₀))
    (by decide +kernel)
  rw [Bool.and_eq_true, Bool.and_eq_true, decide_eq_true_eq] at hpass
  obtain ⟨⟨hb, hown⟩, hbefore, hafter⟩ := hpass
  obtain ⟨r₀', g₀', hrun₀', hne⟩ := Edit.of_passes hbefore
  obtain ⟨_, f, hfreeze, hafter⟩ := Edit.of_passes hafter
  obtain ⟨r', g', hrun', hundef⟩ := Edit.of_passes hafter
  obtain ⟨r₀, g₀, r, g, hrun₀, hrun, -, hcases⟩ := frozen_answers_but_unbuilt_joins hf₀ hfreeze []
    (c := c) (x := x) hown.symm hown.symm hb 0
  cases hrun₀'.symm.trans hrun₀
  cases hrun'.symm.trans hrun
  refine ⟨f₀, f, r₀', g₀', r', g', hf₀, hfreeze, hrun₀, hrun, of_decide_eq_true hundef, ?_⟩
  rcases hcases with ⟨-, hiff⟩ | ⟨k, -, -, hk⟩
  · exact absurd (hiff.mp (of_decide_eq_true hundef)) (of_decide_eq_true hne)
  · exact ⟨k, hk⟩

end

/-! ## What freezing accepts -/

section

variable {f : Func} {v : VarId} {b : NodeId}

theorem Expands.frozen {r : Reaching} {d : Option InstId} {a : Bool} (h : Expands f r d) :
    Expands { f with frozen := a } r d := by
  induction h with
  | undefined => exact .undefined
  | defined i => exact .defined i
  | unbound hn ht => exact .unbound hn ht
  | bound hn ht _ ih => exact .bound hn ht ih

theorem expands_frozen_iff {r : Reaching} {d : Option InstId} {a : Bool} :
    Expands { f with frozen := a } r d ↔ Expands f r d :=
  ⟨fun h => h.frozen (a := f.frozen), fun h => h.frozen⟩

theorem expandsTarget_frozen_iff {T : Option TimelineId} {d : Option InstId} {a : Bool} :
    ExpandsTarget { f with frozen := a } d T ↔ ExpandsTarget f d T := by
  cases T with
  | none => exact Iff.rfl
  | some t => exact expands_frozen_iff

/-- A frozen function still has its tree, its edges and its code. -/
theorem Func.Sound.reaches_end_frozen (h : f.Sound) (hb : b ∈ f.blocks) (d : Option InstId) :
    ({ f with frozen := true } : Func).Reaches v b (f.code b).length d ↔
      ∃ a, Departs f.preds (f.Defining v) b a ∧ d = a.bind (f.lastDef v) := by
  have hf := h.nodesFresh.searchable.forest
  have hforest : ({ f with frozen := true } : Func).Forest :=
    ⟨hf.held, hf.nodup, hf.bounded, hf.stored⟩
  have hscheduled : ({ f with frozen := true } : Func).Scheduled :=
    ⟨h.scheduled.place, h.scheduled.home, h.scheduled.phis, h.scheduled.locals⟩
  exact reaches_end_iff hscheduled hforest h.nodesFresh.searchable.enters hb d

/-- A function that freezing accepts has live nodes only, one for each predecessor of a join,
whatever has been done to it. If it once had no nodes, with nothing leading to its entry, and all
work since then has left the tree and the nodes to splitting, flattening and the calls that keep
nodes bound, on blocks of the body only, then each node brings exactly the definitions that reach
the end of its predecessor, and nothing if it is unbound. -/
theorem freeze_accepts {g g' : Func} {u : Unit} (hfreeze : Edit.freeze g = .ok u g') :
    (∀ b ∈ g'.blocks, ∀ e ∈ (g'.blockAt b).timelines, g'.Live b e.2) ∧
    ∀ f : Func, f.Unjoined → Relation.ReflTransGen MaintainsJoins f g →
      ∀ b ∈ g'.blocks, ∀ v, ∀ n ∈ g'.joinNodes b v, ∀ d,
        ExpandsTarget g' d (g'.incomingAt n).target ↔
          g'.Reaches v (g'.incomingAt n).pred (g'.code (g'.incomingAt n).pred).length d := by
  obtain ⟨n, f₁, hresolve, hverify, rfl⟩ := freeze_ok hfreeze
  constructor
  · intro b hb e he
    have hlive := live_of_verify hverify hb he
    exact ⟨hlive.edge, hlive.complete, hlive.target⟩
  · intro f hf hwork b hb v n hn d
    have hsound := (resolveAll_sound (MaintainsJoins.run_sound hwork hf.sound) hresolve).1
    have he : ((f₁.incomingAt n).pred, (f₁.incomingAt n).target) ∈ f₁.feeds b v := mem_feeds hn
    have hp := hsound.nodesFresh.pred_mem he
    rw [expandsTarget_frozen_iff]
    exact (hsound.nodesFresh.expandsTarget_iff hp (hsound.nodesFresh.fresh _ he) d).trans
      (hsound.reaches_end_frozen hp d).symm

/-- The diamond with a definition in one branch, resolved where the branches meet. -/
theorem freeze_accepts_behind_fork : ∃ i g r g' u h,
    Edit.appendInst 5 .undef (some ⟨0, 1, "x", .bool, 0⟩) [] diamond = .ok i g ∧
    Edit.resolve ⟨0, 7, .block, "end"⟩ ⟨0, 1, "x", .bool, 0⟩ g = .ok r g' ∧
    Edit.freeze g' = .ok u h ∧ h.joinNodes 7 1 = [1, 2] ∧
    ∀ n ∈ h.joinNodes 7 1, ∀ d, ExpandsTarget h d (h.incomingAt n).target ↔
      h.Reaches 1 (h.incomingAt n).pred (h.code (h.incomingAt n).pred).length d := by
  have hcalls : Edit.passes (Edit.appendInst 5 .undef (some ⟨0, 1, "x", .bool, 0⟩) [])
    (fun _ g => decide (7 ∈ g.blocks) &&
      Edit.passes (Edit.resolve ⟨0, 7, .block, "end"⟩ ⟨0, 1, "x", .bool, 0⟩)
        (fun _ g' => Edit.passes Edit.freeze
          (fun _ h => decide (7 ∈ h.blocks ∧ h.joinNodes 7 1 = [1, 2])) g') g) diamond = true := by
    decide +kernel
  obtain ⟨i, g, happend, hrest⟩ := Edit.of_passes hcalls
  rw [Bool.and_eq_true, decide_eq_true_eq] at hrest
  obtain ⟨r, g', hresolve, hrest'⟩ := Edit.of_passes hrest.2
  obtain ⟨u, h, hfreeze, hnodes⟩ := Edit.of_passes hrest'
  obtain ⟨hb, hnodes⟩ := of_decide_eq_true hnodes
  have hwork : Relation.ReflTransGen MaintainsJoins diamond g' :=
    .tail (.single (.call (.append (by decide) happend))) (.call (.resolve hrest.1 hresolve))
  exact ⟨i, g, r, g', u, h, happend, hresolve, hfreeze, hnodes,
    fun n hn d => (freeze_accepts hfreeze).2 diamond diamond_unjoined hwork 7 hb 1 n hn d⟩

end

/-! ## What freezing does not notice -/

/-- A definition is put in front of a fork behind which a join has been built already. -/
def staleInsertion : Edit Unit := do
  let x ← Edit.addVariable "x" .bool
  let first ← Edit.newBlock "first"
  let left ← Edit.newBlock "left"
  let right ← Edit.newBlock "right"
  let fork ← Edit.newFork none [← Edit.refTo left, ← Edit.refTo right]
  let last ← Edit.newBlock "last"
  Edit.appendElement 2 (← Edit.refTo first)
  Edit.appendElement 2 (← Edit.refTo fork)
  Edit.appendElement 2 (← Edit.refTo last)
  let _ ← Edit.appendInst first .undef (some x) []
  let _ ← Edit.appendInst left .undef (some x) []
  let _ ← Edit.resolve (← Edit.refTo last) x
  let new ← Edit.newBlock "new"
  let _ ← Edit.appendInst new .undef (some x) []
  Edit.insertElement 2 1 (← Edit.refTo new)
  Edit.freeze

/-- The only definition that comes into a join is removed, and another join is bound to it. -/
def emptiedJoin : Edit Unit := do
  let x ← Edit.addVariable "x" .bool
  let left ← Edit.newBlock "left"
  let right ← Edit.newBlock "right"
  let fork ← Edit.newFork none [← Edit.refTo left, ← Edit.refTo right]
  let left' ← Edit.newBlock "left"
  let right' ← Edit.newBlock "right"
  let fork' ← Edit.newFork none [← Edit.refTo left', ← Edit.refTo right']
  let last ← Edit.newBlock "last"
  Edit.appendElement 2 (← Edit.refTo fork)
  Edit.appendElement 2 (← Edit.refTo fork')
  Edit.appendElement 2 (← Edit.refTo last)
  let i ← Edit.appendInst left .undef (some x) []
  let _ ← Edit.appendInst left' .undef (some x) []
  let _ ← Edit.resolve (← Edit.refTo last) x
  Edit.removeInst left ⟨0, i⟩
  Edit.freeze

/-- The body is a loop whose condition control comes back to. Closing the undefined paths of one
variable puts a block before it, and a join of another one is left as it was. -/
def enteredLoop : Edit Unit := do
  let x ← Edit.addVariable "x" .bool
  let y ← Edit.addVariable "y" .bool
  let inner ← Edit.newBlock "inner"
  let update ← Edit.newBlock "update"
  let body ← Edit.newBlock "body"
  let loop ← Edit.newLoop none (← Edit.refTo inner) (← Edit.refTo body) (← Edit.refTo update) none
  let branch ← Edit.newBlock "branch"
  let fork ← Edit.newFork (← Edit.refTo branch) [← Edit.refTo loop]
  let outer ← Edit.newBlock "outer"
  let around ← Edit.newLoop none (← Edit.refTo outer) (← Edit.refTo fork) none none
  Edit.appendElement 2 (← Edit.refTo around)
  let _ ← Edit.appendInst body .undef (some y) []
  let _ ← Edit.appendInst inner .undef (some y) []
  let _ ← Edit.appendInst body .print none [.var x]
  let _ ← Edit.appendInst branch .print none [.var y]
  let _ ← Edit.resolve (← Edit.refTo inner) y
  let _ ← Edit.defineUndefined
  let _ ← Edit.resolveAll
  let _ ← Edit.appendInst outer .undef (some y) []
  Edit.freeze

section

variable {f : Func} {b : NodeId} {v : VarId}

theorem quiet_of_code_nil (hb : f.code b = []) (i j : Nat) : f.Quiet v b i j := by
  intro k _ _ x hx
  rw [hb] at hx
  cases hx

/-- A path that starts where no edge leads elsewhere stays there. -/
theorem path_stays {within : List NodeId} (hclosed : ∀ c ∈ within, ∀ s ∈ f.succs c, s ∈ within)
    {x y : NodeId × Nat} (h : f.Path v x y) (hx : x.1 ∈ within) : y.1 ∈ within := by
  induction h with
  | within _ _ _ => exact hx
  | along _ hc _ _ ih => exact hclosed _ (ih hx) _ hc

end

theorem staleInsertion_accepted : ∃ u g, staleInsertion (Func.new 0 "f") = .ok u g ∧
    8 ∈ g.blocks ∧ ∃ n ∈ g.joinNodes 8 1, ∃ d,
      g.Reaches 1 (g.incomingAt n).pred (g.code (g.incomingAt n).pred).length (some d) ∧
        ¬ ExpandsTarget g (some d) (g.incomingAt n).target := by
  have hrun : Edit.passes staleInsertion (fun _ g => decide (8 ∈ g.blocks ∧ 9 ∈ g.blocks ∧
      2 ∈ g.joinNodes 8 1 ∧ (g.incomingAt 2).pred = 5 ∧
      (g.incomingAt 2).target = some 1 ∧ Edit.leaving g 1 = .defined 1 ∧ g.code 9 = [3] ∧
      g.defines 1 3 = true ∧ g.succs 9 = [6] ∧ g.code 6 = [] ∧ g.succs 6 = [4, 5] ∧
      g.code 5 = [])) (Func.new 0 "f") = true := by
    decide +kernel
  obtain ⟨u, g, hrun, hfacts⟩ := Edit.of_passes hrun
  obtain ⟨h8, h9, hn, hpred, htarget, hleaving, hcode, hdef, hs9, hc6, hs6, hc5⟩ :=
    of_decide_eq_true hfacts
  refine ⟨u, g, hrun, h8, 2, hn, 3, ?_, ?_⟩
  · rw [hpred]
    refine ⟨9, h9, 0, by rw [hcode]; rfl, hdef, ?_⟩
    refine .along (.along (.within ?_ ?_ ?_) ?_ ?_ (quiet_of_code_nil hc6 _ _)) ?_ ?_
      (quiet_of_code_nil hc5 _ _)
    · rw [hcode]; decide
    · exact Nat.le_refl _
    · rw [hcode]
      intro k hk hk'
      simp at hk'
      omega
    · rw [hs9]; decide
    · exact Nat.le_refl _
    · rw [hs6]; decide
    · exact Nat.le_refl _
  · rw [htarget, ExpandsTarget, hleaving]
    rintro ⟨⟩

theorem emptiedJoin_accepted : ∃ u g, emptiedJoin (Func.new 0 "f") = .ok u g ∧ 11 ∈ g.blocks ∧
    ∃ n ∈ g.joinNodes 11 1, (g.incomingAt n).target ≠ none ∧
      ∀ d, ¬ g.Reaches 1 (g.incomingAt n).pred (g.code (g.incomingAt n).pred).length (some d) := by
  have hrun : Edit.passes emptiedJoin (fun _ g => decide (11 ∈ g.blocks ∧
      4 ∈ g.joinNodes 11 1 ∧ (g.incomingAt 4).pred = 8 ∧ (g.incomingAt 4).target ≠ none ∧
      (∀ c ∈ g.blocks, c ≠ 7 → g.code c = []) ∧ g.succs 7 = [11] ∧ g.succs 11 = []))
      (Func.new 0 "f") = true := by
    decide +kernel
  obtain ⟨u, g, hrun, hfacts⟩ := Edit.of_passes hrun
  obtain ⟨h11, hn, hpred, htarget, hcode, hs7, hs11⟩ := of_decide_eq_true hfacts
  refine ⟨u, g, hrun, h11, 4, hn, htarget, ?_⟩
  rintro d ⟨c, hc, k, hk, -, hpath⟩
  have h7 : c = 7 := by
    by_contra hne
    rw [hcode c hc hne] at hk
    cases hk
  rw [hpred] at hpath
  have hclosed : ∀ c ∈ [7, 11], ∀ s ∈ g.succs c, s ∈ [7, 11] := by simp [hs7, hs11]
  have hstays := path_stays hclosed hpath (by simp [h7])
  simp at hstays

theorem enteredLoop_accepted : ∃ u g, enteredLoop (Func.new 0 "f") = .ok u g ∧ 3 ∈ g.blocks ∧
    ∃ n ∈ g.joinNodes 3 2, ∃ d,
      g.Reaches 2 (g.incomingAt n).pred (g.code (g.incomingAt n).pred).length (some d) ∧
        ¬ ExpandsTarget g (some d) (g.incomingAt n).target := by
  have hrun : Edit.passes enteredLoop (fun _ g => decide (3 ∈ g.blocks ∧ 11 ∈ g.blocks ∧
      1 ∈ g.joinNodes 3 2 ∧ (g.incomingAt 1).pred = 9 ∧ (g.incomingAt 1).target = some 2 ∧
      Edit.leaving g 2 = .defined 2 ∧ g.code 11 = [6] ∧ g.defines 2 6 = true ∧
      9 ∈ g.succs 11 ∧ g.code 9 = [4] ∧ g.defines 2 4 = false)) (Func.new 0 "f") = true := by
    decide +kernel
  obtain ⟨u, g, hrun, hfacts⟩ := Edit.of_passes hrun
  obtain ⟨h3, h11, hn, hpred, htarget, hleaving, hcode, hdef, hs11, hc9, huse⟩ :=
    of_decide_eq_true hfacts
  refine ⟨u, g, hrun, h3, 1, hn, 6, ?_, ?_⟩
  · rw [hpred]
    refine ⟨11, h11, 0, by rw [hcode]; rfl, hdef, ?_⟩
    refine .along (.within ?_ ?_ ?_) hs11 (Nat.le_refl _) ?_
    · rw [hcode]; decide
    · exact Nat.le_refl _
    · rw [hcode]
      intro k hk hk'
      simp at hk'
      omega
    · intro k _ hk x hx
      rw [hc9] at hk hx
      obtain rfl : k = 0 := by simpa using hk
      cases hx
      simpa using huse
  · rw [htarget, ExpandsTarget, hleaving]
    rintro ⟨⟩

theorem freeze_accepts_stale_nodes :
    (∃ u g, staleInsertion (Func.new 0 "f") = .ok u g ∧ 8 ∈ g.blocks ∧ ∃ n ∈ g.joinNodes 8 1,
      ∃ d, g.Reaches 1 (g.incomingAt n).pred (g.code (g.incomingAt n).pred).length (some d) ∧
        ¬ ExpandsTarget g (some d) (g.incomingAt n).target) ∧
    (∃ u g, emptiedJoin (Func.new 0 "f") = .ok u g ∧ 11 ∈ g.blocks ∧ ∃ n ∈ g.joinNodes 11 1,
      (g.incomingAt n).target ≠ none ∧
        ∀ d, ¬ g.Reaches 1 (g.incomingAt n).pred (g.code (g.incomingAt n).pred).length (some d)) ∧
    ∃ u g, enteredLoop (Func.new 0 "f") = .ok u g ∧ 3 ∈ g.blocks ∧ ∃ n ∈ g.joinNodes 3 2,
      ∃ d, g.Reaches 2 (g.incomingAt n).pred (g.code (g.incomingAt n).pred).length (some d) ∧
        ¬ ExpandsTarget g (some d) (g.incomingAt n).target :=
  ⟨staleInsertion_accepted, emptiedJoin_accepted, enteredLoop_accepted⟩

end DefFlow.Flow
