import DefFlow.Proofs.Edits.Firm
import DefFlow.Proofs.Resolution.Roots
import DefFlow.Proofs.Runs.Trees

/-!
# What every run keeps

One step: a live request that is granted leaves a well-formed function well-formed, whatever it
asks for, and what the function remembers about a block of any tree stays right. From the empty
function on, every function that is reached is well-formed. So every search ends in it, and the two
directions of each link between blocks, timelines and nodes agree.
-/

set_option autoImplicit false

namespace DefFlow.Flow

open Func Component

/-! ## Edits of the trees -/

def Func.Blank (f : Func) : Prop := f.memo = []

def Func.Unmoved (f g : Func) : Prop :=
  g.Blank ∨ ∃ new : List Component, g.trees = f.trees ++ new ∧ ∀ d ∈ new, d.Edgeless

section

variable {f : Func}

theorem Func.Unmoved.refl (f : Func) : f.Unmoved f :=
  Or.inr ⟨[], (List.append_nil _).symm, fun _ hd => nomatch hd⟩

theorem Func.Unmoved.append {k g : Func} {d : Component} (hk : f.Unmoved k) (hd : d.Edgeless)
    (hmemo : g.memo = k.memo) (hbody : g.body = k.body)
    (hdetached : g.detached = k.detached ++ [d]) : f.Unmoved g := by
  refine hk.imp (fun hm => hmemo.trans hm) fun ⟨new, htrees, hnew⟩ => ⟨new ++ [d], ?_, ?_⟩
  · have hg : g.trees = k.trees ++ [d] := by rw [trees, trees, hbody, hdetached, List.cons_append]
    rw [hg, htrees, List.append_assoc]
  · intro e he
    rcases List.mem_append.mp he with he | he
    · exact hnew e he
    · exact List.mem_singleton.mp he ▸ hd

theorem Func.Unmoved.touching : Touching f.Unmoved Blank where
  weak hk := Or.inl hk
  touch _ _ _ _ := rfl
  free _ _ _ hk := hk

theorem Func.Unmoved.growing : Growing f.Unmoved where
  skip hk := hk
  grow _ _ _ hd hk := hk.append hd rfl rfl rfl

theorem Request.unmoved {r : Request} (hr : r.reshapes = true) : Edit.Upholds f.Unmoved r.run :=
  reshapes_upholds Unmoved.touching Unmoved.growing hr

end

/-! ## Answers that stay right -/

section

variable {f f' : Func} {b : NodeId} {v : VarId} {t : TimelineId} {new : List Component}

theorem preds_append (h : f'.trees = f.trees ++ new) (hnew : ∀ d ∈ new, d.Edgeless) :
    f'.preds = f.preds := by
  funext x
  rw [preds, preds, h, List.findSome?_append]
  cases f.trees.findSome? fun c => c.predsIn x [] with
  | some l => rfl
  | none =>
    cases hfind : new.findSome? fun c => c.predsIn x [] with
    | none => rfl
    | some l =>
      obtain ⟨d, hd, hl⟩ := List.exists_of_findSome?_eq_some hfind
      rcases (hnew d hd).preds x with hx | hx
      · rw [hx] at hl
        cases hl
      · rw [hx] at hl
        cases hl
        rfl

/-- A block with a parent stands in one of the old trees, and had a parent there. -/
theorem hasParent_append (hf : f.Forest) (hf' : f'.Forest) (h : f'.trees = f.trees ++ new)
    (hnew : ∀ d ∈ new, d.Edgeless) (hb : b ∈ blocksAll f'.trees) (hp : f'.hasParent b = true) :
    b ∈ blocksAll f.trees ∧ f.hasParent b = true := by
  have hdetached : f'.detached = f.detached ++ new := (List.cons.inj h).2
  rw [hf'.hasParent_iff (mem_idsAll_of_mem_blocksAll hb), hdetached, List.map_append,
    List.mem_append, not_or] at hp
  obtain ⟨d, hd, hbd⟩ := mem_blocksAll.mp hb
  rw [h, List.mem_append] at hd
  have hold : b ∈ blocksAll f.trees := by
    rcases hd with hd | hd
    · exact mem_blocksAll.mpr ⟨d, hd, hbd⟩
    · exact absurd (List.mem_map.mpr ⟨d, hd, ((hnew d hd).blocks b hbd).symm⟩) hp.2
  exact ⟨hold, (hf.hasParent_iff (mem_idsAll_of_mem_blocksAll hold)).mpr hp.1⟩

/-- Where no timeline and no edge has changed, answers stay right. -/
theorem SameRecords.retells (h : SameRecords f f') (htrees : f'.trees = f.trees ++ new)
    (hnew : ∀ d ∈ new, d.Edgeless) (hf : f.Forest) (hf' : f'.Forest) (ht : f.Tables)
    (ht' : f'.Tables) (hfrozen : f.frozen = true → f'.frozen = true) (hm : f'.memo = f.memo)
    (hr : f.Retells) : f'.Retells := by
  have hview : SameView f f' :=
    ⟨by rw [Func.blocks, Func.blocks, (List.cons.inj htrees).1], preds_append htrees hnew,
      h.explicit?, h.joined?, h.locals⟩
  have hsub : f.trees ⊆ f'.trees := fun d hd => htrees ▸ List.mem_append_left new hd
  intro q s hs hc hp
  rw [hm] at hs
  obtain ⟨hc, hp⟩ := hasParent_append hf hf' htrees hnew hc hp
  obtain ⟨r, hres, hmeets⟩ := hr hs hc hp
  refine ⟨r, hview.resolution hres, hview.meets (hview.view_anywhere hf hf' ht ht' hsub hc) hfrozen
    ?_ hmeets⟩
  cases r with
  | timeline t =>
    rw [Edit.reachingOf, Edit.reachingOf, Edit.leaving, Edit.leaving, h.timelineAt]
    cases (f.timelineAt t).locals.getLast? with
    | some l => rfl
    | none => rw [sightOf, sightOf, h.timelineAt]
  | top t => rw [Edit.reachingOf, Edit.reachingOf, sightOf, sightOf, h.timelineAt]
  | _ => rfl

theorem Func.Forest.frozen (h : f.Forest) : ({ f with frozen := true } : Func).Forest :=
  ⟨h.held, h.nodup, h.bounded, h.stored⟩

theorem sameRecords_frozen (f : Func) : SameRecords f { f with frozen := true } :=
  ⟨fun _ => rfl, rfl, rfl⟩

theorem Restocks.memoCorrect (h : Restocks f f') (hm : f.Unmoved f') (hf : f.MemoCorrect) :
    f'.MemoCorrect := by
  have hk := h.wellFormed hf.toWellFormed
  rcases hm with hm | ⟨new, htrees, hnew⟩
  · exact .of_nil hk hm
  rcases h.memo with hm | hm
  · exact ⟨hk, h.toSameRecords.retells htrees hnew hf.forest hk.forest hf.linked.tables
      hk.linked.tables (fun hu => h.frozen.trans hu) hm hf.retells⟩
  · exact .of_nil hk hm

theorem Relinks.memoCorrect (h : Relinks f f') (hm : Forgets f f') (hf : f.MemoCorrect) :
    f'.MemoCorrect := by
  rcases hm with rfl | hm
  · exact hf
  · exact .of_nil (h.wellFormed hf.toWellFormed) hm

/-- The names of a function have no bearing on its answers. -/
theorem Func.MemoCorrect.renamed (h : f.MemoCorrect) (vars : List Variable)
    (args returns : List VarId) :
    MemoCorrect { f with vars := vars, args := args, returns := returns } := by
  have hk := h.toWellFormed.renamed vars args returns f.frozen
  have hsame : SameRecords f { f with vars := vars, args := args, returns := returns } :=
    ⟨fun _ => rfl, rfl, rfl⟩
  exact ⟨hk, hsame.retells (List.append_nil _).symm (fun _ hd => nomatch hd) h.forest hk.forest
    h.linked.tables hk.linked.tables id rfl h.retells⟩

theorem Renames.memoCorrect (h : Renames f f') (hf : f.MemoCorrect) : f'.MemoCorrect := by
  rw [Renames] at h
  rw [h]
  exact hf.renamed _ _ _

/-- Where the trees are the same or all answers forgotten. -/
theorem Func.Unmoved.of_trees (h : f'.memo = [] ∨ f'.trees = f.trees) : f.Unmoved f' :=
  h.imp id fun h => ⟨[], h.trans (List.append_nil _).symm, fun _ hd => nomatch hd⟩

theorem pruneTimeline_memoCorrect (h : f.MemoCorrect) {r : Nat × Bool}
    (hrun : Edit.pruneTimeline t f = .ok r f') : f'.MemoCorrect := by
  obtain ⟨hr, hm⟩ := pruneTimeline_relinks h.linked hrun
  exact hr.memoCorrect hm h

theorem pruneIncoming_memoCorrect (h : f.MemoCorrect) {k : Nat}
    (hrun : Edit.pruneIncoming f = .ok k f') : f'.MemoCorrect :=
  Edit.pruneIncoming_ok (fun hg hprune => pruneTimeline_memoCorrect hg hprune)
    (fun hg hretarget => (retarget_weaves hg.linked hretarget).memoCorrect hg) h hrun

/-! ## Every run -/

theorem Request.memoCorrect {r : Request} (h : f.MemoCorrect) (hl : r.live f = true)
    (hrun : r.run f = .ok () f') : f'.MemoCorrect := by
  cases hr : r.reshapes with
  | true =>
    have hmoved := Request.unmoved hr f (.refl f)
    rw [Edit.outcome_ok hrun] at hmoved
    exact (Request.restocks hr h.stocked hl hrun).memoCorrect hmoved h
  | false =>
  cases ht : r.threads with
  | true => exact (Request.weaves ht h.toWellFormed hl hrun).memoCorrect h
  | false =>
  cases r with
  | addVariable name type =>
    obtain ⟨_, hrun⟩ := Edit.silent_ok hrun
    exact (addVariable_renames hrun).memoCorrect h
  | addArgument name type =>
    obtain ⟨_, hrun⟩ := Edit.silent_ok hrun
    exact (addArgument_renames hrun).memoCorrect h
  | addReturn name type =>
    obtain ⟨_, hrun⟩ := Edit.silent_ok hrun
    exact (addReturn_renames hrun).memoCorrect h
  | appendInst b code dest args =>
    obtain ⟨_, hrun⟩ := Edit.silent_ok hrun
    exact (appendInst_memoCorrect h.toWellFormed hl hrun).1
  | prependInst b code dest args =>
    obtain ⟨_, hrun⟩ := Edit.silent_ok hrun
    exact prependInst_memoCorrect h.toWellFormed hl hrun
  | insertInstBefore b i code dest args =>
    obtain ⟨_, hrun⟩ := Edit.silent_ok hrun
    exact insertInstBefore_memoCorrect h.toWellFormed hl hrun
  | removeInst b i => exact removeInst_memoCorrect h.toWellFormed hrun
  | createPhi b v =>
    obtain ⟨_, hrun⟩ := Edit.silent_ok hrun
    exact createPhi_memoCorrect h.toWellFormed hl hrun
  | split b position =>
    obtain ⟨_, hrun⟩ := Edit.silent_ok hrun
    exact split_memoCorrect h.toWellFormed hl hrun
  | flatten c =>
    obtain ⟨_, hrun⟩ := Edit.silent_ok hrun
    obtain ⟨f₁, n, h₁, hmoved, hprune⟩ := flatten_restocks h.stocked hrun
    exact pruneIncoming_memoCorrect (h₁.memoCorrect (.of_trees hmoved) h) hprune
  | pruneIncoming =>
    obtain ⟨_, hrun⟩ := Edit.silent_ok hrun
    exact pruneIncoming_memoCorrect h hrun
  | defineUndefined =>
    obtain ⟨_, hrun⟩ := Edit.silent_ok hrun
    rcases defineUndefined_memoCorrect h.toWellFormed hrun with rfl | ht
    · exact h
    · exact ht
  | appendLocal t i => exact absurd hrun (not_appendLocal h.toWellFormed hl)
  | appendIncoming t pred target =>
    obtain ⟨_, hrun⟩ := Edit.silent_ok hrun
    rw [Request.live, Bool.and_eq_true, Bool.and_eq_true] at hl
    obtain ⟨hrelinks, hforgets⟩ := appendIncoming_relinks h.linked hl.1.1 hl.1.2 hl.2 hrun
    exact hrelinks.memoCorrect hforgets h
  | freeze =>
    have hk := freeze_wellFormed h.toWellFormed hrun
    obtain ⟨_, f₁, hall, -, rfl⟩ := freeze_ok hrun
    have h₁ := (resolveAll_weaves h.linked hall).memoCorrect h
    exact ⟨hk, (sameRecords_frozen f₁).retells (List.append_nil _).symm
      (fun _ hd => absurd hd List.not_mem_nil) h₁.forest hk.forest h₁.linked.tables
      hk.linked.tables (fun _ => rfl) rfl h₁.retells⟩
  | propagateFor asking t cache => cases hl
  | refer t n => cases hl
  | _ => first | cases hr; done | cases ht

theorem Reached.memoCorrect (h : Reached f) : f.MemoCorrect :=
  h.invariant Func.MemoCorrect (fun handle name => .of_nil (new_wellFormed handle name) rfl)
    fun _ hf hl hrun => Request.memoCorrect hf hl hrun

theorem Reached.wellFormed (h : Reached f) : f.WellFormed := h.memoCorrect.toWellFormed

/-- Where a function can be edited, every answer that it remembers is right. -/
theorem Reached.ready (h : Reached f) (hu : f.frozen = false) : f.Ready :=
  have ht := h.memoCorrect
  ⟨ht.forest, ht.linked.tables, hu, ht.retells⟩

/-- The joins that a search has found hide nothing from it if it ends with nothing, or at a block
that decides. -/
theorem Solution.only {s : Stack} (h : Solution f v b s) (G : f.Graph) (hf : f.Placed v)
    (hb : b ∈ f.blocks) (hroot : s.root ≠ .join b)
    (hdecides : ∀ y, f.source s.root = some y → f.Decides v y) :
    f.Only v b (f.source s.root) := by
  have hw : ∀ {x}, f.Decides v x → s.Decided f v x := Or.inl
  obtain ⟨hj, -⟩ | ⟨-, -, -, harr⟩ := h.root_cases G hf hb
  · exact absurd hj hroot
  · refine fun a => ⟨fun ha => ?_, ?_⟩
    · obtain ha | ⟨y, hy, ha⟩ := arrives_wide hw ha
      · exact (harr a).mp ha
      · exact absurd (hdecides y ((harr _).mp ha).symm) hy
    · rintro rfl
      exact arrives_narrow hw ((harr _).mpr rfl) hdecides

/-- A definition leaves a block that decides without a join. -/
theorem Func.Tables.sightFrom_of_explicit {c : NodeId} (ht : f.Tables)
    (hc : f.explicit? c v = some t)
    (hnone : f.joinNodes c v = []) :
    ∃ i, f.lastDef v c = some i ∧ f.sightFrom v (some c) = .definition i := by
  have hdecides : f.Decides v c := by rw [Decides, hc]; rfl
  obtain ⟨i, hi⟩ := lastDef_isSome ((ht.decides_iff.mp hdecides).resolve_right fun h => h hnone)
  exact ⟨i, hi, by rw [sightFrom, hi]⟩

/-- Where a variable has no join, what an answer shows is all that arrives. -/
theorem Func.Tells.shows {r : Resolution} (h : f.Tells v b r) (hf : f.Forest) (he : f.Enters)
    (ht : f.Tables) (hs : f.Scheduled) (hnone : ∀ c, f.joinNodes c v = []) (hb : b ∈ f.blocks) :
    f.Shows v b r := by
  have hjoined : ∀ c, f.joined? c v = none := fun c => ht.joined?_eq_none.mpr (hnone c)
  obtain ⟨s, -, hsol, hfine⟩ := solve_finest hf.net (Solution.placed ht) (v := v) hb
  have only := hsol.only (hf.graph he) (Solution.placed ht) hb
  obtain ⟨hsight, hnames⟩ := h
  have hview := hsol.view_root hf.net ht hb hfine
  rw [← hsight] at hview
  cases r with
  | join _ => exact hnames
  | top t =>
    obtain ⟨c, hc⟩ := hnames
    rw [hjoined c] at hc
    cases hc
  | undefined =>
    obtain ⟨hroot, -⟩ | ⟨k, u, -, hk, -, -, hsees⟩ | ⟨k, -, -, hsees⟩ := hview
    · rw [hroot] at only
      exact ⟨hjoined b, only Reach.noConfusion fun y hy => nomatch hy⟩
    · obtain ⟨i, -, hi⟩ := ht.sightFrom_of_explicit hk (hnone k)
      rw [hi] at hsees
      cases hsees
    · cases hsees
  | timeline t =>
    obtain ⟨-, c, hc⟩ := hnames
    obtain ⟨i, hi, hleaves⟩ := ht.sightFrom_of_explicit hc (hnone c)
    have hanswer : f.sightOf (Edit.reachingOf f (.timeline t)) = .definition i :=
      (ht.sightOf_timeline (timelineId?_of_explicit? hc)).trans hleaves
    rw [hanswer] at hview
    obtain ⟨-, hsees⟩ | ⟨k, u, hroot, hk, -, -, hsees⟩ | ⟨k, -, -, hsees⟩ := hview
    · cases hsees
    · obtain ⟨j, hj, hformed⟩ := ht.sightFrom_of_explicit hk (hnone k)
      rw [hformed] at hsees
      cases hsees
      -- The definition is listed in one block only.
      obtain rfl : c = k := Option.some.inj
        ((hs.block_of_lastDef hi).symm.trans (hs.block_of_lastDef hj))
      rw [hroot, source, ht.block_eq (timelineId?_of_explicit? hk)] at only
      refine ⟨hjoined b, c, hc, only Reach.noConfusion fun y hy => ?_⟩
      cases hy
      rw [Decides, hc]
      rfl
    · cases hsees

theorem Reached.unjoined (h : Reached f) (he : f.Enters) (hu : f.frozen = false)
    (hn : f.incoming.live = []) : f.Unjoined := by
  have ht := h.memoCorrect
  have hnodes : ∀ n, f.incoming.get? n = none := fun n => by
    by_contra hne
    have hlive := f.incoming.mem_live.mpr (Option.isSome_iff_ne_none.mpr hne)
    rw [hn] at hlive
    cases hlive
  refine ⟨ht.forest, he, ht.linked.tables, ht.scheduled, hu, fun {b v s} hs hb => ?_, hnodes⟩
  obtain ⟨r, hr, htells⟩ := tells_of_memo ht.retells ht.forest hu hs hb
  exact ⟨r, hr, htells.shows ht.forest he ht.linked.tables ht.scheduled
    (fun c => ht.linked.tables.joinNodes_of_no_nodes hnodes c v) hb⟩

/-! ## Calls are requests -/

theorem Calls.reached (hc : Calls f f') (h : Reached f) : Reached f' := by
  have hblock : ∀ {b}, b ∈ f.blocks → f.hasBlock b = true := fun hb =>
    Option.isSome_iff_exists.mpr (h.wellFormed.forest.stored_block hb)
  have ask : ∀ r : Request, r.live f = true → r.run f = .ok () f' → Reached f' := fun r hl hrun =>
    h.step (Request.grant_eq hl hrun)
  cases hc with
  | append hb hrun => exact ask (.appendInst _ _ _ _) (hblock hb) (Edit.silent_eq hrun)
  | prepend hb hrun => exact ask (.prependInst _ _ _ _) (hblock hb) (Edit.silent_eq hrun)
  | insertBefore hb hrun =>
    exact ask (.insertInstBefore _ _ _ _ _) (hblock hb) (Edit.silent_eq hrun)
  | remove hb hrun => exact ask (.removeInst _ _) (hblock hb) hrun
  | createPhi hb hrun => exact ask (.createPhi _ _) (hblock hb) (Edit.silent_eq hrun)
  | split hb hrun => exact ask (.split _ _) (hblock hb) (Edit.silent_eq hrun)
  | @flatten c d hrun =>
    cases hlive : Request.live f (.flatten c) with
    | true => exact ask (.flatten c) hlive (Edit.silent_eq hrun)
    | false =>
      -- Without the component there is nothing to flatten, but nodes are still pruned.
      simp only [Request.live, Bool.or_eq_false_iff, decide_eq_false_iff_not,
        Option.isSome_eq_false_iff, Option.isNone_iff_eq_none] at hlive
      obtain ⟨-, hrun⟩ := Edit.unfrozen_bind_ok hrun
      rw [Edit.bind_eq Edit.get_eq] at hrun
      simp only [if_neg hlive.1, hlive.2] at hrun
      obtain ⟨_, f₁, hprune, hret⟩ := Edit.bind_ok hrun
      cases hret
      exact ask .pruneIncoming rfl (Edit.silent_eq hprune)
  | defineUndefined hrun => exact ask .defineUndefined rfl (Edit.silent_eq hrun)
  | resolve hb hrun => exact ask (.resolve _ _) (hblock hb) (Edit.silent_eq hrun)
  | probe hb hrun => exact ask (.probe _ _) hb (Edit.silent_eq hrun)
  | resolveAll hrun => exact ask .resolveAll rfl (Edit.silent_eq hrun)

theorem Runs.reached (hr : Runs f f') (h : Reached f) : Reached f' := by
  induction hr with
  | refl => exact h
  | tail _ hc ih => exact hc.reached ih

/-! ## Work on complete trees -/

/-- The names of a function have no bearing on what flows where. -/
theorem Func.Sound.renamed (h : f.Sound) (vars : List Variable) (args returns : List VarId) :
    Sound { f with vars := vars, args := args, returns := returns } := by
  have hcalm := h.nodesFresh.calm
  have ht := hcalm.tables
  have htables : Tables { f with vars := vars, args := args, returns := returns } :=
    ⟨ht.placed, ht.listed, ht.sorted, ht.owner, ht.node, ht.nodes_nodup, ht.target, ht.referrer,
      ht.referrers_nodup⟩
  have hflow : SameFlow f { f with vars := vars, args := args, returns := returns } :=
    ⟨⟨rfl, rfl, rfl, rfl, rfl, rfl, fun _ => rfl⟩, fun _ _ => rfl, fun _ _ => rfl⟩
  have hview : SameView f { f with vars := vars, args := args, returns := returns } :=
    ⟨rfl, rfl, fun _ _ => rfl, fun _ _ => rfl, fun _ _ => rfl⟩
  exact ⟨(hcalm.sameFlow hflow htables).nodesFresh (hview.remembers rfl
      h.nodesFresh.searchable.memo),
    h.scheduled.congr (fun _ => rfl) (fun _ => rfl) (fun _ _ => rfl) fun _ => rfl⟩

theorem Renames.sound (h : Renames f f') (hf : f.Sound) : f'.Sound := by
  rw [Renames] at h
  rw [h]
  exact hf.renamed _ _ _

/-- What can be done with a function but for changing its trees or its nodes by hand: a call, a new
variable, or a question about a place in the body. -/
inductive MaintainsJoins (f f' : Func) : Prop
  | call (h : Calls f f')
  | addVariable {name : String} {type : ValueType} {v : Variable}
      (h : Edit.addVariable name type f = .ok v f')
  | addArgument {name : String} {type : ValueType} {v : Variable}
      (h : Edit.addArgument name type f = .ok v f')
  | addReturn {name : String} {type : ValueType} {v : Variable}
      (h : Edit.addReturn name type f = .ok v f')
  | reachingDef {u : UseSite} {b : NodeId} {r : Reaching} (hu : (f.inst u.inst).block = some b)
      (hb : b ∈ f.blocks) (h : Edit.reachingDef u f = .ok r f')
  | reachingAt {b : ComponentRef} {position : Nat} {v : Variable} {r : Reaching}
      (hb : b.id ∈ f.blocks) (h : Edit.reachingAt b position v f = .ok r f')
  | pruneIncoming {n : Nat} (h : Edit.pruneIncoming f = .ok n f')

theorem MaintainsJoins.sound (hw : MaintainsJoins f f') (h : f.Sound) : f'.Sound := by
  cases hw with
  | call hc => exact hc.sound h
  | addVariable hrun => exact (addVariable_renames hrun).sound h
  | addArgument hrun => exact (addArgument_renames hrun).sound h
  | addReturn hrun => exact (addReturn_renames hrun).sound h
  | @reachingDef u b r hu hb hrun =>
    rw [Edit.reachingDef, Edit.bind_eq Edit.get_eq, hu] at hrun
    cases hobs : f.observed? u with
    | some i =>
      rw [hobs] at hrun
      cases hrun
      exact h
    | none =>
      rw [hobs] at hrun
      obtain ⟨_, f₁, hres, hrun⟩ := Edit.bind_ok hrun
      cases hrun
      exact (resolveAt_sound h hb hres).1
  | @reachingAt b position v r hb hrun =>
    rw [Edit.reachingAt, Edit.bind_eq Edit.get_eq] at hrun
    cases hdef : f.latestDefBefore? b.id position v.id with
    | some i =>
      rw [hdef] at hrun
      cases hrun
      exact h
    | none =>
      rw [hdef] at hrun
      obtain ⟨_, f₁, hres, hrun⟩ := Edit.bind_ok hrun
      cases hrun
      exact (Calls.resolve hb hres).sound h
  | pruneIncoming hrun =>
    obtain ⟨n, hsame⟩ := h.pruneIncoming_ok
    cases hsame.symm.trans hrun
    exact h

theorem MaintainsJoins.run_sound (hw : Relation.ReflTransGen MaintainsJoins f f')
    (h : f.Sound) : f'.Sound := by
  induction hw with
  | refl => exact h
  | tail _ hc ih => exact hc.sound ih

theorem MaintainsJoins.reached (hw : MaintainsJoins f f') (h : Reached f) : Reached f' := by
  have ask : ∀ r : Request, r.live f = true → r.run f = .ok () f' → Reached f' := fun r hl hrun =>
    h.step (Request.grant_eq hl hrun)
  cases hw with
  | call hc => exact hc.reached h
  | addVariable hrun => exact ask (.addVariable _ _) rfl (Edit.silent_eq hrun)
  | addArgument hrun => exact ask (.addArgument _ _) rfl (Edit.silent_eq hrun)
  | addReturn hrun => exact ask (.addReturn _ _) rfl (Edit.silent_eq hrun)
  | @reachingDef u b r hu hb hrun =>
    have hlive : (f.insts.get? u.inst).isSome :=
      h.wellFormed.scheduled.live (h.wellFormed.scheduled.getElem?_of_block hu)
    exact ask (.reachingDef _) hlive (Edit.silent_eq hrun)
  | reachingAt hb hrun =>
    exact ask (.reachingAt _ _ _) (Option.isSome_iff_exists.mpr
        (h.wellFormed.forest.stored_block hb))
      (Edit.silent_eq hrun)
  | pruneIncoming hrun => exact ask .pruneIncoming rfl (Edit.silent_eq hrun)

/-- Work on a function that no join has been built in yet leaves it reached and sound. -/
theorem Func.Unjoined.worked (hu : f.Unjoined) (hf : Reached f)
    (hw : Relation.ReflTransGen MaintainsJoins f f') : Reached f' ∧ f'.Sound := by
  induction hw with
  | refl => exact ⟨hf, hu.sound⟩
  | tail _ hc ih => exact ⟨hc.reached ih.1, hc.sound ih.2⟩

end

/-! ## Searches end -/

section

variable {f : Func} {b : NodeId} {v : VarId} {s : Stack}

theorem Stack.Found.resolution {g : Func} (h : s.Found f v) : ∃ r, s.resolution g = .ok r :=
  ⟨_, resolutionOf_eq h.canon⟩

theorem Func.Consistent.solve_anywhere (h : f.Consistent)
    (hb : (f.nodes.get? b).isSome) (v : VarId) :
    ∃ s, f.Completed v b s ∧ ∃ c g, Edit.buildJoins s f = .ok { s with created := c } g :=
  Flow.solve_anywhere h.forest h.linked.tables ((h.stocked.stored b).mpr hb) v

/-- A question about a block with a parent is answered, from memory or after a search. -/
theorem Func.Consistent.answer_ok (h : f.Consistent) {q : Question}
    (hb : (f.nodes.get? q.block).isSome)
    (hp : f.hasParent q.block = true) :
    ∃ s g, Edit.answer q f = .ok s g ∧ ∃ r, s.resolution g = .ok r := by
  have hask : f.resolvable q.block = .ok () := by rw [resolvable, if_pos hp]
  suffices hrun : ∃ s g, Edit.answer q f = .ok s g by
    obtain ⟨s, g, hrun⟩ := hrun
    exact ⟨s, g, hrun, (answer_weaves h.linked hb hrun).2.resolution⟩
  cases hm : f.memo.lookup q with
  | some s => exact ⟨s, f, Edit.answer_of_memo hask hm⟩
  | none =>
    obtain ⟨s, hs, c, g, hbuild⟩ := h.solve_anywhere hb q.var
    cases hq : q.probe || f.frozen with
    | true => exact ⟨_, _, Edit.answer_of_solve hask hq hm hs.solved⟩
    | false => exact ⟨_, _, Edit.answer_of_build hask hq hm hs.solved hbuild⟩

theorem Func.Consistent.stackAt_ok (h : f.Consistent) (hb : (f.nodes.get? b).isSome)
    (hp : f.hasParent b = true) (v : VarId) :
    ∃ s g, Edit.stackAt b v f = .ok s g ∧ ∃ r, s.resolution g = .ok r :=
  h.answer_ok (q := ⟨b, v, false⟩) hb hp

/-- Whatever has been done to a function, every search ends: its walks, the joins that it opens,
each once, the passes that drop joins, and the chains of values that it follows. Its joins can be
built, and both kinds of question about the block are answered. -/
theorem search_ends {b : ComponentRef} {v : Variable} (h : Reached f)
    (hb : f.hasBlock b.id = true) (hp : f.hasParent b.id = true) (hown : b.owner = f.handle)
    (hvar : v.owner = f.handle) :
    ∃ s, f.Completed v.id b.id s ∧
      (∃ c g, Edit.buildJoins s f = .ok { s with created := c } g) ∧
      (∃ r g, Edit.reprobe b v f = .ok r g) ∧
      ∃ s' r g, Edit.resolveStack b v f = .ok s' g ∧ Edit.resolve b v f = .ok r g := by
  have hk := h.wellFormed
  obtain ⟨s, hs, hbuild⟩ := hk.solve_anywhere hb v.id
  obtain ⟨s', g, hstack, r, hr⟩ := hk.stackAt_ok hb hp v.id
  obtain ⟨_, k, hanswer, r', hr'⟩ := hk.answer_ok (q := ⟨b.id, v.id, true⟩) hb hp
  have hquery : Edit.ownQuery b v f = .ok () f := ownQuery_eq hown hvar
  refine ⟨s, hs, hbuild, ⟨r', k, ?_⟩, s', r, g, ?_, ?_⟩
  · rw [Edit.reprobe, Edit.bind_eq hquery, Edit.bind_eq hanswer]
    exact Edit.ask_eq hr'
  · rw [Edit.resolveStack, Edit.bind_eq hquery]
    exact hstack
  · rw [Edit.resolve, Edit.bind_eq hquery, Edit.resolveAt, Edit.bind_eq hstack]
    exact Edit.ask_eq hr

def nestedLoops : List Request :=
  [.addVariable "x" (.int 64), .newLoop none none none none none,
    .newLoop none none none none none, .newBlock "inner", .appendElement 2 ⟨0, 8, .loop, ""⟩,
    .appendElement 5 ⟨0, 14, .loop, ""⟩, .appendElement 11 ⟨0, 15, .block, "inner"⟩,
    .appendInst 15 .undef (some ⟨0, 1, "x", .int 64, 0⟩) []]

theorem nestedLoops_end : ∃ f s, Reached f ∧ f.Completed 1 10 s ∧
    ∃ s' r g, Edit.resolveStack ⟨0, 10, .block, "loop_cond"⟩ ⟨0, 1, "x", .int 64, 0⟩ f = .ok s' g ∧
      Edit.resolve ⟨0, 10, .block, "loop_cond"⟩ ⟨0, 1, "x", .int 64, 0⟩ f = .ok r g := by
  obtain ⟨f, hf, hfacts⟩ := Reached.exists_of_requests 0 "f" nestedLoops
    (fun f => decide (f.hasBlock 10 = true ∧ f.hasParent 10 = true ∧ f.handle = 0))
    (by decide +kernel)
  obtain ⟨hb, hp, hown⟩ := of_decide_eq_true hfacts
  obtain ⟨s, hs, -, -, hstack⟩ := search_ends (b := ⟨0, 10, .block, "loop_cond"⟩)
    (v := ⟨0, 1, "x", .int 64, 0⟩) hf hb hp hown.symm hown.symm
  exact ⟨f, s, hf, hs, hstack⟩

end

/-! ## Timelines and nodes name each other -/

/-- The two directions of every link between blocks, timelines and nodes agree. -/
structure Func.LinksAgree (f : Func) : Prop where
  referrers : ∀ {t x n i}, f.timelines.get? t = some x → f.incoming.get? n = some i →
    x.referrers.count n = if i.target = some t then 1 else 0
  incoming : ∀ {t x n i}, f.timelines.get? t = some x → f.incoming.get? n = some i →
    x.incoming.count n = if i.owner = t then 1 else 0
  /-- No timeline has two nodes for one predecessor. -/
  preds : ∀ {t x}, f.timelines.get? t = some x →
    (x.incoming.map fun n => (f.incomingAt n).pred).Nodup
  blocks : ∀ {b v t}, f.timelineId? b v = some t ↔
    ∃ x, f.timelines.get? t = some x ∧ x.block = b ∧ x.var = v
  /-- The owner and the target of a node are there, and of one variable. -/
  ends : ∀ {n i}, f.incoming.get? n = some i → ∃ x, f.timelines.get? i.owner = some x ∧
    ∀ t, i.target = some t → ∃ y, f.timelines.get? t = some y ∧ y.var = x.var
  live : ∀ {t x n}, f.timelines.get? t = some x → n ∈ x.incoming ∨ n ∈ x.referrers →
    (f.incoming.get? n).isSome

section

variable {f : Func}

theorem Func.Linked.linksAgree (h : f.Linked) : f.LinksAgree where
  referrers := fun {t x n i} hx hi => by
    rw [(h.tables.referrers_nodup hx).count]
    refine if_congr ⟨fun hn => ?_, fun ht => ?_⟩ rfl rfl
    · obtain ⟨j, hj, hjt⟩ := h.tables.referrer hx hn
      cases hi.symm.trans hj
      exact hjt
    · obtain ⟨y, hy, hn, _⟩ := h.tables.target hi ht
      cases hx.symm.trans hy
      exact hn
  incoming := fun {t x n i} hx hi => by
    rw [(h.tables.nodes_nodup hx).count]
    refine if_congr ⟨fun hn => ?_, fun ho => ?_⟩ rfl rfl
    · obtain ⟨j, hj, hjo⟩ := h.tables.owner hx hn
      cases hi.symm.trans hj
      exact hjo
    · obtain ⟨y, hy, hn⟩ := h.tables.node hi
      rw [ho] at hy
      cases hx.symm.trans hy
      exact hn
  preds := fun {t x} hx => by
    have hapart := h.apart x.block x.var
    rw [feeds, joinNodes, h.tables.timeline?_eq (h.tables.listed hx), timelineAt_of_get? hx,
      List.map_map] at hapart
    exact hapart
  blocks := by
    refine ⟨h.tables.placed, ?_⟩
    rintro ⟨x, hx, rfl, rfl⟩
    exact h.tables.listed hx
  ends := fun {n i} hi => by
    obtain ⟨x, hx, _⟩ := h.tables.node hi
    refine ⟨x, hx, fun t ht => ?_⟩
    obtain ⟨y, hy, _, hv⟩ := h.tables.target hi ht
    exact ⟨y, hy, hv.trans (by rw [timelineAt_of_get? hx])⟩
  live := fun {t x n} hx hn => by
    rcases hn with hn | hn
    · obtain ⟨i, hi, _⟩ := h.tables.owner hx hn
      exact Option.isSome_iff_exists.mpr ⟨i, hi⟩
    · obtain ⟨i, hi, _⟩ := h.tables.referrer hx hn
      exact Option.isSome_iff_exists.mpr ⟨i, hi⟩

theorem Reached.links_agree (h : Reached f) : f.LinksAgree := h.wellFormed.linked.linksAgree

def cutDiamond : List Request :=
  let x : Variable := ⟨0, 1, "x", .int 64, 0⟩
  [.addVariable "x" (.int 64), .newBlock "left", .newBlock "right",
    .newFork none [⟨0, 3, .block, "left"⟩, ⟨0, 4, .block, "right"⟩], .newBlock "join",
    .appendElement 2 ⟨0, 6, .fork, ""⟩, .appendElement 2 ⟨0, 7, .block, "join"⟩,
    .appendInst 3 .undef (some x) [], .appendInst 4 .undef (some x) [],
    .appendInst 7 .copy (some x) [.var x], .resolve ⟨0, 7, .block, "join"⟩ x,
    .removeInst 3 ⟨0, 1⟩, .split ⟨0, 4, .block, "right"⟩ 0]

theorem cutDiamond_links_agree : ∃ f, Reached f ∧ f.timelines.live = [2, 3, 4] ∧
    f.incoming.live = [1, 2] ∧ f.joinNodes 7 1 = [1, 2] ∧ (f.incomingAt 1).target = none ∧
    (f.incomingAt 2).pred = 8 ∧ (f.incomingAt 2).target = some 4 ∧ f.LinksAgree := by
  obtain ⟨f, hf, hfacts⟩ := Reached.exists_of_requests 0 "f" cutDiamond
    (fun f => decide (f.timelines.live = [2, 3, 4] ∧ f.incoming.live = [1, 2] ∧
      f.joinNodes 7 1 = [1, 2] ∧ (f.incomingAt 1).target = none ∧ (f.incomingAt 2).pred = 8 ∧
      (f.incomingAt 2).target = some 4)) (by decide +kernel)
  obtain ⟨hlive, hnodes, hjoin, hleft, hpred, hright⟩ := of_decide_eq_true hfacts
  exact ⟨f, hf, hlive, hnodes, hjoin, hleft, hpred, hright, hf.links_agree⟩

end

end DefFlow.Flow
