import DefFlow.Proofs.Edits.Across
import DefFlow.Proofs.Edits.Owners
import DefFlow.Proofs.Edits.Walk
import DefFlow.Proofs.Runs.Observers
import DefFlow.Proofs.Runs.Splitting
import DefFlow.Proofs.Tree.Cycles

/-!
# What a split keeps

The two halves of a block share its code and stand in its place, one right behind the other, and
what came from the block comes from its second half. Every use reaches what it reached before: past
the definitions in front of it in the second half it finds those of the first, and past these it
sees what the block saw.
-/

set_option autoImplicit false

namespace DefFlow.Flow

open Func Component

/-- `b` has been split before the place `n`, and `b'` is its second half. -/
structure SplitsInto (b b' : NodeId) (n : Nat) (f f' : Func) : Prop where
  fresh : f.hasBlock b' = false
  front : f'.code b = (f.code b).take n
  back : f'.code b' = (f.code b).drop n
  code : ∀ c, c ≠ b → c ≠ b' → f'.code c = f.code c
  content : ∀ i, (f'.inst i).content = (f.inst i).content
  placed : ∀ {c k i}, (f'.code c)[k]? = some i →
    (f'.inst i).block = some c ∧ (f'.inst i).index = k
  blocks : ∀ {l r}, f.blocks = l ++ b :: r → f'.blocks = l ++ b :: b' :: r
  preds_first : f'.preds b = f.preds b
  succs_first : f'.succs b = [b']
  preds_second : f'.preds b' = [b]
  succs_second : f'.succs b' = f.succs b
  preds : ∀ {c}, f.hasBlock c = true → c ≠ b →
    f'.preds c = (f.preds c).map fun p => if p = b then b' else p
  /-- The nodes of the successors that came from the block come from its second half. -/
  nodes : ∀ {n i}, f.incoming.get? n = some i → ∃ j, f'.incoming.get? n = some j ∧
    j.owner = i.owner ∧ (f'.timelineAt j.owner).block = (f.timelineAt i.owner).block ∧
    j.pred = if i.pred = b ∧ (f.timelineAt i.owner).block ∈ f.succs b then b' else i.pred

section

variable {f f' f₁ f₂ f₃ f₄ : Func} {b b' c : NodeId} {v : VarId} {n : Nat}
  {out : List TimelineId}

/-! ## Blocks that lead to themselves -/

theorem Func.WellFormed.parent_of_condition {i after : NodeId} {start body update : Component}
    (h : f.WellFormed) (hw : Within (.loop i start b body update after) f.body) :
    f.parent? b = some (i, .loopCondition) := by
  have hpart : (Component.loop i start b body update after).PartOf f.trees :=
    ⟨f.body, List.mem_cons_self, hw⟩
  have hn := h.forest.nodup
  obtain ⟨role, hp⟩ := childOf_of_child hn hpart (i := b) (by simp [children, Component.id])
  rcases plays_of_parent? hp with ⟨d, hd, hid, hplays⟩ | ⟨hroot, -, -⟩
  swap
  · exact absurd (hroot ▸ hpart.mem_ids (id_mem_ids _)) h.forest.root_not_mem
  obtain rfl := hd.unique hpart hn hid
  -- The condition is none of the other parts of the loop.
  have ha := apart_of_nodup (hpart.nodup hn)
  cases role with
  | loopCondition => exact hp
  | start => exact absurd (hplays ▸ id_mem_ids start) ha.cond_start
  | body => exact absurd (hplays ▸ id_mem_ids body) ha.cond_body
  | update => exact absurd (hplays ▸ id_mem_ids update) ha.cond_update
  | after => exact absurd hplays ha.after_cond
  | _ => exact hplays.elim

theorem Func.WellFormed.not_mem_preds_self (h : f.WellFormed) (hb : b ∈ f.blocks)
    (hloop : ∀ p, f.parent? b ≠ some (p, .loopCondition)) : b ∉ f.preds b := by
  intro hm
  rcases forward_or_back f.body ((h.forest.mem_preds hb).mp hm) with hbefore | ⟨r, hr, -⟩
  · exact Nat.lt_irrefl _ (Component.idxOf_lt_of_before h.forest.blocks_nodup hbefore)
  · obtain ⟨i, start, body, update, after, hw, -⟩ := within_of_mem_loops f.body hr
    exact hloop i (h.parent_of_condition hw)

/-! ## Trees that are set aside -/

theorem Func.Forest.not_mem_body (hf : f.Forest) (hc : c ∈ blocksAll f.detached) :
    c ∉ f.body.ids := fun hm => by
  have hn := hf.nodup
  rw [Func.trees, idsAll] at hn
  exact (List.nodup_append.mp hn).2.2 c hm c (mem_idsAll_of_mem_blocksAll hc) rfl

/-- The predecessors in a tree that is set aside are blocks of that tree. -/
theorem Func.Forest.pred_aside (hf : f.Forest) (hc : c ∈ blocksAll f.detached) {p : NodeId}
    (hp : p ∈ f.preds c) : p ∈ blocksAll f.detached := by
  obtain ⟨root, hroot, hcr⟩ := mem_blocksAll.mp hc
  obtain ⟨rest, hperm⟩ := exists_rest (List.mem_cons_of_mem f.body hroot)
  rw [← preds_rooted hf.nodup hperm] at hp
  exact mem_blocksAll.mpr ⟨root, hroot, (forest_rooted hf hperm).pred_mem hcr hp⟩

theorem preds_aside (hf : f.Forest) (hf' : f'.Forest) (hd : f'.detached = f.detached)
    (hc : c ∈ blocksAll f.detached) : f'.preds c = f.preds c := by
  have hpreds : ∀ {g : Func}, g.Forest → c ∈ blocksAll g.detached →
      g.preds c = (g.detached.findSome? fun d => d.predsIn c []).getD [] := fun hg hc => by
    rw [Func.preds, Func.trees, List.findSome?_cons, predsIn_eq_none _ _ (hg.not_mem_body hc)]
  rw [hpreds hf' (hd ▸ hc), hpreds hf hc, hd]

/-! ## The halves -/

theorem map_swap_of_new {l : List NodeId} (h : b' ∉ l) :
    l.map (Equiv.swap b b') = l.map fun p => if p = b then b' else p := by
  refine List.map_congr_left fun p hp => ?_
  split
  · next hpb => rw [hpb, Equiv.swap_apply_left]
  · next hpb => exact Equiv.swap_apply_of_ne_of_ne hpb fun he => h (he ▸ hp)

/-- Whatever is bound afterwards leaves what a split has made. -/
theorem SplitsInto.weaves (h : SplitsInto b b' n f f₁) (ht : f₁.Tables) (hw : Weaves f₁ f') :
    SplitsInto b b' n f f' where
  fresh := h.fresh
  front := (hw.instructions b).trans h.front
  back := (hw.instructions b').trans h.back
  code c hc hc' := (hw.instructions c).trans (h.code c hc hc')
  content i := by rw [hw.inst, h.content]
  placed := fun {c k i} hi => by
    rw [hw.inst]
    exact h.placed ((congrArg (·[k]?) (hw.instructions c)).symm.trans hi)
  blocks hl := hw.toSameGraph.blocks.trans (h.blocks hl)
  preds_first := by rw [hw.toSameGraph.preds, h.preds_first]
  succs_first := by rw [hw.toSameGraph.succs, h.succs_first]
  preds_second := by rw [hw.toSameGraph.preds, h.preds_second]
  succs_second := by rw [hw.toSameGraph.succs, h.succs_second]
  preds hc hcb := by rw [hw.toSameGraph.preds, h.preds hc hcb]
  nodes hi := by
    obtain ⟨j, hj, howner, hblock, hpred⟩ := h.nodes hi
    obtain ⟨k, hk, hkowner, hkpred⟩ := hw.nodes hj
    obtain ⟨x, hx, -⟩ := ht.node hj
    obtain ⟨y, hy, hyb, -⟩ := hw.live ht hw.linked.tables hx
    refine ⟨k, hk, hkowner.trans howner, ?_, hkpred.trans hpred⟩
    rw [hkowner, timelineAt_of_get? hy, hyb, ← timelineAt_of_get? hx, hblock]

/-- The steps of a split up to the announcements make the halves. -/
theorem splitsInto (h : f.WellFormed) (hself : b ∉ f.preds b) (hh : Halves b b' n f f₁)
    (hc : CutsBody b b' f.detached f₁ f₂)
    (hp : Parted b b' ((f₂.blockAt b).timelines.map Prod.fst) out f₂ f₃)
    (hm : MovesEdges b b' f₃ f₄) (hb : Bisects b b' f f₄) (hs : f₄.Scheduled) :
    SplitsInto b b' n f f₄ := by
  have hforest := h.forest
  have hkeeps : Keeps f₂ f₄ := hp.keeps.trans hm.keeps
  have hcode : ∀ c, f₄.code c = f₁.code c := fun c =>
    (hkeeps.instructions c).trans (by rw [hc.reroots.blockAt]; rfl)
  have hnew : ∀ {c}, c ∈ f.blocks → b' ∉ f.preds c := fun hc hm =>
    hb.new (hforest.pred_mem hc hm)
  have hdetached : f₄.detached = f.detached := by
    obtain ⟨_, _, hbeside, _⟩ := hc
    exact hkeeps.detached.trans hbeside.planted.detached_eq
  refine {
    fresh := ?_
    front := (hcode b).trans hh.front
    back := (hcode b').trans hh.back
    code := fun c hc hc' => (hcode c).trans (hh.code c hc hc')
    content := fun i => by
      rw [hkeeps.inst, Func.inst, hc.reroots.insts]
      exact hh.content i
    placed := fun {c k i} hi => ?_
    blocks := fun {l r} hl => ?_
    preds_first := by
      rw [hb.preds_old hb.first, map_swap hself (hnew hb.first)]
    succs_first := (hb.edges .first hb.first).2
    preds_second := hb.preds_new
    succs_second := (hb.edges .second hb.first).2
    preds := fun {c} hc hcb => ?_
    nodes := fun {m i} hi => ?_ }
  · rw [hasBlock, hh.fresh, Arena.get?_next]
    rfl
  · obtain ⟨x, hx, hxb, hk⟩ := hs.place hi
    rw [Func.inst, hx]
    exact ⟨hxb, hk⟩
  · have hn := hforest.blocks_nodup
    rw [hl, List.nodup_append, List.nodup_cons] at hn
    have hplain : ∀ {k : List NodeId}, b ∉ k → k.flatMap (grown (cutAt b b')) = k := by
      intro k hk
      refine (List.flatMap_congr fun x hx => ?_).trans (List.flatMap_singleton' k)
      rw [grown, cutAt_of_not_mem hk x hx]
      rfl
    rw [hb.reshapes.blocks, hl, List.flatMap_append, List.flatMap_cons,
      hplain fun hm => hn.2.2 b hm b List.mem_cons_self rfl, hplain hn.2.1.1, grown, cutAt_self]
    rfl
  · have hstored : c ∈ blocksAll f.trees := (h.stocked.stored c).mpr hc
    rw [Func.trees, blocksAll, List.mem_append] at hstored
    rcases hstored with hin | hout
    · rw [hb.preds_old hin, map_swap_of_new (hnew hin)]
    · rw [preds_aside hforest (hb.reshapes.forest hforest) hdetached hout]
      refine ((List.map_congr_left fun q hq => if_neg ?_).trans (List.map_id' _)).symm
      rintro rfl
      exact hforest.not_mem_body (hforest.pred_aside hout hq) (mem_ids_of_mem_blocks hb.first)
  · obtain ⟨x, hx, -⟩ := h.linked.tables.node hi
    have hid := h.linked.tables.listed hx
    have hne : x.block ≠ b' := fun he => by
      rw [he, hb.unlisted] at hid
      cases hid
    have hblock : ∀ {g : Func}, g.Tables → g.timelineId? x.block x.var = some i.owner →
        (g.timelineAt i.owner).block = (f.timelineAt i.owner).block := fun hg hid => by
      rw [hg.block_eq hid, timelineAt_of_get? hx]
    have hmoved := hblock hp.tables ((by
      rw [hp.id _ _ hne, hc.reroots.sameRecords.timelineId?, hh.timelineId?, hid]))
    have hsuccs : f₃.succs b' = f.succs b := by
      rw [← (hb.edges .second hb.first).2, hm.sameGraph.succs]
    have hget := hm.get m
    rw [hp.incoming, hc.reroots.incoming, hh.incoming, hi, Option.map_some, hmoved, hsuccs] at hget
    refine ⟨_, hget, ?_, ?_, ?_⟩
    · split <;> rfl
    · have howner : ∀ {P : Prop} [Decidable P],
          (if P then { i with pred := b' } else i).owner = i.owner := fun {P} _ => by split <;> rfl
      rw [howner]
      exact hblock hb.tables (by rw [hb.id _ _ hne, hid])
    · split <;> rfl

/-! ## Splitting a block of the body -/

variable {ref : ComponentRef} {position : Int}

theorem Func.Forest.room (hf : f.Forest) (hb : b ∈ f.blocks) {s : NodeId} {role : Role}
    (hp : f.parent? b = some (s, role)) (hr : role.spoken.isSome) : f.hasParent s = true := by
  rcases plays_or_body (mem_ids_of_mem_blocks hb) hp with ⟨c, hc, rfl, -⟩ | ⟨rfl, -⟩
  · exact hf.hasParent_of_mem (hc.mem_ids (id_mem_ids c))
  · cases hr

/-- Timelines of blocks of the body are announced one after the other. -/
theorem announceAll_granted {g : Func} {cache : Option IncomingCache} {α : Type} (r : α)
    (h : g.Ready) (hl : g.Linked)
    (hout : ∀ t ∈ out, ∃ c w, c ∈ g.blocks ∧ g.timelineId? c w = some t) : ∃ f', (do
      for t in out do
        let _ ← Edit.propagate t cache
      return r : Edit α) g = .ok r f' ∧ Weaves g f' ∧ Answers g f' := by
  refine Edit.forIn_run (k := fun _ => pure r) (fun _ k => Weaves g k ∧ Answers g k)
    (fun done t rest k hsplit ⟨hw, ha⟩ => ?_) ⟨.refl hl, .refl h⟩
  obtain ⟨c, w, hc, hid⟩ := hout t (hsplit ▸ List.mem_append_right _ List.mem_cons_self)
  obtain ⟨x, hx, hxc, -⟩ := hw.linked.tables.placed (hw.id hid)
  obtain ⟨_, k', hrun, hw', ha'⟩ := propagate_granted ha.ready hw.linked hx
    (by rw [hxc, hw.toSameGraph.blocks]; exact hc) cache
  exact ⟨k', by rw [Edit.bind_eq hrun]; rfl, hw.trans hw', ha.trans ha'⟩

/-- What a split of a block of the body makes before it announces anything, and that no announcement
is refused then or changes what a block sees. -/
theorem split_attached (h : Reached f) (hu : f.frozen = false) (hb : ref.id ∈ f.blocks)
    (hs : f.Splits ref position) : ∃ g f', Edit.split ref position f = .ok f.nodes.next f' ∧
      Bisects ref.id f.nodes.next f g ∧ SplitsInto ref.id f.nodes.next position.toNat f g ∧
      g.MemoCorrect ∧ Weaves g f' ∧ Answers g f' := by
  have hk := h.wellFormed
  have hstored := hk.forest.stored _ (Forest.mem_trees hb)
  obtain ⟨b', f', hsplit⟩ := split_granted hk hu hstored hs fun s role => hk.forest.room hb
  obtain ⟨f₁, hh, hmemo, hstocked, heq⟩ := split_eq hk hu hstored hs
  have hloop : ∀ s, f₁.parent? ref.id ≠ some (s, .loopCondition) := fun s hp =>
    hs.parent s (parent?_of_adds hh.toAdds _ ▸ hp)
  obtain ⟨_, f₂, hplaced, hrun⟩ := Edit.bind_ok (heq.symm.trans hsplit)
  have hr := placeSecondHalf_restocks hstocked (by rw [hh.stored, hstored, Bool.or_true])
    (by rw [hh.stored, decide_eq_true rfl, Bool.true_or]) hloop hplaced
  have hc := placeSecondHalf_ok (hh.forest hk.forest) (by rw [Func.blocks, hh.body]; exact hb)
    hh.detached hloop hplaced
  obtain ⟨out, f₃, hparted, hrun⟩ := Edit.bind_ok hrun
  obtain ⟨_, f₄, hmoved, hrun⟩ := Edit.bind_ok hrun
  obtain ⟨_, g, htouch, hrun⟩ := Edit.bind_ok hrun
  obtain ⟨hposts, hm, hcorrect, -⟩ :=
      halves_memoCorrect hk hstored hh hmemo hs.phis_le hr hparted hmoved
    htouch
  rw [← hh.listed, ← hr.listed] at hparted
  have hp := splitTimelines_ok (hc.reroots.sameRecords.tables (hh.tables hk.linked.tables))
    (ne_next_of_stored hstored)
    (by rw [hc.reroots.block, hh.stored, decide_eq_true rfl, Bool.true_or])
    (fun w => by
      rw [hc.reroots.sameRecords.timelineId?, hh.timelineId?, Func.timelineId?, blockAt_next]
      rfl) hparted
  have hbisects := bisects hk.forest hk.scheduled hb hh hc hp hm
  have hready : g.Ready := {
    forest := hbisects.reshapes.forest hk.forest
    tables := hbisects.tables
    unfrozen := by
      rw [hm.keeps.frozen, hp.keeps.frozen, hc.reroots.frozen, hh.frozen, hu]
    retells := retells_of_nil (by cases htouch; rfl) }
  obtain ⟨f'', hloop, hw, ha⟩ := announceAll_granted f.nodes.next hready hcorrect.linked
    fun t ht => by
      obtain ⟨w, hid, -⟩ := (hp.out t).mp ht
      refine ⟨f.nodes.next, w, hbisects.mem_blocks.mpr (.inr rfl), ?_⟩
      rw [hm.rest]
      exact hid
  cases hloop.symm.trans hrun
  exact ⟨g, f', hsplit, hbisects, splitsInto hk (hk.not_mem_preds_self hb hs.parent) hh hc hp hm
    hbisects hcorrect.scheduled, hcorrect, hw, ha⟩

/-! ## What the uses reach -/

def moved (b b' : NodeId) (n : Nat) (c : NodeId) (k : Nat) : NodeId × Nat :=
  if c = b ∧ n ≤ k then (b', k - n) else (c, k)

theorem SplitsInto.code_moved (h : SplitsInto b b' n f f') {k : Nat} {i : InstId} (hc : c ≠ b')
    (hi : (f.code c)[k]? = some i) :
    (f'.code (moved b b' n c k).1)[(moved b b' n c k).2]? = some i := by
  rw [moved]
  split
  · next hcut =>
    rw [h.back, List.getElem?_drop, Nat.add_sub_cancel' hcut.2, ← hcut.1, hi]
  · next hcut =>
    by_cases hcb : c = b
    · have hk : k < n := Nat.lt_of_not_le fun hk => hcut ⟨hcb, hk⟩
      rw [hcb] at hi ⊢
      rw [h.front, List.getElem?_take_of_lt hk, hi]
    · rw [h.code c hcb hc, hi]

theorem Bisects.viewAt_moved (h : Bisects b b' f f') (hi : SplitsInto b b' n f f')
    (hf : f.WellFormed)
    (hs : f'.Scheduled) (hc : c ∈ f.blocks) (k : Nat) :
    f'.viewAt v (moved b b' n c k).1 (moved b b' n c k).2 = f.viewAt v c k := by
  have hdefines : f'.defines v = f.defines v := funext fun i =>
    congrArg (fun x => x.2.2.any fun d => decide (d.var = v)) (hi.content i)
  have hview := fun {x} => h.view_old (x := x) (v := v) hf.forest hf.linked.tables
  rw [moved]
  split
  · next hcut =>
    obtain ⟨rfl, hk⟩ := hcut
    have htake : (f.code c).take k = (f.code c).take n ++ ((f.code c).drop n).take (k - n) := by
      rw [← List.take_add, Nat.add_sub_cancel' hk]
    rw [viewAt, viewAt, hs.latestDefBefore?, hf.scheduled.latestDefBefore?, hi.back, hdefines,
      htake, List.filter_append, List.getLast?_append]
    -- Past the definitions in the second half come those of the first.
    cases ((((f.code c).drop n).take (k - n)).filter (f.defines v)).getLast? with
    | some i => rfl
    | none =>
      rw [Option.none_or]
      have hlast : f'.lastDef v c = (((f.code c).take n).filter (f.defines v)).getLast? := by
        rw [Func.lastDef, hs.locals, hi.front, hdefines]
      rw [← hlast]
      exact h.view_second hf.forest hf.linked.tables
  · next hcut =>
    have htake : (f'.code c).take k = (f.code c).take k := by
      by_cases hcb : c = b
      · have hk : k < n := Nat.lt_of_not_le fun hk => hcut ⟨hcb, hk⟩
        rw [hcb, hi.front, List.take_take, Nat.min_eq_left hk.le]
      · rw [hi.code c hcb (h.ne_new hc)]
    rw [viewAt, viewAt, hs.latestDefBefore?, hf.scheduled.latestDefBefore?, htake, hdefines,
      hview hc]

theorem sight_of_use (h : f.WellFormed) (hr : f.Ready) {u : UseSite} (hu : f.UsedAt c v u)
    (hc : c ∈ f.blocks) : ∃ r g, Edit.reachingDef u f = .ok r g ∧
      g.sightOf r = f.viewAt v c (f.indexOf u.inst) := by
  obtain ⟨r, g, hrun, -, hsight⟩ := hr.reachingDef hu.block hc
  refine ⟨r, g, hrun, ?_⟩
  rw [hsight, h.observed? hu, hu.useVariable, viewAt, h.scheduled.latestDefBefore?]
  rfl

/-- A block of the body that is not the condition of a loop can be split at every place behind its
phis, and after that every use reaches what it reached before. -/
theorem split_keeps_meaning (h : Reached f) (hu : f.frozen = false) (hb : ref.id ∈ f.blocks)
    (hs : f.Splits ref position) : ∃ b' f', Edit.split ref position f = .ok b' f' ∧
      SplitsInto ref.id b' position.toNat f f' ∧
      ∀ c ∈ f.blocks, ∀ v u, f.UsedAt c v u → ∃ r g r' g', Edit.reachingDef u f = .ok r g ∧
        Edit.reachingDef u f' = .ok r' g' ∧ g'.sightOf r' = g.sightOf r := by
  obtain ⟨f₁, f', hrun, hbisects, hinto, hcorrect, hw, ha⟩ := split_attached h hu hb hs
  have hk := h.wellFormed
  have hk' := (hw.memoCorrect hcorrect).toWellFormed
  have hinto' := hinto.weaves hcorrect.linked.tables hw
  refine ⟨f.nodes.next, f', hrun, hinto', fun c hc v u hused => ?_⟩
  obtain ⟨r, g, hreach, hsight⟩ := sight_of_use hk (h.ready hu) hused hc
  -- The instruction has kept its operands, and its place tells the block that it stands in now.
  have hplace := hinto'.code_moved (fun he => hbisects.new (he ▸ hc))
    (hk.scheduled.getElem?_of_block hused.block)
  obtain ⟨hblock, hindex⟩ := hinto'.placed hplace
  have hused' : f'.UsedAt _ v u := ⟨hblock,
    (congrArg (fun x => x.2.1[u.slot]?) (hinto'.content u.inst)).trans hused.operand⟩
  have hin : (moved ref.id f.nodes.next position.toNat c (f.indexOf u.inst)).1 ∈ f₁.blocks := by
    rw [hbisects.mem_blocks, moved]
    split
    · exact .inr rfl
    · exact .inl hc
  obtain ⟨r', g', hreach', hsight'⟩ := sight_of_use hk' ha.ready hused'
    (by rw [ha.keeps.blocks]; exact hin)
  refine ⟨r, g, r', g', hreach, hreach', ?_⟩
  rw [hsight, hsight', show f'.indexOf u.inst = _ from hindex, ha.viewAt hin,
    hbisects.viewAt_moved hinto hk hcorrect.scheduled hc]

def turningBlock : List Request :=
  let x : Variable := ⟨0, 1, "x", .int 64, 0⟩
  [.addVariable "x" (.int 64), .newBlock "init", .newBlock "turn",
    .newLoop (some ⟨0, 3, .block, "init"⟩) none (some ⟨0, 4, .block, "turn"⟩) none none,
    .appendElement 2 ⟨0, 8, .loop, ""⟩, .appendInst 3 .undef (some x) [],
    .appendInst 4 .copy (some x) [.var x], .appendInst 4 .copy (some x) [.var x],
    .reachingDef ⟨2, 0⟩]

theorem turningBlock_split : ∃ f b' f', Reached f ∧ f.code 4 = [2, 3] ∧ f.preds 5 = [3, 4] ∧
    Edit.split ⟨0, 4, .block, "turn"⟩ 1 f = .ok b' f' ∧ f'.code 4 = [2] ∧ f'.code b' = [3] ∧
    f'.preds 5 = [3, b'] ∧
    ∃ r g r' g', Edit.reachingDef ⟨2, 0⟩ f = .ok r g ∧ Edit.reachingDef ⟨2, 0⟩ f' = .ok r' g' ∧
      g'.sightOf r' = g.sightOf r := by
  obtain ⟨f, hf, hfacts⟩ := Reached.exists_of_requests 0 "f" turningBlock
    (fun f : Func => decide (f.frozen = false ∧ f.handle = 0 ∧ 4 ∈ f.blocks ∧ f.hasBlock 5 = true ∧
      f.code 4 = [2, 3] ∧ f.preds 5 = [3, 4] ∧ (f.blockAt 4).phiCount = 0 ∧
      f.parent? 4 = some (8, .body) ∧ (f.inst 2).block = some 4 ∧
      (f.inst 2).operands[0]? = some (Operand.use 1))) (by decide +kernel)
  obtain ⟨hu, hown, hb, hcond, hcode, hpreds, hphi, hparent, hblock, hoperand⟩ :=
    of_decide_eq_true hfacts
  have hsplits : f.Splits ⟨0, 4, .block, "turn"⟩ 1 := {
    owner := hown.symm
    phis := by rw [hphi]; decide
    length := by rw [hcode]; decide
    parent := fun s hs => by
      rw [hparent] at hs
      cases hs }
  obtain ⟨b', f', hrun, hinto, hreach⟩ := split_keeps_meaning hf hu hb hsplits
  refine ⟨f, b', f', hf, hcode, hpreds, hrun, ?_, ?_, ?_, hreach 4 hb 1 ⟨2, 0⟩ ⟨hblock, hoperand⟩⟩
  · rw [hinto.front, hcode]
    rfl
  · rw [hinto.back, hcode]
    rfl
  · rw [hinto.preds hcond (by decide), hpreds]
    rfl

end

end DefFlow.Flow
