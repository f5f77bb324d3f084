import DefFlow.Proofs.Edits.Split
import DefFlow.Proofs.Edits.Withdraw

/-!
# Dividing the ledgers of a block

When a block is cut, each of its ledgers is cut at the same place: the first half keeps
what happens before the cut, and the uses behind it that no definition behind the cut holds
wait in the second half.
-/

set_option autoImplicit false

namespace DefFlow.Flow

open Func Account

/-! ## Cutting one ledger -/

structure Func.Cuts (f : Func) (b' : NodeId) (A B : List Event) : Prop where
  defs_before : ∀ i ∈ defsIn A, f.standsIn b' i = false
  defs_behind : ∀ i ∈ defsIn B, f.standsIn b' i = true
  uses_before : ∀ u ∈ usesIn A, f.standsIn b' u.inst = false
  uses_behind : ∀ u ∈ usesIn B, f.standsIn b' u.inst = true
  sorted : (usesIn B).Pairwise fun u w => f.siteBefore u w = true

structure Reposts (L : NodeId → VarId → List Event) (f f' : Func) : Prop extends Keeps f f' where
  id : ∀ {c w t}, f.timelineId? c w = some t → f'.timelineId? c w = some t
  linked : f'.Linked
  books : f'.Books L

section

variable {f f' f'' : Func} {b b' : NodeId} {v : VarId} {t t' : TimelineId} {A B : List Event}
  {L L' : NodeId → VarId → List Event}

theorem Func.Cuts.congr (h : f.Cuts b' A B) (hi : f'.insts = f.insts) : f'.Cuts b' A B := by
  have hstands : f'.standsIn b' = f.standsIn b' := by
    funext i
    rw [Func.standsIn, Func.standsIn, inst, inst, hi]
  have hsite : f'.siteBefore = f.siteBefore := by
    funext u w
    rw [siteBefore, siteBefore, indexOf, indexOf, indexOf, indexOf, inst, inst, inst, inst, hi]
  constructor
  · rw [hstands]; exact h.defs_before
  · rw [hstands]; exact h.defs_behind
  · rw [hstands]; exact h.uses_before
  · rw [hstands]; exact h.uses_behind
  · rw [hsite]; exact h.sorted

theorem Reposts.refl (h : f.Linked) (hL : f.Books L) : Reposts L f f :=
  ⟨.refl f, fun ht => ht, h, hL⟩

theorem Reposts.trans (h : Reposts L f f') (h' : Reposts L' f' f'') : Reposts L' f f'' where
  toKeeps := h.toKeeps.trans h'.toKeeps
  id ht := h'.id (h.id ht)
  linked := h'.linked
  books := h'.books

theorem Weaves.reposts (h : Weaves f f') (hL : f.Books L) : Reposts L f f' :=
  ⟨h.toKeeps, h.id, h.linked, hL.congr (fun c w => by rw [account, h.waiting, h.held, account])
    fun _ _ => rfl⟩

theorem Posts.reposts (h : Posts L f f') (hs : f.Stocked []) (hl : f.Linked) : Reposts L f f' :=
  ⟨h.toKeeps, fun ht => by rw [h.timelineId?]; exact ht, h.rewrites.linked hs hl, h.books⟩

theorem account_front (hc : f.Cuts b' A B) {x : Timeline} (hx : x.account = ledger (A ++ B)) :
    Timeline.account { x with
      waiting := x.waiting.filter fun u => !f.standsIn b' u.inst
      locals := (x.locals.filter fun l => !f.standsIn b' l.inst).map fun l =>
        { l with uses := l.uses.filter fun u => !f.standsIn b' u.inst } } = ledger A := by
  rw [← restrict_front (k := fun i => !f.standsIn b' i) (p := fun u => !f.standsIn b' u.inst)
    (A := A) (B := B), ← hx]
  · rfl
  · intro i hi
    rw [hc.defs_before i hi]
    rfl
  · intro i hi
    rw [hc.defs_behind i hi]
    rfl
  · intro u hu
    rw [hc.uses_before u hu]
    rfl
  · intro u hu
    rw [hc.uses_behind u hu]
    rfl

theorem locals_behind (hc : f.Cuts b' A B) {x : Timeline} (hx : x.account = ledger (A ++ B)) :
    (x.locals.filter fun l => f.standsIn b' l.inst) = (ledger B).locals := by
  have hl : x.locals = (ledger (A ++ B)).locals := congrArg Account.locals hx
  rw [hl, locals_back hc.defs_before hc.defs_behind]

theorem waiting_behind (hc : f.Cuts b' A B) {x : Timeline} (hx : x.account = ledger (A ++ B)) :
    ((x.waiting ++ (x.locals.filter fun l => !f.standsIn b' l.inst).flatMap Local.uses).filter
      fun u => f.standsIn b' u.inst) = (ledger B).waiting := by
  have hw : x.waiting = (ledger (A ++ B)).waiting := congrArg Account.waiting hx
  have hl : x.locals = (ledger (A ++ B)).locals := congrArg Account.locals hx
  rw [hw, hl]
  refine waiting_back (k := fun i => !f.standsIn b' i) (fun i hi => ?_) (fun i hi => ?_)
    hc.uses_before hc.uses_behind
  · rw [hc.defs_before i hi]
    rfl
  · rw [hc.defs_behind i hi]
    rfl

theorem foldl_waiting (hc : f.Cuts b' A B) :
    (ledger B).waiting.foldl (fun us u => f.insertSite u us) [] = (ledger B).waiting := by
  have hsub := uses_sublist (ledger B) none
  rw [allUses_ledger] at hsub
  exact (foldl_insertSite (W := []) (hc.sorted.sublist hsub)).trans (List.nil_append _)

theorem divide_posts {g : Func} (front back : Timeline → Timeline) (hb : g.Books L)
    (ht : g.Tables) (hne : b ≠ b')
    (hid : g.timelineId? b v = some t) (hid' : g.timelineId? b' v = some t')
    (hfront : Relisting front) (hback : Relisting back)
    (hA : (front (g.timelineAt t)).account = ledger A)
    (hB : ∀ x : Timeline, x.account = g.account b' v → (back x).account = ledger B) :
    Posts (amend (amend L b v A) b' v B) g
      { (g.relisted t front).relisted t' back with memo := [] } := by
  have h₁ : Posts (amend L b v A) g (g.relisted t front) :=
    posts_relisted hfront ht hid (by rw [hA, amend_self]) fun c w hc => by
      rw [hb, amend, if_neg hc]
  have ht₁ := h₁.tables ht
  have hsame : (g.relisted t front).account b' v = g.account b' v := by
    rw [account_relisted ht hid, if_neg fun hc => hne hc.1.symm]
  have h₂ : Posts (amend (amend L b v A) b' v B) (g.relisted t front)
      ((g.relisted t front).relisted t' back) :=
    posts_relisted hback ht₁ (b := b') (v := v) hid'
      (by rw [hB _ ((account_at ht₁ hid').trans hsame), amend_self]) fun c w hc => by
        rw [h₁.books, amend.eq_1 (amend L b v A), if_neg hc]
  have h₃ := h₁.trans h₂
  exact ⟨h₃.toKeeps.trans (keeps_of_stores rfl),
    h₃.toSameLinks.trans ⟨fun _ => rfl, fun _ => rfl, rfl⟩, .inr rfl, h₃.books⟩

theorem splitTimeline_reposts (hs : f.Stocked []) (h : f.Linked) (hne : b ≠ b')
    (hb' : (f.nodes.get? b').isSome) (hid : f.timelineId? b v = some t) (hL : f.Books L)
    (hold : L b v = A ++ B) (hnew : L b' v = []) (hc : f.Cuts b' A B) {r : Option TimelineId}
    (hrun : Edit.splitTimeline t b' f = .ok r f') :
    Reposts (amend (amend L b v A) b' v B) f f' ∧
      ∀ u, r = some u → f'.timelineId? b' v = some u := by
  have hx : (f.timelineAt t).account = ledger (A ++ B) := by
    rw [account_at h.tables hid, hL, hold]
  rw [Edit.splitTimeline, Edit.bind_eq Edit.get_eq] at hrun
  have hmoved := locals_behind hc hx
  have hlate := waiting_behind hc hx
  simp only [Func.standsIn] at hmoved hlate
  dsimp only at hrun
  rw [hmoved, hlate] at hrun
  split at hrun
  · next hnone =>
    rw [Bool.and_eq_true, List.isEmpty_iff, List.isEmpty_iff] at hnone
    cases hrun
    -- Nothing is behind the cut.
    have hB : B = [] := eq_nil_of_ledger (by
      show Account.mk (ledger B).waiting (ledger B).locals = _
      rw [hnone.1, hnone.2]
      rfl)
    refine ⟨.refl h (hL.congr (fun _ _ => rfl) fun c w => ?_), fun u hu => by cases hu⟩
    rw [hB, List.append_nil] at hold
    rw [amend, amend, hB]
    split
    · next hcw => rw [hcw.1, hcw.2, hnew]
    · split
      · next hcw => rw [hcw.1, hcw.2, hold]
      · rfl
  · obtain ⟨t', g, hfor, hrun⟩ := Edit.bind_ok hrun
    rw [h.tables.var_eq hid] at hfor
    obtain ⟨hw, hid'⟩ := timelineFor_weaves h hb' hfor
    have hg := hw.reposts hL
    have hxg : (g.timelineAt t).account = ledger (A ++ B) := by
      rw [account_at hg.linked.tables (hg.id hid), hg.books, hold]
    have hposts := divide_posts (A := A) (B := B)
      (fun x => { x with
        waiting := x.waiting.filter fun u => !f.standsIn b' u.inst
        locals := ((f.timelineAt t).locals.filter fun l => !f.standsIn b' l.inst).map fun l =>
          { l with uses := l.uses.filter fun u => !f.standsIn b' u.inst } })
      (fun x => { x with
        locals := (ledger B).locals
        waiting := (ledger B).waiting.foldl (fun us u => f.insertSite u us) x.waiting })
      hg.books hg.linked.tables hne (hg.id hid) hid'
      ⟨fun _ => rfl, fun _ => rfl, fun _ => rfl, fun _ => rfl⟩
      ⟨fun _ => rfl, fun _ => rfl, fun _ => rfl, fun _ => rfl⟩
      (by
        rw [← account_front hc hxg]
        have hl : (g.timelineAt t).locals = (f.timelineAt t).locals :=
          congrArg Account.locals (hxg.trans hx.symm)
        rw [hl])
      (fun x hxw => by
        rw [hg.books, hnew] at hxw
        have hnil : x.waiting = [] := congrArg Account.waiting hxw
        show Account.mk ((ledger B).waiting.foldl (fun us u => f.insertSite u us) x.waiting) _ = _
        rw [hnil, foldl_waiting hc])
    cases hrun
    refine ⟨hg.trans (hposts.reposts (hs.sameGraph hg.toSameGraph) hg.linked), fun u hu => ?_⟩
    split at hu
    · cases hu
    · cases hu
      exact hid'

/-! ## Cutting all of them -/

def Func.shares (f : Func) (b b' : NodeId) (n : Nat) (done : List VarId) (c : NodeId)
    (w : VarId) : List Event :=
  if c = b then if w ∈ done then f.eventsTo b w n else f.events b w
  else if c = b' then if w ∈ done then f.eventsFrom b w n else f.events b' w
  else f.events c w

theorem shares_next (hne : b ≠ b') (n : Nat) (done : List VarId) (v : VarId) (c : NodeId)
    (w : VarId) : f.shares b b' n (done ++ [v]) c w =
      amend (amend (f.shares b b' n done) b v (f.eventsTo b v n)) b' v (f.eventsFrom b v n)
        c w := by
  rw [amend, amend, shares, shares]
  by_cases hw : w = v
  · by_cases hb : c = b
    · simp [hw, hb, hne]
    · by_cases hb' : c = b'
      · simp [hw, hb', Ne.symm hne]
      · simp [hb, hb']
  · simp [hw]

theorem splitTimelines_reposts {g : Func} {n : Nat} (hs : g.Stocked []) (h : g.Linked)
    (hne : b ≠ b') (hb' : (g.nodes.get? b').isSome) (hL : g.Books f.events)
    (hnew : ∀ w, f.events b' w = [])
    (hc : ∀ w, g.Cuts b' (f.eventsTo b w n) (f.eventsFrom b w n)) {out : List TimelineId}
    (hrun : (g.blockAt b).timelines.filterMapM (fun e => Edit.splitTimeline e.2 b') g =
      .ok out f') :
    Reposts (f.shares b b' n ((g.blockAt b).timelines.map Prod.fst)) g f' ∧
      ∀ u ∈ out, ∃ w, f'.timelineId? b' w = some u := by
  refine Edit.filterMapM_ok (fun done out g' => Reposts (f.shares b b' n (done.map Prod.fst)) g g' ∧
    ∀ u ∈ out, ∃ w, g'.timelineId? b' w = some u) ?_
    ⟨.refl h (hL.congr (fun _ _ => rfl) ?_), ?_⟩ hrun
  · rintro done e rest out g₁ r g₂ hl ⟨h₁, hout⟩ hstep
    have hkeys := h.tables.keys b
    have hid : g.timelineId? b e.1 = some e.2 :=
      lookup_of_mem hkeys (hl ▸ List.mem_append_right _ List.mem_cons_self)
    rw [hl, List.map_append, List.map_cons] at hkeys
    have hv : e.1 ∉ done.map Prod.fst := fun hm =>
      (List.nodup_append.mp hkeys).2.2 _ hm _ List.mem_cons_self rfl
    obtain ⟨h₂, hr⟩ := splitTimeline_reposts (hs.sameGraph h₁.toSameGraph) h₁.linked hne
      ((h₁.stored b').trans hb') (h₁.id hid) h₁.books
      (by rw [shares, if_pos rfl, if_neg hv, events_cut f b e.1 n])
      (by rw [shares, if_neg (Ne.symm hne), if_pos rfl, if_neg hv, hnew])
      ((hc e.1).congr h₁.insts) hstep
    refine ⟨{ h₁.trans h₂ with books := h₂.books.congr (fun _ _ => rfl) fun c w => ?_ },
      fun u hu => ?_⟩
    · rw [List.map_append]
      exact shares_next hne n _ _ c w
    · rcases List.mem_append.mp hu with hu | hu
      · exact (hout u hu).imp fun w hw => h₂.id hw
      · exact ⟨e.1, hr u (Option.mem_toList.mp hu)⟩
  · intro c w
    rw [shares]
    split
    · next hcb => rw [hcb]; rfl
    · split
      · next hcb => rw [hcb]; rfl
      · rfl
  · intro u hu
    cases hu

def Func.halfEvents (f : Func) (b b' : NodeId) (n : Nat) (c : NodeId) (w : VarId) : List Event :=
  if c = b then f.eventsTo b w n else if c = b' then f.eventsFrom b w n else f.events c w

/-- Nothing happens to a variable that a block does not list. -/
theorem shares_all {g : Func} (hL : g.Books f.events) (hnew : ∀ w, f.events b' w = []) (n : Nat)
    (c : NodeId) (w : VarId) :
    f.shares b b' n ((g.blockAt b).timelines.map Prod.fst) c w = f.halfEvents b b' n c w := by
  rw [shares, halfEvents]
  by_cases hw : w ∈ (g.blockAt b).timelines.map Prod.fst
  · simp only [hw, if_true]
  · have hnone := timelineId?_of_not_mem hw
    have hnil : f.events b w = [] := by
      refine eq_nil_of_ledger ((hL b w).symm.trans (account_of_none ?_))
      rw [timeline?, hnone]
      rfl
    have hcut := hnil
    rw [events_cut f b w n, List.append_eq_nil_iff] at hcut
    simp only [hw, if_false, hnil, hcut.1, hcut.2, hnew]

end

/-! ## The whole split -/

section

variable {f f₁ f₂ f₃ f₄ f' : Func} {b b' : NodeId} {v : VarId} {n : Nat}

theorem Func.Seated.pairwise_index (h : f.Seated) (b : NodeId) :
    (f.code b).Pairwise fun i j => f.indexOf i < f.indexOf j := by
  have hindex : ∀ {k i}, (f.code b)[k]? = some i → f.indexOf i = k := by
    intro k i hi
    obtain ⟨x, hx, _⟩ := h.claims.mp (List.mem_of_getElem? hi)
    rw [indexOf, inst, hx, Option.getD_some, h.index (List.mem_of_getElem? hi) hx,
      idxOf_of_getElem? (h.nodup b) hi]
  rw [List.pairwise_iff_getElem]
  intro k m hk hm hkm
  rw [hindex (List.getElem?_eq_getElem hk), hindex (List.getElem?_eq_getElem hm)]
  exact hkm

theorem Halves.eventsOf (h : Halves b b' n f f₁) (v : VarId) : f₁.eventsOf v = f.eventsOf v := by
  funext i
  exact eventsOf_congr (congrArg (fun x => x.2.1) (h.content i)) (h.dest i) v

/-- The cut of the code cuts what happens to every variable. -/
theorem Halves.cuts (h : Halves b b' n f f₁) (hs : f.Scheduled) (v : VarId) :
    f₁.Cuts b' (f.eventsTo b v n) (f.eventsFrom b v n) := by
  have hstands : ∀ {i}, f₁.standsIn b' i = decide (i ∈ (f.code b).drop n) := fun {i} => by
    rw [Func.standsIn, decide_eq_decide, h.seated.block_iff, h.back]
  have hnodup := hs.nodup b
  rw [← List.take_append_drop n (f.code b)] at hnodup
  have hfront : ∀ {i}, i ∈ (f.code b).take n → f₁.standsIn b' i = false := fun {i} hi => by
    rw [hstands]
    exact decide_eq_false fun hm => (List.nodup_append.mp hnodup).2.2 i hi i hm rfl
  have hback : ∀ {i}, i ∈ (f.code b).drop n → f₁.standsIn b' i = true := fun {i} hi => by
    rw [hstands]
    exact decide_eq_true hi
  refine ⟨fun i hi => hfront (mem_of_defsIn hi), fun i hi => hback (mem_of_defsIn hi),
    fun u hu => hfront (mem_of_usesIn hu), fun u hu => hback (mem_of_usesIn hu), ?_⟩
  have hsorted := pairwise_usesIn (h.seated.pairwise_index b') v
  rw [h.back, h.eventsOf] at hsorted
  exact hsorted

theorem Func.Linked.stored_feeds (h : f.Linked) {c : NodeId} {e : NodeId × Option TimelineId}
    (he : e ∈ f.feeds c v) : (f.nodes.get? e.1).isSome := by
  rw [feeds, List.mem_map] at he
  obtain ⟨m, hm, rfl⟩ := he
  obtain ⟨t, i, _, hi, _⟩ := h.tables.get?_of_mem hm
  rw [incomingAt_of_get? hi]
  exact h.pred hi

theorem MovesEdges.keeps (h : MovesEdges b b' f f') : Keeps f f' := by
  rw [h.rest]
  exact ⟨⟨rfl, rfl, rfl, rfl, rfl, rfl, fun _ => rfl⟩, rfl, rfl, rfl, rfl, rfl, fun _ => rfl,
    fun _ => rfl, fun _ => rfl⟩

theorem MovesEdges.sameGraph (h : MovesEdges b b' f f') : SameGraph f f' := h.keeps.toSameGraph

/-- Nodes that come from the second half now did not come from it before. -/
theorem MovesEdges.linked (h : MovesEdges b b' f f') (hl : f.Linked) (hs : f.Stocked [])
    (hb' : (f.nodes.get? b').isSome) (hnew : ∀ c w, ∀ e ∈ f.feeds c w, e.1 ≠ b')
    (hm : f'.memo = []) : f'.Linked where
  tables := h.tables hl.tables
  preds := (hs.sameGraph h.sameGraph).stored_preds
  pred := fun {m i} hi => by
    rw [h.get, Option.map_eq_some_iff] at hi
    obtain ⟨x, hx, rfl⟩ := hi
    rw [h.sameGraph.stored]
    split
    · exact hb'
    · exact hl.pred hx
  apart c w := by
    have hmove : (f'.feeds c w).map Prod.fst =
        ((f.feeds c w).map Prod.fst).map fun p => if p = b ∧ c ∈ f.succs b' then b' else p := by
      rw [h.feeds hl.tables, List.map_map, List.map_map]
      rfl
    have hold : ∀ p ∈ (f.feeds c w).map Prod.fst, p ≠ b' := fun p hp => by
      obtain ⟨e, he, rfl⟩ := List.mem_map.mp hp
      exact hnew c w e he
    rw [hmove]
    refine List.Nodup.map_on (fun p hp q hq hpq => ?_) (hl.apart c w)
    split at hpq <;> split at hpq
    · next hpb hqb => rw [hpb.1, hqb.1]
    · exact absurd hpq.symm (hold q hq)
    · exact absurd hpq (hold p hp)
    · exact hpq
  recalls := fun hmem => by
    rw [hm] at hmem
    cases hmem

theorem Halves.phisFirst (h : Halves b b' n f f₁) (hp : f.PhisFirst)
    (hphi : (f.blockAt b).phiCount ≤ n) (hb' : (f.blockAt b').phiCount = 0) : f₁.PhisFirst := by
  refine hp.of_sublist (fun c => ?_) fun _ i _ => ⟨congrArg (fun x => x.1) (h.content i), h.dest i⟩
  by_cases hcb : c = b
  · subst hcb
    refine ⟨c, ?_, ?_⟩
    · rw [Func.phis, Func.phis, h.front, h.phiCount, List.take_take]
      exact List.take_sublist_take_left (Nat.min_le_left _ _)
    · rw [plain, plain, h.front, h.phiCount]
      exact (List.take_sublist _ _).drop _
  · by_cases hcb' : c = b'
    · subst hcb'
      refine ⟨b, ?_, ?_⟩
      · rw [Func.phis, h.phiCount, hb', List.take_zero]
        exact List.nil_sublist _
      · rw [plain, plain, h.back, h.phiCount, hb', List.drop_zero]
        exact List.drop_sublist_drop_left _ hphi
    · refine ⟨c, ?_, ?_⟩
      · rw [Func.phis, Func.phis, h.code c hcb hcb', h.phiCount]
      · rw [plain, plain, h.code c hcb hcb', h.phiCount]

theorem Halves.events (h : Halves b b' n f f₁) (c : NodeId) (w : VarId) :
    f₁.events c w = f.halfEvents b b' n c w := by
  rw [Func.events, h.eventsOf, halfEvents]
  split
  · next hc => rw [hc, h.front, eventsTo]
  · next hcb =>
    split
    · next hc => rw [hc, h.back, eventsFrom]
    · next hcb' => rw [h.code c hcb hcb', Func.events]

/-- The steps of a split up to the announcement leave the function well-formed. -/
theorem halves_wellFormed (h : f.WellFormed) (hh : Halves b b' n f f₁)
    (hphi : (f.blockAt b).phiCount ≤ n)
    (hr : Restocks f₁ f₂) (hp : Reposts (f.halfEvents b b' n) f₂ f₃)
    (hfeeds : ∀ c w, f₃.feeds c w = f₂.feeds c w) (hm : MovesEdges b b' f₃ f₄)
    (hmemo : f₄.memo = []) : f₄.WellFormed := by
  have hgraph : SameGraph f₂ f₄ := hp.toSameGraph.trans hm.sameGraph
  have hstocked := hr.stocked.sameGraph hgraph
  have hblock : ∀ c, f₄.blockAt c = f₃.blockAt c := fun c => by rw [hm.rest]; rfl
  have hcode : ∀ c, f₄.code c = f₁.code c := fun c => by
    rw [Func.code, hblock, hp.instructions]
    exact hr.code c
  have hphis : ∀ c, (f₄.blockAt c).phiCount = (f₁.blockAt c).phiCount := fun c => by
    rw [hblock, hp.phiCount, hr.phiCount]
  have hinsts : f₄.insts = f₁.insts := by
    rw [hm.rest]
    exact hp.insts.trans hr.insts
  have hinst : ∀ i, f₄.inst i = f₁.inst i := fun i => by rw [inst, inst, hinsts]
  have hbooks : f₄.Books f₄.events := hp.books.congr
    (fun c w => by
      rw [hm.rest]
      rfl)
    fun c w => by
      rw [← hh.events, events, events, hcode]
      exact List.flatMap_congr fun i _ => eventsOf_congr (by rw [hinst]) (by rw [hinst]) w
  have hb' : (f₃.nodes.get? b').isSome := by
    rw [hp.stored]
    refine hr.blocks b' ?_
    rw [hh.stored, decide_eq_true rfl, Bool.true_or]
  refine ⟨{
    held := by
      rw [hgraph.bodyHeld]
      exact hr.held (hh.bodyHeld.trans h.held)
    stocked := hstocked
    linked := hm.linked hp.linked (hr.stocked.sameGraph hp.toSameGraph) hb' (fun c w e he => ?_)
      hmemo
    scheduled := (hh.seated.congr hcode fun i => by rw [hinsts]).consistent
      (fun c => by rw [hphis, hcode]; exact hh.phis c) hbooks
    books := hbooks }, ?_⟩
  · -- The second half is a new block.
    rw [hfeeds, hr.toSameRecords.feeds, hh.toSameRecords.feeds] at he
    rintro rfl
    have hs := h.linked.stored_feeds he
    rw [hh.fresh, Arena.get?_next] at hs
    cases hs
  · refine (hh.phisFirst h.phisFirst hphi ?_).congr hcode hphis fun i => by
      rw [hinst]
      exact ⟨rfl, rfl⟩
    rw [hh.fresh, blockAt_next]
    rfl

theorem announceAll_weaves {out : List TimelineId} {cache : Option IncomingCache} {α : Type}
    {a r : α} (h : f.Linked) (hout : ∀ t ∈ out, ∃ c w, f.timelineId? c w = some t)
    (hrun : (do
      for t in out do
        let _ ← Edit.propagate t cache
      return r : Edit α) f = .ok a f') : Weaves f f' := by
  obtain ⟨g, hg, hdone⟩ := Edit.forIn_ok (fun _ g => Weaves f g)
    (fun done t rest g s g' hl hg hstep => by
      obtain ⟨k, g₁, hprop, hnext⟩ := Edit.bind_ok hstep
      cases hnext
      obtain ⟨c, w, hid⟩ := hout t (hl ▸ List.mem_append_right _ List.mem_cons_self)
      obtain ⟨x, hx, _⟩ := hg.linked.tables.placed (hg.id hid)
      exact ⟨rfl, hg.trans (propagate_weaves hg.linked (by rw [hx]; rfl) hprop)⟩) (.refl h) hrun
  cases hdone
  exact hg

/-- What a split does once the second half has its place: the timelines in `lists` are divided, the
edges moved, and what the second half defines is announced. -/
def Edit.settleHalves (b b' : NodeId) (lists : List (VarId × TimelineId)) : Edit NodeId := do
  let moved ← lists.filterMapM fun e => Edit.splitTimeline e.2 b'
  Edit.moveEdges b b'
  Edit.touch
  for t in moved do
    let _ ← Edit.propagate t (some (.ofBlocks [b']))
  return b'

/-- Where a block can be cut: behind its phis, and not if it is the condition of a loop. -/
structure Func.Splits (f : Func) (ref : ComponentRef) (position : Int) : Prop where
  owner : ref.owner = f.handle
  phis : ((f.blockAt ref.id).phiCount : Int) ≤ position
  length : position ≤ (f.code ref.id).length
  parent : ∀ p, f.parent? ref.id ≠ some (p, .loopCondition)

theorem Func.Splits.phis_le {ref : ComponentRef} {position : Int} (h : f.Splits ref position) :
    (f.blockAt ref.id).phiCount ≤ position.toNat := by
  have := h.phis
  omega

theorem splits_of_ok {ref : ComponentRef} {position : Int}
    (hrun : Edit.split ref position f = .ok b' f') :
    f.frozen = false ∧ f.Splits ref position := by
  obtain ⟨hunfrozen, hrun⟩ := Edit.unfrozen_bind_ok hrun
  rw [Edit.bind_eq Edit.get_eq] at hrun
  obtain ⟨hown, hrun⟩ := Edit.require_bind_ok hrun
  obtain ⟨hplace, hrun⟩ := Edit.require_bind_ok hrun
  obtain ⟨hcond, hrun⟩ := Edit.require_bind_ok hrun
  rw [Bool.and_eq_true, decide_eq_true_eq, decide_eq_true_eq] at hplace
  refine ⟨hunfrozen, of_decide_eq_true hown, hplace.1, hplace.2, fun p hp => ?_⟩
  rw [hp] at hcond
  simp at hcond

/-- The block is cut, and its second half is put into the tree. -/
theorem split_eq {ref : ComponentRef} {position : Int} (h : f.WellFormed) (hu : f.frozen = false)
    (hb : (f.nodes.get? ref.id).isSome) (hs : f.Splits ref position) :
    ∃ f₁, Halves ref.id f.nodes.next position.toNat f f₁ ∧ f₁.memo = f.memo ∧ f₁.Stocked [] ∧
      Edit.split ref position f = (do
        Edit.placeSecondHalf ref.id f.nodes.next
        Edit.settleHalves ref.id f.nodes.next (f.blockAt ref.id).timelines : Edit NodeId) f₁ := by
  obtain ⟨name, hopen⟩ := newBlock_eq hu ref.label
  obtain ⟨f₁, hindex, hreindexed⟩ := reindex_ok (b := f.nodes.next)
    (f := f.halved ref.id position.toNat name) (by
      rw [code_halved hb, if_pos rfl]
      exact (h.scheduled.nodup _).sublist (List.drop_sublist _ _))
  refine ⟨f₁, halves_of_reindexed h.scheduled hb hs.phis_le hreindexed,
    by rw [hreindexed.rest]; rfl, ?_, ?_⟩
  · refine (newBlock_stocked h.stocked hopen).stocked.sameGraph (.trans ?_
      hreindexed.recodes.toSameGraph)
    exact ⟨rfl, rfl, rfl, rfl, rfl, by rw [halved, Arena.size_modify, Arena.size_modify],
      fun c => by rw [halved, Edit.isSome_get?_modify, Edit.isSome_get?_modify]⟩
  · have hcond : (f.parent? ref.id).all (fun p => decide (p.2 ≠ .loopCondition)) = true := by
      cases hp : f.parent? ref.id with
      | none => rfl
      | some e => exact decide_eq_true fun he => hs.parent e.1 (by rw [hp, ← he])
    rw [Edit.split, Edit.bind_eq (Edit.unfrozen_eq hu _), Edit.bind_eq Edit.get_eq,
      Edit.bind_eq (Edit.require_eq (decide_eq_true hs.owner) _ _),
      Edit.bind_eq (Edit.require_eq (by simpa using ⟨hs.phis, hs.length⟩) _ _),
      Edit.bind_eq (Edit.require_eq hcond _ _), Edit.bind_eq hopen,
      Edit.bind_eq (Edit.changeBlock_eq _ _), Edit.bind_eq (Edit.changeBlock_eq _ _)]
    exact Edit.bind_eq hindex

theorem ne_next_of_stored (hb : (f.nodes.get? b).isSome) : b ≠ f.nodes.next := by
  obtain ⟨x, hx⟩ := Option.isSome_iff_exists.mp hb
  exact f.nodes.ne_next_of_get? hx

/-- Once the second half has its place, dividing the timelines and moving the edges leaves a
function that can be trusted. -/
theorem halves_memoCorrect {u u' : Unit} {out : List TimelineId} (h : f.WellFormed)
    (hb : (f.nodes.get? b).isSome) (hh : Halves b f.nodes.next n f f₁)
    (hmemo : f₁.memo = f.memo) (hphi : (f.blockAt b).phiCount ≤ n) (hr : Restocks f₁ f₂)
    (hparted : (f.blockAt b).timelines.filterMapM
      (fun e => Edit.splitTimeline e.2 f.nodes.next) f₂ = .ok out f₃)
    (hmoved : Edit.moveEdges b f.nodes.next f₃ = .ok u f₄) (htouch : Edit.touch f₄ = .ok u' f') :
    Reposts (f.halfEvents b f.nodes.next n) f₂ f₃ ∧
        MovesEdges b f.nodes.next f₃ f' ∧ f'.MemoCorrect ∧
      ∀ t ∈ out, ∃ c w, f'.timelineId? c w = some t := by
  cases htouch
  have hb₂ : (f₂.nodes.get? f.nodes.next).isSome :=
    hr.blocks _ (by rw [hh.stored, decide_eq_true rfl, Bool.true_or])
  have hne := ne_next_of_stored hb
  have hrecords : SameLinks f f₂ := hh.toSameRecords.sameLinks.trans hr.toSameRecords.sameLinks
  have hlinked : f₂.Linked := h.linked.congr hrecords hr.stocked
    (fun c hc => hr.blocks c (by rw [hh.stored, hc, Bool.or_true])) (hmemo ▸ hr.memo)
  have hbooks : f₂.Books f.events := h.books.congr
    (fun c w => (hr.toSameRecords.account c w).trans (hh.toSameRecords.account c w))
    fun _ _ => rfl
  have hnew : ∀ w, f.events f.nodes.next w = [] := fun w => by rw [events, code_next]; rfl
  have hlisted : (f₂.blockAt b).timelines = (f.blockAt b).timelines := by
    rw [hr.listed, hh.listed]
  rw [← hlisted] at hparted
  obtain ⟨hreposts, hout⟩ := splitTimelines_reposts hr.stocked hlinked hne hb₂ hbooks hnew
    (fun w => (hh.cuts h.scheduled w).congr hr.insts) hparted
  have hparts := splitTimelines_ok hlinked.tables hne hb₂
    (fun w => by
      rw [hrecords.timelineId?, timelineId?, blockAt_next]
      rfl) hparted
  have hmoves := moveEdges_ok hmoved
  have hforgets : MovesEdges b f.nodes.next f₃
      { f₄ with generation := f₄.generation + 1, memo := [] } := ⟨by rw [hmoves.rest], hmoves.get⟩
  have hdivided : Reposts (f.halfEvents b f.nodes.next n) f₂ f₃ :=
    { hreposts with books := hreposts.books.congr (fun _ _ => rfl) fun c w =>
        (shares_all hbooks hnew _ c w).symm }
  refine ⟨hdivided, hforgets,
      .of_nil (halves_wellFormed h hh hphi hr hdivided hparts.feeds hforgets rfl)
    rfl, fun t ht => ?_⟩
  obtain ⟨w, hw⟩ := hout t ht
  refine ⟨f.nodes.next, w, ?_⟩
  show ({ f₄ with generation := f₄.generation + 1, memo := [] } : Func).timelineId? _ _ = _
  rw [hforgets.rest]
  exact hw

/-- A split step by step: the halves are made, the second one is put into the tree, the timelines
are divided, the edges moved, and last nodes are bound anew. -/
theorem split_steps {ref : ComponentRef} {position : Int} (h : f.WellFormed)
    (hb : (f.nodes.get? ref.id).isSome) (hrun : Edit.split ref position f = .ok b' f') :
    ∃ f₁ f₂ f₃ f₄, Halves ref.id f.nodes.next position.toNat f f₁ ∧ Restocks f₁ f₂ ∧
      Reposts (f.halfEvents ref.id f.nodes.next position.toNat) f₂ f₃ ∧
      MovesEdges ref.id f.nodes.next f₃ f₄ ∧ f₄.MemoCorrect ∧ Weaves f₄ f' := by
  obtain ⟨hu, hs⟩ := splits_of_ok hrun
  obtain ⟨f₁, hh, hmemo, hstocked, heq⟩ := split_eq h hu hb hs
  rw [heq] at hrun
  obtain ⟨_, f₂, hplaced, hrun⟩ := Edit.bind_ok hrun
  have hr := placeSecondHalf_restocks hstocked (by rw [hh.stored, hb, Bool.or_true])
    (by rw [hh.stored, decide_eq_true rfl, Bool.true_or])
    (fun p hp => hs.parent p (by rwa [parent?_of_adds hh.toAdds] at hp)) hplaced
  obtain ⟨out, f₃, hparted, hrun⟩ := Edit.bind_ok hrun
  obtain ⟨_, f₄, hmoved, hrun⟩ := Edit.bind_ok hrun
  obtain ⟨_, f₅, htouch, hrun⟩ := Edit.bind_ok hrun
  obtain ⟨hposts, hmoves, hcorrect, hout⟩ :=
    halves_memoCorrect h hb hh hmemo hs.phis_le hr hparted hmoved htouch
  exact ⟨f₁, f₂, f₃, f₅, hh, hr, hposts, hmoves, hcorrect,
    announceAll_weaves hcorrect.linked hout hrun⟩

theorem split_memoCorrect {ref : ComponentRef} {position : Int} (h : f.WellFormed)
    (hb : (f.nodes.get? ref.id).isSome) (hrun : Edit.split ref position f = .ok b' f') :
    f'.MemoCorrect := by
  obtain ⟨_, _, _, _, _, _, _, _, hcorrect, hw⟩ := split_steps h hb hrun
  exact hw.memoCorrect hcorrect

end

end DefFlow.Flow
