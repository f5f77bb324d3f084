import DefFlow.Proofs.Edits.Cut

/-!
# Splitting a block

The instructions behind the cut move to the second half with what they define and use,
the nodes behind the block name the second half as their predecessor, and what the second
half decides is announced.

Main statement: splitting a block of the body leaves every node fresh and the
instructions in their places.
-/

set_option autoImplicit false

namespace DefFlow.Flow

open Func Component

/-! ## The code -/

structure Halves (b b' : NodeId) (n : Nat) (f f' : Func) : Prop
    extends Adds b' f f', SameRecords f f' where
  handle : f'.handle = f.handle
  frozen : f'.frozen = f.frozen
  front : f'.code b = (f.code b).take n
  back : f'.code b' = (f.code b).drop n
  code : ∀ c, c ≠ b → c ≠ b' → f'.code c = f.code c
  phis : ∀ c, (f'.blockAt c).phiCount ≤ (f'.code c).length
  phiCount : ∀ c, (f'.blockAt c).phiCount = (f.blockAt c).phiCount
  seated : f'.Seated
  content : ∀ i, (f'.inst i).content = (f.inst i).content

theorem Halves.dest {b b' : NodeId} {n : Nat} {f f' : Func} (h : Halves b b' n f f')
    (i : InstId) : (f'.inst i).dest = (f.inst i).dest := congrArg (fun x => x.2.2) (h.content i)

def Func.halved (f : Func) (b : NodeId) (n : Nat) (label : String) : Func := { f with
  nodes := ((f.nodes.push ⟨label, [], 0, []⟩).modify f.nodes.next fun y =>
    { y with instructions := (f.code b).drop n }).modify b fun y =>
      { y with instructions := (f.code b).take n }
  blockCount := f.blockCount + 1
  detached := f.detached ++ [.block f.nodes.next] }

section

variable {f f' : Func} {b : NodeId} {n : Nat} {label : String}

theorem get?_halved (hb : (f.nodes.get? b).isSome) (c : NodeId) :
    (f.halved b n label).nodes.get? c =
      if c = f.nodes.next then some ⟨label, (f.code b).drop n, 0, []⟩
      else if c = b then some { f.blockAt b with instructions := (f.code b).take n }
      else f.nodes.get? c := by
  obtain ⟨x, hx⟩ := Option.isSome_iff_exists.mp hb
  have hne := f.nodes.ne_next_of_get? hx
  rw [halved, Arena.get?_modify_map, Arena.get?_modify_map, Arena.get?_push, blockAt, hx]
  by_cases hc : c = f.nodes.next
  · subst hc
    simp [hne]
  · by_cases hcb : c = b
    · subst hcb
      simp [hc, Ne.symm hc, hx]
    · simp [hc, hcb, Ne.symm hc, Ne.symm hcb]

theorem blockAt_next (f : Func) : f.blockAt f.nodes.next = default := by
  rw [blockAt, f.nodes.get?_next]
  rfl

theorem code_next (f : Func) : f.code f.nodes.next = [] := by
  rw [code, blockAt_next]
  rfl

theorem adds_halved (hb : (f.nodes.get? b).isSome) :
    Adds f.nodes.next f (f.halved b n label) where
  body := rfl
  bodyHeld := rfl
  detached := rfl
  fresh := rfl
  size := by rw [halved, Arena.size_modify, Arena.size_modify, Arena.size_push]
  stored c := by
    rw [get?_halved hb]
    by_cases hc : c = f.nodes.next
    · simp [hc]
    · by_cases hcb : c = b
      · subst hcb
        simp [hc, hb]
      · simp [hc, hcb]

theorem blockAt_halved (hb : (f.nodes.get? b).isSome) (c : NodeId) :
    (f.halved b n label).blockAt c =
      if c = f.nodes.next then ⟨label, (f.code b).drop n, 0, []⟩
      else if c = b then { f.blockAt b with instructions := (f.code b).take n }
      else f.blockAt c := by
  rw [blockAt, get?_halved hb]
  split
  · rfl
  · split <;> rfl

theorem sameRecords_halved (hb : (f.nodes.get? b).isSome) :
    SameRecords f (f.halved b n label) where
  listed c := by
    rw [blockAt_halved hb]
    split
    · next hc =>
      rw [hc, blockAt_next]
      rfl
    · split
      · next hc => rw [hc]
      · rfl
  timelines := rfl
  incoming := rfl

theorem code_halved (hb : (f.nodes.get? b).isSome) (c : NodeId) :
    (f.halved b n label).code c =
      if c = f.nodes.next then (f.code b).drop n
      else if c = b then (f.code b).take n else f.code c := by
  rw [code, blockAt_halved hb]
  split
  · rfl
  · split <;> rfl

theorem code_halved_first (hb : (f.nodes.get? b).isSome) :
    (f.halved b n label).code b = (f.code b).take n := by
  obtain ⟨x, hx⟩ := Option.isSome_iff_exists.mp hb
  rw [code_halved hb, if_neg (f.nodes.ne_next_of_get? hx), if_pos rfl]

theorem code_halved_second (hb : (f.nodes.get? b).isSome) :
    (f.halved b n label).code f.nodes.next = (f.code b).drop n := by
  rw [code_halved hb, if_pos rfl]

theorem code_halved_other (hb : (f.nodes.get? b).isSome) {c : NodeId} (hc : c ≠ b)
    (hc' : c ≠ f.nodes.next) : (f.halved b n label).code c = f.code c := by
  rw [code_halved hb, if_neg hc', if_neg hc]

/-- Once the second half has been counted every instruction knows its place. -/
theorem seated_of_reindexed (hseat : f.Seated) (hb : (f.nodes.get? b).isSome)
    (h : Reindexed f.nodes.next (f.halved b n label) f') : f'.Seated := by
  have hcut : f.code b = (f.code b).take n ++ (f.code b).drop n := (List.take_append_drop n _).symm
  have hnodup := hseat.nodup b
  rw [hcut] at hnodup
  obtain ⟨_, _, hapart⟩ := List.nodup_append.mp hnodup
  refine h.seated (fun c => ?_) (fun {i c} hi => ?_) (fun {i c y} hi hc hy => ?_) fun i hi => ?_
  · rw [code_halved hb]
    split
    · exact (hseat.nodup b).sublist (List.drop_sublist _ _)
    · split
      · exact (hseat.nodup b).sublist (List.take_sublist _ _)
      · exact hseat.nodup c
  · rw [code_halved_second hb] at hi
    refine Iff.trans ?_ hseat.claims
    by_cases hc : c = f.nodes.next
    · rw [hc, code_halved_second hb, code_next]
      exact iff_of_false hi List.not_mem_nil
    · by_cases hcb : c = b
      · rw [hcb, code_halved_first hb]
        conv_rhs => rw [hcut, List.mem_append]
        exact (or_iff_left hi).symm
      · rw [code_halved_other hb hcb hc]
  · rw [code_halved_second hb] at hi
    by_cases hcn : c = f.nodes.next
    · rw [hcn, code_halved_second hb] at hc
      exact absurd hc hi
    · by_cases hcb : c = b
      · rw [hcb, code_halved_first hb] at hc ⊢
        rw [hseat.index (List.mem_of_mem_take hc) hy]
        conv_lhs => rw [hcut]
        exact List.idxOf_append_of_mem hc
      · rw [code_halved_other hb hcb hcn] at hc ⊢
        exact hseat.index hc hy
  · rw [code_halved_second hb] at hi
    have hib := List.mem_of_mem_drop hi
    obtain ⟨y, hy, _⟩ := hseat.claims.mp hib
    refine ⟨Option.isSome_iff_exists.mpr ⟨y, hy⟩, fun c hc => ?_⟩
    by_contra hcn
    by_cases hcb : c = b
    · rw [hcb, code_halved_first hb] at hc
      exact hapart i hc i hi rfl
    · rw [code_halved_other hb hcb hcn] at hc
      exact hcb (hseat.block_unique hc hib)

theorem halves_of_reindexed (hs : f.Scheduled) (hb : (f.nodes.get? b).isSome)
    (hphi : (f.blockAt b).phiCount ≤ n)
    (h : Reindexed f.nodes.next (f.halved b n label) f') : Halves b f.nodes.next n f f' := by
  have hrec := h.recodes
  have hcode : ∀ c, f'.code c = (f.halved b n label).code c := fun c => by
    rw [Func.code, Func.code, h.blockAt]
  refine {
    toAdds := (adds_halved hb).sameGraph hrec.toSameGraph
    listed := fun c => (hrec.listed c).trans ((sameRecords_halved hb).listed c)
    timelines := hrec.timelines
    incoming := hrec.incoming
    handle := hrec.handle
    frozen := hrec.frozen
    front := (hcode b).trans (code_halved_first hb)
    back := (hcode _).trans (code_halved_second hb)
    code := fun c hc hc' => (hcode c).trans (code_halved_other hb hc hc')
    phis := fun c => ?_
    phiCount := fun c => ?_
    seated := seated_of_reindexed hs.seated hb h
    content := h.content }
  · rw [h.blockAt, hcode, code_halved hb, blockAt_halved hb]
    split
    · exact Nat.zero_le _
    · split
      · rw [List.length_take]
        exact Nat.le_min.mpr ⟨hphi, hs.phis b⟩
      · exact hs.phis c
  · rw [h.blockAt, blockAt_halved hb]
    split
    · next hc =>
      rw [hc, blockAt_next]
      rfl
    · split
      · next hc => rw [hc]
      · rfl

end

/-! ## The timelines -/

def Func.standsIn (f : Func) (b : NodeId) (i : InstId) : Bool := (f.inst i).block = some b

structure Parts (b b' : NodeId) (v : VarId) (f f' : Func) : Prop where
  keeps : Keeps f f'
  tables : f'.Tables
  feeds : ∀ c w, f'.feeds c w = f.feeds c w
  id : ∀ c w, c ≠ b' → f'.timelineId? c w = f.timelineId? c w
  id_other : ∀ w, w ≠ v → f'.timelineId? b' w = f.timelineId? b' w
  locals : ∀ c w, (c ≠ b ∧ c ≠ b') ∨ w ≠ v → f'.locals c w = f.locals c w
  front : f'.locals b v = (f.locals b v).filter fun i => !f.standsIn b' i
  back : f'.locals b' v = (f.locals b v).filter (f.standsIn b')
  incoming : f'.incoming = f.incoming

section

variable {f f' : Func} {b b' : NodeId} {v : VarId} {t : TimelineId}

theorem timelineId?_relisted {change : Timeline → Timeline} (c : NodeId) (w : VarId) :
    (f.relisted t change).timelineId? c w = f.timelineId? c w := rfl

/-- What has been remembered has no bearing on the lists. -/
theorem Parts.forget (h : Parts b b' v f f') : Parts b b' v f { f' with memo := [] } where
  keeps := h.keeps.trans (keeps_of_stores rfl)
  tables := SameRecords.tables (f := f') ⟨fun _ => rfl, rfl, rfl⟩ h.tables
  feeds := h.feeds
  id := h.id
  id_other := h.id_other
  locals := h.locals
  front := h.front
  back := h.back
  incoming := h.incoming

theorem parts_of_changes (ht : f.Tables) (hne : b ≠ b') {t' : TimelineId}
    (hid : f.timelineId? b v = some t) (hid' : f.timelineId? b' v = some t')
    {front back : Timeline → Timeline} {α : Type} {a r : α}
    (hrun : (do
      Edit.changeTimeline t front
      Edit.changeTimeline t' back
      Edit.bump
      return r : Edit α) f = .ok a f') (hfront : Relisting front) (hback : Relisting back)
    (hf : (front (f.timelineAt t)).locals.map Local.inst =
      (f.locals b v).filter fun i => !f.standsIn b' i)
    (hb : ∀ x, (back x).locals.map Local.inst = (f.locals b v).filter (f.standsIn b')) :
    a = r ∧ f'.timelineId? b' v = some t' ∧ Parts b b' v f f' := by
  rw [Edit.bind_eq (Edit.changeTimeline_eq _ _), Edit.bind_eq (Edit.changeTimeline_eq _ _),
    Edit.bind_eq Edit.bump_eq] at hrun
  obtain ⟨rfl, rfl⟩ := Edit.pure_ok hrun
  refine ⟨rfl, hid', Parts.forget (?_ : Parts b b' v f ((f.relisted t front).relisted t' back))⟩
  have ht₁ := relisted_tables ht hfront (t := t)
  refine {
    keeps := ⟨⟨rfl, rfl, rfl, rfl, rfl, rfl, fun _ => rfl⟩, rfl, rfl, rfl, rfl, rfl, fun _ => rfl,
      fun _ => rfl, fun _ => rfl⟩
    tables := relisted_tables ht₁ hback
    feeds := fun c w => by rw [feeds_relisted hback, feeds_relisted hfront]
    id := fun _ _ _ => rfl
    id_other := fun _ _ => rfl
    locals := fun c w hcw => ?_
    front := ?_
    back := ?_
    incoming := rfl }
  · rw [locals_relisted ht₁, if_neg, locals_relisted ht, if_neg]
    · intro h
      obtain ⟨rfl, rfl⟩ := ht.eq_of_timelineId? hid h
      exact hcw.elim (fun hc => hc.1 rfl) fun hw => hw rfl
    · intro h
      obtain ⟨rfl, rfl⟩ := ht.eq_of_timelineId? hid' h
      exact hcw.elim (fun hc => hc.2 rfl) fun hw => hw rfl
  · rw [locals_relisted ht₁, if_neg, locals_relisted ht, if_pos hid, hf]
    intro h
    exact hne (ht.eq_of_timelineId? hid' h).1
  · rw [locals_relisted ht₁, timelineId?_relisted, if_pos hid', hb]

theorem Parts.of_lists {g : Func} (hl : Lists b' v t f g) (h : Parts b b' v g f') :
    Parts b b' v f f' := by
  have hstands : g.standsIn b' = f.standsIn b' := by
    funext i
    rw [Func.standsIn, Func.standsIn, hl.keeps.inst]
  exact {
    keeps := hl.keeps.trans h.keeps
    tables := h.tables
    feeds := fun c w => (h.feeds c w).trans (hl.feeds c w)
    id := fun c w hc => by rw [h.id c w hc, hl.id, if_neg fun he => hc he.1]
    id_other := fun w hw => by rw [h.id_other w hw, hl.id, if_neg fun he => hw he.2]
    locals := fun c w hcw => (h.locals c w hcw).trans (hl.locals c w)
    front := by rw [h.front, hl.locals, hstands]
    back := by rw [h.back, hl.locals, hstands]
    incoming := h.incoming.trans hl.incoming }

theorem map_filter_inst (l : List Local) (p : InstId → Bool) :
    (l.filter fun x => p x.inst).map Local.inst = (l.map Local.inst).filter p := by
  rw [List.filter_map]
  rfl

theorem splitTimeline_ok (ht : f.Tables) (hne : b ≠ b') (hb' : (f.nodes.get? b').isSome)
    (hid : f.timelineId? b v = some t) (hnew : f.locals b' v = []) {r : Option TimelineId}
    (hrun : Edit.splitTimeline t b' f = .ok r f') :
    Parts b b' v f f' ∧ ∀ t', r = some t' ↔ f'.timelineId? b' v = some t' ∧
        f'.locals b' v ≠ [] := by
  have hlocals := ht.locals_eq hid
  have hvar := ht.var_eq hid
  rw [Edit.splitTimeline, Edit.bind_eq Edit.get_eq] at hrun
  dsimp only at hrun
  have hmoved := map_filter_inst (f.timelineAt t).locals (f.standsIn b')
  have hformed := map_filter_inst (f.timelineAt t).locals fun i => !f.standsIn b' i
  rw [← hlocals] at hmoved hformed
  simp only [Func.standsIn] at hmoved hformed
  split at hrun
  · next hnone =>
    rw [Bool.and_eq_true, List.isEmpty_iff] at hnone
    cases hrun
    rw [hnone.1, List.map_nil] at hmoved
    refine ⟨⟨.refl f, ht, fun _ _ => rfl, fun _ _ _ => rfl, fun _ _ => rfl, fun _ _ _ => rfl,
      ?_, ?_, rfl⟩, fun t' => ?_⟩
    · refine (List.filter_eq_self.mpr fun i hi => ?_).symm
      have := List.filter_eq_nil_iff.mp hmoved.symm i hi
      simpa using this
    · rw [hnew]
      exact hmoved
    · rw [hnew]
      simp
  · next hsome =>
    obtain ⟨t', f₁, hfor, ht₁, hlists⟩ := Edit.timelineFor_ok ht hb' v
    rw [hvar, Edit.bind_eq hfor] at hrun
    have hid₁ : f₁.timelineId? b v = some t := by
      rw [hlists.id, if_neg fun h => hne h.1]
      exact hid
    have hstands : f₁.standsIn b' = f.standsIn b' := by
      funext i
      rw [Func.standsIn, Func.standsIn, hlists.keeps.inst]
    obtain ⟨rfl, hid', hparts⟩ := parts_of_changes ht₁ hne hid₁ hlists.self hrun
      ⟨fun _ => rfl, fun _ => rfl, fun _ => rfl, fun _ => rfl⟩
      ⟨fun _ => rfl, fun _ => rfl, fun _ => rfl, fun _ => rfl⟩
      (by
        rw [hlists.locals, hstands, List.map_map]
        exact hformed)
      (fun _ => by
        rw [hlists.locals, hstands]
        exact hmoved)
    refine ⟨.of_lists hlists hparts, fun u => ?_⟩
    have hback := hparts.back
    rw [hlists.locals, hstands, ← hmoved] at hback
    rw [hback, hid']
    cases hm : (f.timelineAt t).locals.filter fun l => decide ((f.inst l.inst).block = some b')
    · simp
    · simp

structure Parted (b b' : NodeId) (done : List VarId) (out : List TimelineId) (f f' : Func) :
    Prop where
  keeps : Keeps f f'
  tables : f'.Tables
  feeds : ∀ c w, f'.feeds c w = f.feeds c w
  id : ∀ c w, c ≠ b' → f'.timelineId? c w = f.timelineId? c w
  locals : ∀ c w, c ≠ b → c ≠ b' → f'.locals c w = f.locals c w
  front : ∀ w, f'.locals b w = (f.locals b w).filter fun i =>
      !(decide (w ∈ done) && f.standsIn b' i)
  back : ∀ w, f'.locals b' w = (f.locals b w).filter fun i => decide (w ∈ done) && f.standsIn b' i
  incoming : f'.incoming = f.incoming
  out : ∀ u, u ∈ out ↔ ∃ w, f'.timelineId? b' w = some u ∧ f'.locals b' w ≠ []

theorem Parted.start (ht : f.Tables) (hnew : ∀ w, f.timelineId? b' w = none) :
    Parted b b' [] [] f f where
  keeps := .refl f
  tables := ht
  feeds _ _ := rfl
  id _ _ _ := rfl
  locals _ _ _ _ := rfl
  front w := by simp
  back w := by simp [locals_of_none (hnew w)]
  incoming := rfl
  out u := by simp [hnew]

theorem Parted.next {done : List VarId} {out : List TimelineId} {g : Func} {r : Option TimelineId}
    (h : Parted b b' done out f g) (hv : v ∉ done) (hp : Parts b b' v g f')
    (hr : ∀ u, r = some u ↔ f'.timelineId? b' v = some u ∧ f'.locals b' v ≠ []) :
    Parted b b' (done ++ [v]) (out ++ r.toList) f f' := by
  have hstands : g.standsIn b' = f.standsIn b' := by
    funext i
    rw [Func.standsIn, Func.standsIn, h.keeps.inst]
  have hfront : g.locals b v = f.locals b v := by
    rw [h.front]
    simp [hv]
  have hback : g.locals b' v = [] := by
    rw [h.back]
    simp [hv]
  have hmem : ∀ {w}, w ≠ v → (w ∈ done ++ [v] ↔ w ∈ done) := fun hw => by simp [hw]
  exact {
    keeps := h.keeps.trans hp.keeps
    tables := hp.tables
    feeds := fun c w => (hp.feeds c w).trans (h.feeds c w)
    id := fun c w hc => (hp.id c w hc).trans (h.id c w hc)
    locals := fun c w hc hc' => (hp.locals c w (Or.inl ⟨hc, hc'⟩)).trans (h.locals c w hc hc')
    front := fun w => by
      by_cases hw : w = v
      · subst hw
        rw [hp.front, hfront, hstands]
        simp
      · simp only [hp.locals b w (Or.inr hw), h.front, hmem hw]
    back := fun w => by
      by_cases hw : w = v
      · subst hw
        rw [hp.back, hfront, hstands]
        simp
      · simp only [hp.locals b' w (Or.inr hw), h.back, hmem hw]
    incoming := hp.incoming.trans h.incoming
    out := fun u => by
      rw [List.mem_append, h.out, Option.mem_toList, hr]
      constructor
      · rintro (⟨w, hid, hne⟩ | hu)
        · have hw : w ≠ v := by
            rintro rfl
            exact hne hback
          refine ⟨w, ?_, ?_⟩
          · rw [hp.id_other w hw, hid]
          · rwa [hp.locals b' w (Or.inr hw)]
        · exact ⟨v, hu⟩
      · rintro ⟨w, hid, hne⟩
        by_cases hw : w = v
        · subst hw
          exact Or.inr ⟨hid, hne⟩
        · rw [hp.id_other w hw] at hid
          rw [hp.locals b' w (Or.inr hw)] at hne
          exact Or.inl ⟨w, hid, hne⟩ }

theorem splitTimelines_ok (ht : f.Tables) (hne : b ≠ b') (hb' : (f.nodes.get? b').isSome)
    (hnew : ∀ w, f.timelineId? b' w = none) {out : List TimelineId}
    (hrun : (f.blockAt b).timelines.filterMapM (fun e => Edit.splitTimeline e.2 b') f =
      .ok out f') :
    Parted b b' ((f.blockAt b).timelines.map Prod.fst) out f f' := by
  refine Edit.filterMapM_ok (fun done out g => Parted b b' (done.map Prod.fst) out f g) ?_
    (.start ht hnew) hrun
  intro done e rest out g r g' hl hI hstep
  have hkeys := ht.keys b
  rw [hl, List.map_append, List.map_cons] at hkeys
  have hv : e.1 ∉ done.map Prod.fst := fun hm =>
    (List.nodup_append.mp hkeys).2.2 _ hm _ List.mem_cons_self rfl
  have hid : g.timelineId? b e.1 = some e.2 := by
    rw [hI.id b e.1 hne]
    exact lookup_of_mem (ht.keys b) (hl ▸ List.mem_append_right _ List.mem_cons_self)
  have hback : g.locals b' e.1 = [] := by
    rw [hI.back]
    simp [hv]
  obtain ⟨hparts, hr⟩ := splitTimeline_ok hI.tables hne ((hI.keeps.stored b').trans hb') hid hback
    hstep
  rw [List.map_append]
  exact hI.next hv hparts hr

end

/-! ## The edges -/

structure MovesEdges (b b' : NodeId) (f f' : Func) : Prop where
  rest : f' = { f with
    incoming := f'.incoming, generation := f'.generation, memo := f'.memo }
  get : ∀ n, f'.incoming.get? n = (f.incoming.get? n).map fun x =>
    if x.pred = b ∧ (f.timelineAt x.owner).block ∈ f.succs b' then { x with pred := b' } else x

section

variable {f f' : Func} {b b' : NodeId}

theorem moveEdges_ok {u : Unit} (hrun : Edit.moveEdges b b' f = .ok u f') :
    MovesEdges b b' f f' := by
  rw [Edit.moveEdges, Edit.bind_eq Edit.get_eq] at hrun
  have hloop := Edit.forIn_ok (k := fun _ => pure ()) (fun done g =>
    g = { f with incoming := g.incoming } ∧ ∀ n, g.incoming.get? n =
      (f.incoming.get? n).map fun x =>
        if n ∈ done ∧ x.pred = b ∧ (f.timelineAt x.owner).block ∈ f.succs b'
        then { x with pred := b' } else x) ?_ ⟨rfl, fun n => by simp⟩ hrun
  · obtain ⟨f₁, ⟨hrest, hget⟩, hdone⟩ := hloop
    cases hdone
    refine ⟨by rw [hrest], fun n => ?_⟩
    rw [hget]
    cases hn : f.incoming.get? n with
    | none => rfl
    | some x =>
      have hlive : n ∈ f.incoming.live := (f.incoming.mem_live).mpr (by rw [hn]; rfl)
      simp [hlive]
  · rintro done n rest g s g' hl ⟨hrest, hget⟩ hstep
    obtain ⟨x, hx⟩ : ∃ x, f.incoming.get? n = some x := Option.isSome_iff_exists.mp
      ((f.incoming.mem_live).mp (hl ▸ List.mem_append_right _ List.mem_cons_self))
    dsimp only at hstep
    rw [incomingAt_of_get? hx] at hstep
    have hother : ∀ {m}, m ≠ n → (m ∈ done ++ [n] ↔ m ∈ done) := fun hm => by simp [hm]
    split at hstep
    · next hmoves =>
      rw [Bool.and_eq_true, decide_eq_true_eq, List.contains_iff_mem] at hmoves
      cases hstep
      refine ⟨rfl, by rw [hrest], fun m => ?_⟩
      rw [Arena.get?_modify_map, hget, Option.map_map]
      by_cases hm : m = n
      · subst hm
        rw [hx, Option.map_some, Option.map_some]
        by_cases hd : m ∈ done <;> simp [hmoves, hd]
      · congr 1
        funext y
        simp only [Function.comp_apply, if_neg (Ne.symm hm), hother hm]
    · next hstays =>
      rw [Bool.and_eq_true, decide_eq_true_eq, List.contains_iff_mem] at hstays
      cases hstep
      refine ⟨rfl, hrest, fun m => ?_⟩
      rw [hget]
      by_cases hm : m = n
      · subst hm
        rw [hx, Option.map_some, Option.map_some, if_neg fun h => hstays h.2,
          if_neg fun h => hstays h.2]
      · simp only [hother hm]

namespace MovesEdges

theorem exists_of_get (h : MovesEdges b b' f f') {n : IncomingId} {y : Incoming}
    (hy : f'.incoming.get? n = some y) :
    ∃ x, f.incoming.get? n = some x ∧ y.owner = x.owner ∧ y.target = x.target := by
  rw [h.get, Option.map_eq_some_iff] at hy
  obtain ⟨x, hx, rfl⟩ := hy
  refine ⟨x, hx, ?_⟩
  split <;> exact ⟨rfl, rfl⟩

theorem get_of_get (h : MovesEdges b b' f f') {n : IncomingId} {x : Incoming}
    (hx : f.incoming.get? n = some x) :
    ∃ y, f'.incoming.get? n = some y ∧ y.owner = x.owner ∧ y.target = x.target := by
  refine ⟨_, by rw [h.get, hx, Option.map_some], ?_⟩
  split <;> exact ⟨rfl, rfl⟩

theorem tables (h : MovesEdges b b' f f') (ht : f.Tables) : f'.Tables := by
  have hid : ∀ c w, f'.timelineId? c w = f.timelineId? c w := fun c w => by
    rw [h.rest]
    rfl
  have htl : f'.timelines = f.timelines := by rw [h.rest]
  have hat : ∀ t, f'.timelineAt t = f.timelineAt t := fun t => by
    rw [Func.timelineAt, Func.timelineAt, htl]
  exact {
    placed := fun {c w t} ht' => by
      rw [htl]
      exact ht.placed (hid c w ▸ ht')
    listed := fun {t x} hx => by
      rw [hid]
      exact ht.listed (htl ▸ hx)
    sorted := fun c => by
      rw [h.rest]
      exact ht.sorted c
    owner := fun {t x n} hx hn => by
      obtain ⟨i, hi, ho⟩ := ht.owner (htl ▸ hx) hn
      obtain ⟨j, hj, hjo, _⟩ := h.get_of_get hi
      exact ⟨j, hj, hjo.trans ho⟩
    node := fun {n i} hi => by
      obtain ⟨j, hj, hjo, _⟩ := h.exists_of_get hi
      rw [htl, hjo]
      exact ht.node hj
    nodes_nodup := fun {t x} hx => ht.nodes_nodup (htl ▸ hx)
    target := fun {n i t} hi hit => by
      obtain ⟨j, hj, hjo, hjt⟩ := h.exists_of_get hi
      rw [htl, hat, hjo]
      exact ht.target hj (hjt ▸ hit)
    referrer := fun {t x n} hx hn => by
      obtain ⟨i, hi, hit⟩ := ht.referrer (htl ▸ hx) hn
      obtain ⟨j, hj, _, hjt⟩ := h.get_of_get hi
      exact ⟨j, hj, hjt.trans hit⟩
    referrers_nodup := fun {t x} hx => ht.referrers_nodup (htl ▸ hx) }

theorem feeds (h : MovesEdges b b' f f') (ht : f.Tables) (c : NodeId) (v : VarId) :
    f'.feeds c v = (f.feeds c v).map fun e =>
      (if e.1 = b ∧ c ∈ f.succs b' then b' else e.1, e.2) := by
  have hnodes : f'.joinNodes c v = f.joinNodes c v := by
    rw [h.rest]
    rfl
  rw [Func.feeds, Func.feeds, hnodes, List.map_map]
  refine List.map_congr_left fun n hn => ?_
  obtain ⟨t, i, hid, hi, ho⟩ := ht.get?_of_mem hn
  have hi' := h.get n
  rw [hi, Option.map_some] at hi'
  rw [Function.comp_apply, incomingAt_of_get? hi, incomingAt_of_get? hi', ho, ht.block_eq hid]
  by_cases hmoves : i.pred = b ∧ c ∈ f.succs b'
  · simp [hmoves]
  · simp [hmoves]

end MovesEdges

end

/-! ## The announcement -/

section

variable {f f' : Func} {b : NodeId} {v : VarId}

structure Announcing (b : NodeId) (pending : TimelineId → Prop) (f : Func) : Prop where
  shaped : f.Shaped
  scheduled : f.Scheduled
  inside : b ∈ f.blocks
  nodes : ∀ v, (∀ x, ∀ e ∈ f.feeds x v, f.Fresh v e.1 e.2) ∨
    (∃ t, pending t ∧ f.explicit? b v = some t) ∧
      ∀ x, ∀ e ∈ f.feeds x v, f.Fresh v e.1 e.2 ∨ Departs f.preds (f.Decides v) e.1 (some b)

/-- One announcement settles one variable and leaves the others as they were. -/
theorem Announcing.next {pending : TimelineId → Prop} {t : TimelineId}
    (h : Announcing b pending f) (ht : f.explicit? b v = some t) {c : Nat}
    (hrun : Edit.propagate t (some (.ofBlocks [b])) f = .ok c f') :
    Announcing b (fun u => pending u ∧ u ≠ t) f' ∧ ∀ w u, f.explicit? b w = some u →
      f'.explicit? b w = some u := by
  have hsearchable := h.shaped.searchable
  have hstale : ∀ x, ∀ e ∈ f.feeds x v, f.Fresh v e.1 e.2 ∨
      Departs f.preds (f.Decides v) e.1 (some b) := by
    intro x e he
    rcases h.nodes v with hfresh | ⟨_, hstale⟩
    · exact Or.inl (hfresh x e he)
    · exact hstale x e he
  have hcache : (some (IncomingCache.ofBlocks [b])).getD (.ofBlocks [b]) = .ofBlocks [b] := rfl
  obtain ⟨c', f₁, hrun', hsearchable', hadv, hfresh⟩ :=
    propagate_ok hsearchable h.shaped.fed h.inside ht hstale hcache
  rw [hrun'] at hrun
  cases hrun
  have hpreds := hadv.keeps.preds
  refine ⟨⟨hadv.shaped h.shaped hsearchable', hadv.scheduled h.scheduled,
    hadv.keeps.blocks ▸ h.inside, fun w => ?_⟩,
    fun w u hu => hadv.explicit?_of_some hsearchable.tables hu⟩
  by_cases hw : w = v
  · exact hw ▸ Or.inl hfresh
  · have hexp : ∀ x, f'.explicit? x w = f.explicit? x w := fun x => (hadv.spares x w hw).1
    refine (h.nodes w).imp (fun hall x e he => ?_) ?_
    · rw [(hadv.spares x w hw).2] at he
      exact fresh_congr hpreds hexp (hall x e he)
    · rintro ⟨⟨u, hu, hid⟩, hall⟩
      refine ⟨⟨u, ⟨hu, fun hut => hw ?_⟩, (hexp b).trans hid⟩, fun x e he => ?_⟩
      · -- A timeline stands for one variable.
        subst hut
        have hvar := fun {x : VarId} (hx : f.explicit? b x = some u) =>
          hsearchable.tables.var_eq (timelineId?_of_explicit? hx)
        exact (hvar hid).symm.trans (hvar ht)
      · rw [(hadv.spares x w hw).2] at he
        rw [hpreds, decides_congr hexp]
        exact (hall x e he).imp_left (fresh_congr hpreds hexp)

/-- When all of them have been announced, every node is fresh. -/
theorem announceAll_ok {out : List TimelineId} {α : Type} {a r : α}
    (h : Announcing b (· ∈ out) f) (hout : ∀ t ∈ out, ∃ v, f.explicit? b v = some t)
    (hrun : (do
      for t in out do
        let _ ← Edit.propagate t (some (.ofBlocks [b]))
      return r : Edit α) f = .ok a f') : f'.Sound := by
  have hloop := Edit.forIn_ok (fun done g =>
    Announcing b (fun t => t ∈ out ∧ t ∉ done) g ∧ ∀ t ∈ out, ∃ v, g.explicit? b v = some t) ?_
    ⟨⟨h.shaped, h.scheduled, h.inside, fun v => (h.nodes v).imp_right fun hv =>
      ⟨hv.1.imp fun t ht => ⟨⟨ht.1, List.not_mem_nil⟩, ht.2⟩, hv.2⟩⟩, hout⟩ hrun
  · obtain ⟨f₁, ⟨hall, _⟩, hdone⟩ := hloop
    cases hdone
    refine ⟨⟨hall.shaped, fun {x v} e he => ?_⟩, hall.scheduled⟩
    rcases hall.nodes v with hfresh | ⟨⟨t, ⟨hm, hn⟩, _⟩, _⟩
    · exact hfresh x e he
    · exact absurd hm hn
  · rintro done t rest g s g' hl ⟨hg, hlive⟩ hstep
    obtain ⟨v, hv⟩ := hlive t (hl ▸ List.mem_append_right _ List.mem_cons_self)
    obtain ⟨c, g₁, hprop, hstep⟩ := Edit.bind_ok hstep
    cases hstep
    obtain ⟨hnext, hkeep⟩ := hg.next hv hprop
    refine ⟨rfl, ⟨hnext.shaped, hnext.scheduled, hnext.inside, fun w => ?_⟩, fun u hu => ?_⟩
    · refine (hnext.nodes w).imp_right fun hw => ⟨hw.1.imp fun u hu => ⟨⟨hu.1.1.1, ?_⟩, hu.2⟩, hw.2⟩
      rw [List.mem_append, List.mem_singleton, not_or]
      exact ⟨hu.1.1.2, hu.1.2⟩
    · exact (hlive u hu).imp fun w hw => hkeep w u hw

end

/-! ## The whole split -/

section

variable {f f₁ f₂ f₃ f₄ : Func} {b b' : NodeId} {n : Nat} {out : List TimelineId}

theorem Reshapes.sameGraph {tail : NodeId → Option NodeId} (h : Reshapes tail f f₁)
    (hs : SameGraph f₁ f₂) : Reshapes tail f f₂ where
  held := hs.bodyHeld.trans h.held
  trees := by
    rw [hs.trees, hs.size]
    exact h.trees
  size := hs.size ▸ h.size
  stored b hb := (hs.stored b).trans (h.stored b hb)
  tails hb := (hs.stored _).trans (h.tails hb)

structure Divided (b b' : NodeId) (out : List TimelineId) (f f' : Func) : Prop where
  bisects : Bisects b b' f f'
  feeds : ∀ c v, f'.feeds c v = (f.feeds c v).map fun e => (lastOf (cutAt b b') e.1, e.2)
  scheduled : f'.Scheduled
  unfrozen : f'.frozen = false
  forgotten : f'.memo = []
  out : ∀ u, u ∈ out ↔ ∃ w, f'.timelineId? b' w = some u ∧ f'.locals b' w ≠ []

theorem filter_front {l r : List InstId} {d p : InstId → Bool} (hl : ∀ i ∈ l, p i = false)
    (hr : ∀ i ∈ r, p i = true) :
    ((l ++ r).filter d).filter (fun i => !p i) = l.filter d := by
  have hfront : (l.filter d).filter (fun i => !p i) = l.filter d :=
    List.filter_eq_self.mpr fun i hi => by simp [hl i (List.mem_of_mem_filter hi)]
  have hback : (r.filter d).filter (fun i => !p i) = [] :=
    List.filter_eq_nil_iff.mpr fun i hi => by simp [hr i (List.mem_of_mem_filter hi)]
  rw [List.filter_append, List.filter_append, hfront, hback, List.append_nil]

theorem filter_back {l r : List InstId} {d p : InstId → Bool} (hl : ∀ i ∈ l, p i = false)
    (hr : ∀ i ∈ r, p i = true) : ((l ++ r).filter d).filter p = r.filter d := by
  rw [List.filter_append, List.filter_append, List.filter_eq_self.mpr fun i hi =>
    hr i (List.mem_of_mem_filter hi), List.filter_eq_nil_iff.mpr, List.nil_append]
  intro i hi
  simp [hl i (List.mem_of_mem_filter hi)]

theorem CutsBody.reroots {l : List Component} (h : CutsBody b b' l f f₁) : Reroots f f₁ := by
  obtain ⟨_, _, hbeside, _⟩ := h
  exact hbeside.planted.toReroots

theorem locals_parted (h : f.Scheduled) (hh : Halves b b' n f f₁) (hr : Reroots f₁ f₂)
    (hp : Parted b b' ((f₂.blockAt b).timelines.map Prod.fst) out f₂ f₃) (v : VarId) :
    f₃.locals b v = (f₁.code b).filter (f.defines v) ∧
      f₃.locals b' v = (f₁.code b').filter (f.defines v) := by
  have hcut : f.code b = (f.code b).take n ++ (f.code b).drop n := (List.take_append_drop n _).symm
  have hlocals : f₂.locals b v =
      ((f.code b).take n ++ (f.code b).drop n).filter (f.defines v) := by
    rw [← hcut, ← h.locals, hr.sameRecords.locals, hh.locals]
  rw [hp.front, hp.back, hh.front, hh.back]
  by_cases hv : v ∈ (f₂.blockAt b).timelines.map Prod.fst
  · have hstands : ∀ i, f₂.standsIn b' i = decide (i ∈ (f.code b).drop n) := fun i => by
      rw [← hh.back, Func.standsIn, Func.inst, hr.insts, ← Func.inst, decide_eq_decide,
        hh.seated.block_iff]
    have hnodup := h.nodup b
    rw [hcut] at hnodup
    have hl : ∀ i ∈ (f.code b).take n, decide (i ∈ (f.code b).drop n) = false := fun i hi =>
      decide_eq_false fun hm => (List.nodup_append.mp hnodup).2.2 i hi i hm rfl
    have hr : ∀ i ∈ (f.code b).drop n, decide (i ∈ (f.code b).drop n) = true := fun i hi =>
      decide_eq_true hi
    simp only [hv, decide_true, Bool.true_and, hstands, hlocals]
    exact ⟨filter_front hl hr, filter_back hl hr⟩
  · have hnone := timelineId?_of_not_mem hv
    have hnil := hlocals
    rw [locals_of_none hnone, List.filter_append, eq_comm, List.append_eq_nil_iff] at hnil
    rw [locals_of_none hnone, hnil.1, hnil.2]
    exact ⟨rfl, rfl⟩

/-- The steps of a split up to the announcement, as far as resolutions are concerned. -/
theorem bisects (hf : f.Forest) (hs : f.Scheduled) (hb : b ∈ f.blocks) (hh : Halves b b' n f f₁)
    (hc : CutsBody b b' f.detached f₁ f₂)
    (hp : Parted b b' ((f₂.blockAt b).timelines.map Prod.fst) out f₂ f₃)
    (hm : MovesEdges b b' f₃ f₄) : Bisects b b' f f₄ := by
  have hrec := hc.reroots.sameRecords
  have hlocals := locals_parted hs hh hc.reroots hp
  have hlisted : ∀ c v, f₄.locals c v = f₃.locals c v := fun c v => by
    rw [hm.rest]
    rfl
  have hgraph : SameGraph f₂ f₄ := hp.keeps.toSameGraph.trans (by
    rw [hm.rest]
    exact ⟨rfl, rfl, rfl, rfl, rfl, rfl, fun _ => rfl⟩)
  refine {
    reshapes := (hc.reshapes hh.toAdds hf hb).sameGraph hgraph
    edges := fun I ht => by
      rw [hgraph.preds, hgraph.succs]
      exact hc.edges hh.toAdds hf I ht
    first := hb
    new := hh.not_mem_blocks hf
    tables := hm.tables hp.tables
    id := fun c v hcb => by
      have hid : f₄.timelineId? c v = f₃.timelineId? c v := by
        rw [hm.rest]
        rfl
      rw [hid, hp.id c v hcb, hrec.timelineId?, hh.timelineId?]
    unlisted := fun v => by
      rw [Func.timelineId?, hh.fresh, blockAt_next]
      rfl
    locals := fun c v hcb hcb' => by
      rw [hlisted, hp.locals c v hcb hcb', hrec.locals, hh.locals]
    halves := fun v => by
      rw [hlisted, hlisted, (hlocals v).1, (hlocals v).2, hh.front, hh.back, ← List.filter_append,
        List.take_append_drop, hs.locals]
    joins := fun c v => by
      rw [← feeds_eq_nil_iff, hm.feeds hp.tables, List.map_eq_nil_iff, hp.feeds, hrec.feeds,
        hh.feeds, feeds_eq_nil_iff] }

theorem MovesEdges.feeds_eq (hm : MovesEdges b b' f₃ f₄) (hb : Bisects b b' f f₄) (hf : f.Forest)
    (ht : f₃.Tables) {c : NodeId} {v : VarId} (hc : c ∈ f.blocks)
    (hfeeds : f₃.feeds c v = f.feeds c v) (hedge : ∀ e ∈ f.feeds c v, e.1 ∈ f.preds c) :
    f₄.feeds c v = (f.feeds c v).map fun e => (lastOf (cutAt b b') e.1, e.2) := by
  have hsuccs : f₃.succs = f₄.succs := by
    rw [hm.rest]
    rfl
  rw [hm.feeds ht, hfeeds]
  refine List.map_congr_left fun e he => ?_
  by_cases heb : e.1 = b
  · have hsucc : c ∈ f₃.succs b' := by
      rw [hsuccs, (hb.edges .second hb.first).2]
      exact (hf.mem_preds_iff_mem_succs hb.first hc).mp (heb ▸ hedge e he)
    rw [if_pos ⟨heb, hsucc⟩, heb, lastOf_cutAt_self]
  · rw [if_neg fun hmoves => heb hmoves.1, lastOf_cutAt_of_ne heb]

theorem divided (h : f.Sound) (hb : b ∈ f.blocks) (hh : Halves b b' n f f₁)
    (hc : CutsBody b b' f.detached f₁ f₂)
    (hp : Parted b b' ((f₂.blockAt b).timelines.map Prod.fst) out f₂ f₃)
    (hm : MovesEdges b b' f₃ f₄) (hmemo : f₄.memo = []) : Divided b b' out f f₄ := by
  have hforest := h.nodesFresh.searchable.forest
  have hroots := hc.reroots
  have hcut := bisects hforest h.scheduled hb hh hc hp hm
  have hlocals := locals_parted h.scheduled hh hroots hp
  have hlisted : ∀ c v, f₄.locals c v = f₃.locals c v := fun c v => by
    rw [hm.rest]
    rfl
  have hcode : ∀ c, f₄.code c = f₁.code c := fun c => by
    have : f₄.code c = f₃.code c := by
      rw [hm.rest]
      rfl
    rw [this, Func.code, hp.keeps.instructions, Func.code, hroots.blockAt]
  have hinsts : f₄.insts = f₁.insts := by
    rw [hm.rest]
    exact hp.keeps.insts.trans hroots.insts
  have hdefines : ∀ v, f₄.defines v = f.defines v := fun v => by
    funext i
    rw [Func.defines, Func.defines, Func.inst, hinsts, ← Func.inst, hh.dest]
  refine {
    bisects := hcut
    feeds := fun c v => ?_
    scheduled := ?_
    unfrozen := ?_
    forgotten := hmemo
    out := fun u => ?_ }
  · have hsame : f₃.feeds c v = f.feeds c v := by
      rw [hp.feeds, hroots.sameRecords.feeds, hh.feeds]
    by_cases hnil : f.feeds c v = []
    · rw [hm.feeds hp.tables, hsame, hnil]
      rfl
    · obtain ⟨e, he⟩ := List.exists_mem_of_ne_nil _ hnil
      exact hm.feeds_eq hcut hforest hp.tables (h.nodesFresh.mem_preds he).1 hsame fun e he =>
        (h.nodesFresh.mem_preds he).2
  · refine (hh.seated.congr hcode fun i => by rw [hinsts]).scheduled (fun c => ?_) fun c v => ?_
    · have hphi : (f₄.blockAt c).phiCount = (f₃.blockAt c).phiCount := by
        rw [hm.rest]
        rfl
      rw [hphi, hp.keeps.phiCount, hroots.blockAt, hcode]
      exact hh.phis c
    · rw [hcode, hdefines]
      by_cases hcb : c = b
      · rw [hlisted]
        exact hcb ▸ (hlocals v).1
      · by_cases hcb' : c = b'
        · rw [hlisted]
          exact hcb' ▸ (hlocals v).2
        · rw [hcut.locals c v hcb hcb', hh.code c hcb hcb', h.scheduled.locals]
  · have hfrozen : f₄.frozen = f₃.frozen := by rw [hm.rest]
    rw [hfrozen, hp.keeps.frozen, hroots.frozen, hh.frozen]
    exact h.nodesFresh.searchable.unfrozen
  · have hid : ∀ w, f₄.timelineId? b' w = f₃.timelineId? b' w := fun w => by
      rw [hm.rest]
      rfl
    rw [hp.out]
    exact exists_congr fun w => by rw [hid, hlisted]

/-- A component without parts that is set aside does not change who the parents are. -/
theorem parent?_of_aside {d : Component} (hb : f₁.body = f.body) (hh : f₁.bodyHeld = f.bodyHeld)
    (hd : f₁.detached = f.detached ++ [d]) (hparts : ∀ c, (d.pathIn c).getD [] = [])
    (c : NodeId) : f₁.parent? c = f.parent? c := by
  have hpath : f₁.path c = f.path c := by
    rw [Func.path, Func.path, Func.trees, hb, hd, ← List.cons_append, List.findSome?_append,
      ← Func.trees]
    cases f.trees.findSome? fun x => x.pathIn c with
    | some p => rfl
    | none =>
      rw [Option.none_or, List.findSome?_singleton]
      exact hparts c
  rw [Func.parent?, Func.parent?, hpath, Func.isBody, Func.isBody, hb, hh]

theorem parent?_of_adds (ho : Adds b' f f₁) (c : NodeId) : f₁.parent? c = f.parent? c := by
  refine parent?_of_aside ho.body ho.bodyHeld ho.detached (fun c => ?_) c
  rw [pathIn]
  split <;> rfl

theorem Divided.announcing {f' : Func} (h : Divided b b' out f f') (hs : f.Sound) :
    Announcing b' (· ∈ out) f' := by
  have hcut := h.bisects
  have hcalm := hs.nodesFresh.calm
  have hforest := hcut.reshapes.forest hcalm.forest
  refine {
    shaped := {
      searchable := ⟨hforest, hcut.reshapes.enters hcalm.forest hcalm.enters fun {x y} hx => ?_,
        hcut.tables, h.unfrozen, remembers_of_nil h.forgotten⟩
      complete := fun _ hne => (hcut.complete hcalm (h.feeds _ _) hne).2
      inside := fun hne => (hcut.complete hcalm (h.feeds _ _) hne).1 }
    scheduled := h.scheduled
    inside := hcut.mem_blocks.mpr (Or.inr rfl)
    nodes := fun v => ?_ }
  · rw [cutAt] at hx
    split at hx
    · cases hx
      exact hcut.new
    · cases hx
  · have hnodes : ∀ x, ∀ e ∈ f'.feeds x v, f'.Fresh v e.1 e.2 ∨
        Departs f'.preds (f'.Decides v) e.1 (some b') := by
      intro x e he
      rw [h.feeds, List.mem_map] at he
      obtain ⟨e, he, rfl⟩ := he
      exact hcut.fresh_or_behind hcalm.forest hcalm.tables (hs.nodesFresh.pred_mem he)
        (hcalm.fresh e he)
    by_cases hd : f'.Decides v b'
    · obtain ⟨t, ht⟩ := Option.isSome_iff_exists.mp hd
      exact Or.inr ⟨⟨t, (h.out t).mpr ⟨v, timelineId?_of_explicit? ht, hcut.decides_new.mp hd⟩, ht⟩,
        hnodes⟩
    · exact Or.inl fun x e he => (hnodes x e he).resolve_right fun hb => hd (decides_of_departs hb)

theorem Divided.explicit? {f' : Func} (h : Divided b b' out f f') {t : TimelineId} (ht : t ∈ out) :
    ∃ v, f'.explicit? b' v = some t := by
  obtain ⟨v, hid, hne⟩ := (h.out t).mp ht
  refine ⟨v, ?_⟩
  rw [h.bisects.tables.explicit?_eq, if_neg fun hnil => hne hnil.1, hid]

theorem newBlock_eq (h : f.frozen = false) (label : String) :
    ∃ name, Edit.newBlock label f = .ok f.nodes.next { f with
      nodes := f.nodes.push ⟨name, [], 0, []⟩
      blockCount := f.blockCount + 1
      detached := f.detached ++ [.block f.nodes.next] } := by
  rw [Edit.newBlock, Edit.bind_eq (Edit.unfrozen_eq h _)]
  exact ⟨_, rfl⟩

theorem split_ok {f' : Func} {ref : ComponentRef} {position : Int} (h : f.Sound)
    (hb : ref.id ∈ f.blocks) (hrun : Edit.split ref position f = .ok b' f') : f'.Sound := by
  have hforest := h.nodesFresh.searchable.forest
  have hstored := hforest.stored _ (Forest.mem_trees hb)
  obtain ⟨hunfrozen, hrun⟩ := Edit.unfrozen_bind_ok hrun
  rw [Edit.bind_eq Edit.get_eq] at hrun
  obtain ⟨_, hrun⟩ := Edit.require_bind_ok hrun
  obtain ⟨hplace, hrun⟩ := Edit.require_bind_ok hrun
  obtain ⟨hcond, hrun⟩ := Edit.require_bind_ok hrun
  rw [Bool.and_eq_true, decide_eq_true_eq, decide_eq_true_eq] at hplace
  obtain ⟨name, hopen⟩ := newBlock_eq hunfrozen ref.label
  rw [Edit.bind_eq hopen, Edit.bind_eq (Edit.changeBlock_eq _ _),
    Edit.bind_eq (Edit.changeBlock_eq _ _)] at hrun
  obtain ⟨_, f₁, hindex, hrun⟩ := Edit.bind_ok hrun
  obtain ⟨f₂, hindex', hreindexed⟩ := reindex_ok (b := f.nodes.next)
    (f := f.halved ref.id position.toNat name) (by
      rw [code_halved hstored, if_pos rfl]
      exact (h.scheduled.nodup _).sublist (List.drop_sublist _ _))
  cases hindex.symm.trans hindex'
  have hhalves := halves_of_reindexed h.scheduled hstored (by omega) hreindexed
  obtain ⟨_, f₂, hplaced, hrun⟩ := Edit.bind_ok hrun
  have hcuts := placeSecondHalf_ok (hhalves.forest hforest)
    (by rw [Func.blocks, hhalves.body]; exact hb) hhalves.detached
    (fun loop hp => by
      rw [parent?_of_adds hhalves.toAdds] at hp
      rw [hp] at hcond
      simp at hcond) hplaced
  obtain ⟨out, f₃, hparted, hrun⟩ := Edit.bind_ok hrun
  obtain ⟨_, f₄, hmoved, hrun⟩ := Edit.bind_ok hrun
  have hlisted : (f₂.blockAt ref.id).timelines = (f.blockAt ref.id).timelines := by
    rw [hcuts.reroots.blockAt, hhalves.listed]
  rw [← hlisted] at hparted
  have hne : ref.id ≠ f.nodes.next := fun he => hhalves.not_mem_blocks hforest (he ▸ hb)
  have hparts := splitTimelines_ok (hcuts.reroots.sameRecords.tables
    (hhalves.tables h.nodesFresh.searchable.tables)) hne
    (by rw [hcuts.reroots.block, hhalves.stored, decide_eq_true rfl, Bool.true_or])
    (fun w => by
      rw [hcuts.reroots.sameRecords.timelineId?, hhalves.timelineId?, Func.timelineId?,
        blockAt_next]
      rfl) hparted
  have hmoves := moveEdges_ok hmoved
  have hforgets : MovesEdges ref.id f.nodes.next f₃
      { f₄ with generation := f₄.generation + 1, memo := [] } := ⟨by rw [hmoves.rest], hmoves.get⟩
  have hdivided := divided h hb hhalves hcuts hparts hforgets rfl
  exact announceAll_ok (hdivided.announcing h) (fun t => hdivided.explicit?) hrun

end

end DefFlow.Flow
