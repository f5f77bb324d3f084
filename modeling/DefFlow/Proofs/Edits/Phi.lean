import DefFlow.Proofs.Edits.Insert

/-!
# Phis

A phi is a definition at the top of its block, which gets a node for each predecessor
unless it has them already. While the nodes are made the block decides the variable by
the phi, so that nothing else depends on which of them are there.
-/

set_option autoImplicit false

namespace DefFlow.Flow

open Func

structure Linking (g : Func) (b : NodeId) (v : VarId) (t : TimelineId) (done : List NodeId)
    (f : Func) : Prop where
  searchable : f.Searchable
  keeps : Keeps g f
  locals : ∀ c w, f.locals c w = g.locals c w
  id : f.timelineId? b v = some t
  linked : (f.feeds b v).map Prod.fst = done
  within : ∀ p ∈ done, p ∈ g.blocks
  complete : ∀ {c w}, ¬ (c = b ∧ w = v) → f.joinNodes c w ≠ [] →
    c ∈ g.blocks ∧ ((f.feeds c w).map Prod.fst).Perm (g.preds c)
  fresh : ∀ {c w}, ∀ e ∈ f.feeds c w, f.Fresh w e.1 e.2

section

variable {g f f' : Func} {b : NodeId} {v : VarId} {t : TimelineId} {done : List NodeId}

theorem Linking.start (h : g.NodesFresh) (hid : g.timelineId? b v = some t)
    (hnone : g.joinNodes b v = []) : Linking g b v t [] g where
  searchable := h.searchable
  keeps := .refl g
  locals _ _ := rfl
  id := hid
  linked := by rw [feeds_eq_nil_iff.mpr hnone]; rfl
  within p hp := by cases hp
  complete _ hne := ⟨h.inside hne, h.complete (h.inside hne) hne⟩
  fresh := h.fresh

theorem Links.explicit? {n : IncomingId} {i : Incoming} (h : Links t b v n i f f') (ht : f.Tables)
    (ht' : f'.Tables) (hl : f.locals b v ≠ []) (c : NodeId) (w : VarId) :
    f'.explicit? c w = f.explicit? c w := by
  by_cases hc : c = b ∧ w = v
  · obtain ⟨rfl, rfl⟩ := hc
    have hl' : f'.locals c w ≠ [] := by rw [h.same.locals]; exact hl
    rw [ht.explicit?_eq, ht'.explicit?_eq, if_neg fun hn => hl' hn.1, if_neg fun hn => hl hn.1,
      h.same.id]
  · refine ht.explicit?_congr ht' (fun _ hu => (h.same.id c w).trans hu) (h.same.locals c w) ?_
    rw [h.joinNodes, if_neg hc]

theorem Linking.pred_mem (h : Linking g b v t done f) {c : NodeId} {w : VarId}
    {e : NodeId × Option TimelineId} (he : e ∈ f.feeds c w) : e.1 ∈ f.blocks := by
  by_cases hc : c = b ∧ w = v
  · rw [hc.1, hc.2] at he
    rw [h.keeps.blocks]
    exact h.within _ (h.linked ▸ List.mem_map_of_mem he)
  · obtain ⟨hcb, hperm⟩ := h.complete hc (ne_nil_of_mem_feeds he)
    refine h.searchable.forest.pred_mem (h.keeps.blocks ▸ hcb) ?_
    rw [h.keeps.preds]
    exact hperm.mem_iff.mp (List.mem_map_of_mem he)

theorem Linking.next (hl : g.locals b v ≠ []) (h : Linking g b v t done f)
    {p : NodeId} (hp : p ∈ g.blocks) (hnew : p ∉ done) :
    ∃ T f₁ n f', Edit.valueLeaving p v f = .ok T f₁ ∧ Edit.linkIncoming t p T f₁ = .ok n f' ∧
      Linking g b v t (done ++ [p]) f' := by
  have hp' : p ∈ f.blocks := h.keeps.blocks ▸ hp
  have hdec : f.Decides v b := by
    rw [h.searchable.tables.decides_iff, Defining, h.locals]
    exact Or.inl hl
  obtain ⟨T, f₁, hval, hw₁, href, hspares, hfresh, hsame⟩ := valueLeaving_ok h.searchable hp' v
  have hjoin := hsame b hdec
  have hfeeds := href.feeds_of_joinNodes h.searchable.tables hjoin
  have hid₁ := href.id h.id
  have hl₁ : f₁.locals b v ≠ [] := by rw [href.locals, h.locals]; exact hl
  have hpreds : ∀ n ∈ f₁.joinNodes b v, (f₁.incomingAt n).pred ≠ p := by
    intro n hn he
    refine hnew (h.linked ▸ hfeeds ▸ ?_)
    exact List.mem_map.mpr ⟨_, mem_feeds hn, he⟩
  obtain ⟨n, f', hlink, ht', hlinks⟩ := linkIncoming_ok (T := T) hw₁.tables hid₁ hpreds
    fun u hu => (hu ▸ hfresh : f₁.Fresh v p (some u)).live hw₁ (href.keeps.blocks ▸ hp')
  have hexp := hlinks.explicit? hw₁.tables ht' hl₁
  have hkeep : ∀ {w q U}, f₁.Fresh w q U → f'.Fresh w q U := fun hf =>
    fresh_congr hlinks.keeps.preds (fun c => hexp c _) hf
  have hfed : ∀ c w, f'.feeds c w =
      if c = b ∧ w = v then f₁.feeds c w ++ [(p, T)] else f₁.feeds c w :=
    hlinks.feeds hw₁.tables
  refine ⟨T, f₁, n, f', hval, hlink, {
    searchable := hw₁.of_keeps hlinks.keeps ht' (Or.inr hlinks.memo)
    keeps := (h.keeps.trans href.keeps).trans hlinks.keeps
    locals := fun c w => by rw [hlinks.same.locals, href.locals, h.locals]
    id := by rw [hlinks.same.id, hid₁]
    linked := by rw [hfed, if_pos ⟨rfl, rfl⟩, List.map_append, hfeeds, h.linked]; rfl
    within := fun q hq => ?_
    complete := fun {c w} hne hj => ?_
    fresh := fun {c w} e he => ?_ }⟩
  · rcases List.mem_append.mp hq with hq | hq
    · exact h.within q hq
    · exact List.mem_singleton.mp hq ▸ hp
  · rw [hlinks.joinNodes, if_neg hne] at hj
    rw [hfed, if_neg hne]
    rcases href.joins c w with hold | hnewj
    · rw [href.feeds_of_joinNodes h.searchable.tables hold]
      exact h.complete hne (hold ▸ hj)
    · rw [hnewj.preds, h.keeps.preds]
      exact ⟨h.keeps.blocks ▸ hnewj.block, .refl _⟩
  · have hold : ∀ e ∈ f₁.feeds c w, f'.Fresh w e.1 e.2 := by
      intro e he
      rcases href.joins c w with hold | hnewj
      · rw [href.feeds_of_joinNodes h.searchable.tables hold] at he
        exact hkeep (href.fresh (h.pred_mem he) (h.fresh e he))
      · exact hkeep (hnewj.fresh e he)
    rw [hfed] at he
    split at he
    · next hc =>
      rcases List.mem_append.mp he with he | he
      · exact hold e he
      · rw [List.mem_singleton.mp he, hc.2]
        exact hkeep hfresh
    · exact hold e he

theorem Linking.sound (h : Linking g b v t done f) (hg : g.Sound) (hb : b ∈ g.blocks)
    (hdone : done = g.preds b) : f.Sound where
  nodesFresh := {
    searchable := h.searchable
    complete := fun {c w} hc hne => by
      rw [h.keeps.preds]
      by_cases hcb : c = b ∧ w = v
      · rw [hcb.1, hcb.2, h.linked, hdone]
      · exact (h.complete hcb hne).2
    inside := fun {c w} hne => by
      rw [h.keeps.blocks]
      by_cases hcb : c = b ∧ w = v
      · exact hcb.1 ▸ hb
      · exact (h.complete hcb hne).1
    fresh := h.fresh }
  scheduled := hg.scheduled.congr h.keeps.instructions h.keeps.phiCount h.locals fun i => by
    rw [h.keeps.insts]

theorem linkPreds_ok (hg : g.Sound) (hb : b ∈ g.blocks) (hid : g.timelineId? b v = some t)
    (hl : g.locals b v ≠ []) (hnone : g.joinNodes b v = []) {α : Type} {k : PUnit → Edit α} :
    ∃ f', (forIn (g.preds b) PUnit.unit (fun p _ => do
      let _ ← Edit.linkIncoming t p (← Edit.valueLeaving p v)
      pure (ForInStep.yield PUnit.unit)) >>= k) g = k ⟨⟩ f' ∧ f'.Sound := by
  have hforest := hg.nodesFresh.searchable.forest
  obtain ⟨f', hrun, h'⟩ := Edit.forIn_run (f := g) (l := g.preds b) (k := k)
    (g := fun p _ => do
      let _ ← Edit.linkIncoming t p (← Edit.valueLeaving p v)
      pure (ForInStep.yield PUnit.unit))
    (fun done f => Linking g b v t done f)
    (fun done p rest f hsplit h => by
      have hnodup := hforest.preds_nodup hb
      rw [hsplit] at hnodup
      have hp : p ∈ g.preds b := by rw [hsplit]; simp
      obtain ⟨T, f₁, n, f', hval, hlink, h'⟩ := h.next hl (hforest.pred_mem hb hp)
        (fun hm => (List.nodup_cons.mp (List.nodup_middle.mp hnodup)).1 (List.mem_append_left _ hm))
      exact ⟨f', (Edit.bind_eq hval).trans ((Edit.bind_eq hlink).trans rfl), h'⟩)
    (.start hg.nodesFresh hid hnone)
  exact ⟨f', hrun, h'.sound hg hb rfl⟩

/-! ## The phi itself -/

def Func.withPhi (f : Func) (b : NodeId) : Func :=
  { f with nodes := f.nodes.modify b fun x => { x with phiCount := x.phiCount + 1 } }

theorem blockAt_withPhi (hb : (f.nodes.get? b).isSome) (c : NodeId) :
    (f.withPhi b).blockAt c =
      if c = b then { f.blockAt c with phiCount := (f.blockAt c).phiCount + 1 } else f.blockAt c :=
  Edit.blockAt_modify f b c _ hb

theorem code_withPhi (hb : (f.nodes.get? b).isSome) (c : NodeId) :
    (f.withPhi b).code c = f.code c := by
  rw [code, blockAt_withPhi hb]
  split <;> rfl

theorem recodes_withPhi (hb : (f.nodes.get? b).isSome) : Recodes f (f.withPhi b) where
  handle := rfl
  body := rfl
  bodyHeld := rfl
  detached := rfl
  frozen := rfl
  size := Arena.size_modify _ _ _
  stored c := Edit.isSome_get?_modify _ _ _ _
  listed c := by
    rw [blockAt_withPhi hb]
    split <;> rfl
  timelines := rfl
  incoming := rfl

theorem scheduled_withPhi (h : f.Scheduled) (hb : (f.nodes.get? b).isSome)
    (hroom : (f.blockAt b).phiCount < (f.code b).length) : (f.withPhi b).Scheduled where
  place := fun {c k i} hi => h.place (code_withPhi hb c ▸ hi)
  home := fun {i x c} hx hc => by
    rw [code_withPhi hb]
    exact h.home hx hc
  phis c := by
    rw [blockAt_withPhi hb, code_withPhi hb]
    split
    · next hc => exact hc ▸ hroom
    · exact h.phis c
  locals c w := by
    rw [(recodes_withPhi hb).locals, code_withPhi hb]
    exact h.locals c w

theorem placePhi_ok (h : f.Tidy) (hb : (f.nodes.get? b).isSome) :
    ∃ i f₁, Edit.placeInst b (f.blockAt b).phiCount .phi f = .ok i f₁ ∧ (f₁.withPhi b).Tidy ∧
      SameFlow f (f₁.withPhi b) ∧ (∀ c w, (f₁.withPhi b).timelineId? c w = f.timelineId? c w) ∧
      ((f₁.withPhi b).code b)[(f.blockAt b).phiCount]? = some i ∧
      ((f₁.withPhi b).inst i).dest = none := by
  obtain ⟨i, f₁, hplace, hpl⟩ := placeInst_ok h.scheduled hb (h.scheduled.phis b) .phi
  have hb₁ : (f₁.nodes.get? b).isSome = true := by rw [hpl.stored, hb]
  have hat := hpl.getElem? (h.scheduled.phis b)
  have hroom : (f₁.blockAt b).phiCount < (f₁.code b).length := by
    rw [hpl.phiCount]
    exact (List.getElem?_eq_some_iff.mp hat).1
  have hrec := hpl.toRecodes.trans (recodes_withPhi hb₁)
  refine ⟨i, f₁, hplace, ⟨h.calm.sameFlow hrec.sameFlow (hrec.tables h.calm.tables),
    scheduled_withPhi (hpl.scheduled h.scheduled) hb₁ hroom⟩, hrec.sameFlow, hrec.timelineId?, ?_,
    hpl.dest_eq_none⟩
  rw [code_withPhi hb₁]
  exact hat

theorem linkMissing_ok (hg : g.Sound) (hb : b ∈ g.blocks) (hid : g.timelineId? b v = some t)
    (hl : g.locals b v ≠ []) {i j : InstId} (hrun : (do
      if ((← get).timelineAt t).incoming.isEmpty then
        for p in (← get).preds b do
          let _ ← Edit.linkIncoming t p (← Edit.valueLeaving p v)
      return i : Edit InstId) g = .ok j f') : f'.Sound := by
  rw [Edit.bind_eq Edit.get_eq] at hrun
  by_cases he : (g.timelineAt t).incoming.isEmpty = true
  · have hnone : g.joinNodes b v = [] := by
      rw [hg.nodesFresh.searchable.tables.joinNodes_eq hid]
      exact List.isEmpty_iff.mp he
    obtain ⟨f₁, hlink, h₁⟩ := linkPreds_ok hg hb hid hl hnone (k := fun _ => pure i)
    simp only [if_pos he] at hrun
    rw [Edit.bind_eq Edit.get_eq, hlink] at hrun
    cases hrun
    exact h₁
  · simp only [if_neg he] at hrun
    cases hrun
    exact hg

theorem createPhi_ok (h : f.Sound) (hb : b ∈ f.blocks) {x : Variable} {i : InstId}
    (hrun : Edit.createPhi b x f = .ok i f') : f'.Sound := by
  obtain ⟨_, hrun₁⟩ := Edit.unfrozen_bind_ok hrun
  rw [Edit.bind_eq Edit.get_eq] at hrun₁
  obtain ⟨_, hrun₂⟩ := Edit.require_bind_ok hrun₁
  obtain ⟨_, hrun₃⟩ := Edit.require_bind_ok hrun₂
  obtain ⟨_, hrun₄⟩ := Edit.require_bind_ok hrun₃
  obtain ⟨y, hy⟩ := h.nodesFresh.searchable.forest.stored_block hb
  have hb₀ : (f.nodes.get? b).isSome := by rw [hy]; rfl
  obtain ⟨t, f₁, htl, ht₁, hlists⟩ := Edit.timelineFor_ok h.nodesFresh.searchable.tables hb₀ x.id
  have hop := hlists.operates h.nodesFresh.searchable.tables ht₁
  have htidy₁ := hop.tidy h.tidy
  have hb₁ : (f₁.nodes.get? b).isSome := by rw [hop.stored]; exact hb₀
  obtain ⟨j, f₂, hplace, htidy₂, hsame, hids, hat, hdest⟩ := placePhi_ok htidy₁ hb₁
  rw [Edit.bind_eq htl, Edit.bind_eq Edit.get_eq, ← hop.phiCount b, Edit.bind_eq hplace,
    Edit.bind_eq (Edit.changeBlock_eq _ _)] at hrun₄
  obtain ⟨_, f₃, hdef, hrun₅⟩ := Edit.bind_ok hrun₄
  obtain ⟨hd, hm⟩ := defineAt_ok htidy₂.scheduled htidy₂.calm.tables
    ((hids b x.id).trans hlists.self) hat hdest hdef
  rw [Edit.bind_eq Edit.bump_eq] at hrun₅
  have hd' := hd.operates (operates_memo hd.tables [])
  by_cases hexp : (f₁.timelineAt t).explicit = true
  · rw [hexp] at hrun₅
    have hwas : (f₂.withPhi b).explicit? b x.id = some t := by
      rw [hsame.explicit?, explicit?_of_timeline hlists.self, if_pos hexp]
    refine linkMissing_ok ⟨hd'.nodesFresh htidy₂.calm rfl hwas, hd'.scheduled⟩ ?_
        ?_ hd'.locals hrun₅
    · rw [hd'.blocks, hsame.blocks, hop.blocks]
      exact hb
    · exact timelineId?_of_explicit? (by rw [hd'.explicit?, if_pos ⟨rfl, rfl⟩])
  · rw [Bool.not_eq_true] at hexp
    rw [hexp] at hrun₅
    have hbp : b ∈ (f₂.withPhi b).blocks := by rw [hsame.blocks, hop.blocks]; exact hb
    obtain ⟨c, f₄, hprop, hset, hsch, ha⟩ := hd'.announce htidy₂.calm rfl hbp
    obtain ⟨c', f₅, hprop', hrun₆⟩ := Edit.bind_ok hrun₅
    rw [hprop] at hprop'
    cases hprop'
    refine linkMissing_ok ⟨hset, hsch⟩ ?_ ?_ ?_ hrun₆
    · rw [ha.keeps.blocks, hd'.blocks]
      exact hbp
    · exact ha.id (timelineId?_of_explicit? (by rw [hd'.explicit?, if_pos ⟨rfl, rfl⟩]))
    · rw [ha.locals]
      exact hd'.locals

end

end DefFlow.Flow
