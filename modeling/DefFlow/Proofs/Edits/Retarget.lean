import DefFlow.Proofs.Edits.Insert

/-!
# A block stops to decide a variable

The nodes that were bound to its timeline are bound to what flows into the block
instead. A join that the question about that builds never lies between such a node and
the block: it would be fed from elsewhere as well, and so would the node.
-/

set_option autoImplicit false

namespace DefFlow.Flow

open Func

/-- Between `x` and `b`, the only block seen from `x`, no block has become a join. -/
theorem departs_after_loss {preds : NodeId → List NodeId} {old new : NodeId → Prop} {b : NodeId}
    (hformed : ∀ {x}, old x → new x ∨ x = b)
    (hjoin : ∀ {x}, new x → ¬ old x → ∃ s, s ≠ some b ∧ Arrives preds old x s) {x : NodeId}
    {a : Option NodeId} (h : Arrives preds new x a)
    (honly : ∀ s, Arrives preds old x s → s = some b) : Departs preds new b a := by
  have hpass : ∀ {y p s}, p ∈ preds y → (∀ s, Arrives preds old y s → s = some b) →
      Departs preds old p s → s = some b := fun hp hy hs => hy _ (hs.arrives hp)
  induction h with
  | start hnil => cases honly none (.start hnil)
  | @leaves y p hp hnew =>
    by_cases hold : old p
    · cases honly _ (.leaves hp hold)
      exact Or.inl ⟨hnew, rfl⟩
    · obtain ⟨s, hne, hs⟩ := hjoin hnew hold
      exact absurd (hpass hp honly (Or.inr ⟨hold, hs⟩)) hne
  | @passes y p s hp hnot hs ih =>
    by_cases hold : old p
    · obtain rfl := (hformed hold).resolve_left hnot
      exact Or.inr ⟨hnot, hs⟩
    · exact ih fun s hs => hpass hp honly (Or.inr ⟨hold, hs⟩)

structure Loses (b : NodeId) (v : VarId) (t : TimelineId) (f f' : Func) : Prop
    extends SameGraph f f' where
  tables : f'.Tables
  feeds : ∀ c w, f'.feeds c w = f.feeds c w
  id : f'.timelineId? b v = some t
  was : f.explicit? b v = some t
  explicit? : ∀ c w, f'.explicit? c w = if c = b ∧ w = v then none else f.explicit? c w
  memo : f'.memo = []

section

variable {f g g' : Func} {b : NodeId} {v : VarId} {t : TimelineId}

namespace Loses

theorem decides (h : Loses b v t f g) {c : NodeId} : g.Decides v c ↔ c ≠ b ∧ f.Decides v c := by
  rw [Decides, Decides, h.explicit?]
  by_cases hc : c = b
  · simp [hc]
  · simp [hc]

theorem fresh_other (h : Loses b v t f g) {w : VarId} (hw : w ≠ v) {p : NodeId}
    {T : Option TimelineId} (hf : f.Fresh w p T) : g.Fresh w p T :=
  fresh_congr h.preds (fun c => by rw [h.explicit?, if_neg fun hc => hw hc.2]) hf

/-- From where the block is not seen, nothing has changed. -/
theorem fresh_aside (h : Loses b v t f g) {p : NodeId} {T : Option TimelineId}
    (hf : f.Fresh v p T) (haside : ¬ Departs f.preds (f.Decides v) p (some b)) :
    g.Fresh v p T := by
  have harr : ∀ {x a}, Arrives f.preds (g.Decides v) x a →
      ¬ Arrives f.preds (f.Decides v) x (some b) → Arrives f.preds (f.Decides v) x a := by
    intro x a ha
    induction ha with
    | start hnil => exact fun _ => .start hnil
    | leaves hp ho => exact fun _ => .leaves hp (h.decides.mp ho).2
    | @passes y p s hp ho _ ih =>
      intro hnot
      have hold : ¬ f.Decides v p := by
        intro hold
        have hpb : p = b := by
          by_contra hne
          exact ho (h.decides.mpr ⟨hne, hold⟩)
        exact hnot (hpb ▸ .leaves hp hold)
      exact .passes hp hold (ih fun hs => hnot (.passes hp hold hs))
  have hdecb : f.Decides v b := by rw [Decides, h.was]; rfl
  intro a ha
  rw [h.preds] at ha
  have hne : p ≠ b := fun hpb => haside (Or.inl ⟨hpb ▸ hdecb, by rw [hpb]⟩)
  have hold : Departs f.preds (f.Decides v) p a := by
    rcases ha with ⟨ho, rfl⟩ | ⟨ho, hs⟩
    · exact Or.inl ⟨(h.decides.mp ho).2, rfl⟩
    · have hnot : ¬ f.Decides v p := fun hd => ho (h.decides.mpr ⟨hne, hd⟩)
      exact Or.inr ⟨hnot, harr hs fun hb => haside (Or.inr ⟨hnot, hb⟩)⟩
  rw [hf a hold]
  cases a with
  | none => rfl
  | some c =>
    have hcb : c ≠ b := fun hcb => haside (hcb ▸ hold)
    rw [Option.bind_some, Option.bind_some, h.explicit?, if_neg fun hc => hcb hc.1]

theorem searchable (h : Loses b v t f g) (hc : f.Calm) : g.Searchable :=
  ⟨h.forest hc.forest, h.enters hc.enters, h.tables, by rw [h.frozen]; exact hc.unfrozen,
    remembers_of_nil h.memo⟩

theorem shaped (h : Loses b v t f g) (hc : f.Calm) : g.Shaped :=
  hc.shaped h.toSameGraph h.feeds h.tables h.memo

theorem fresh_behind (h : Loses b v t f g) (hc : f.Calm) (hr : Resolves v b g g') {p : NodeId}
    {T : Option TimelineId} (honly : ∀ a, Departs f.preds (f.Decides v) p a → a = some b)
    (hT : g'.Fresh v b T) : g'.Fresh v p T := by
  have hdecb : f.Decides v b := by rw [Decides, h.was]; rfl
  have hgraph := (hr.refines (h.searchable hc)).keeps.toSameGraph
  have hformed : ∀ {x}, f.Decides v x → g'.Decides v x ∨ x = b := by
    intro x hx
    by_cases hxb : x = b
    · exact Or.inr hxb
    · exact Or.inl ((hr.refines (h.searchable hc)).decides h.tables (h.decides.mpr ⟨hxb, hx⟩))
  have hjoin : ∀ {x}, g'.Decides v x → ¬ f.Decides v x →
      ∃ s, s ≠ some b ∧ Arrives f.preds (f.Decides v) x s := by
    intro x hx hold
    have hnot : ¬ g.Decides v x := fun hg => hold (h.decides.mp hg).2
    rcases hr with rfl | ⟨s, g₁, m, hs, hb, rfl⟩
    · exact absurd hx hnot
    · obtain ⟨G⟩ := (h.searchable hc).graph
      have hdec : s.Decided g v x := by
        rw [← hs.decides_eq hb h.tables]
        exact hx
      rw [Solution.decided_eq] at hdec
      have L := hs.labelling G (Solution.placed h.tables)
      rw [← h.preds]
      exact L.meets G.toReducible (hdec.resolve_left hnot) _ (fun hy => (h.decides.mp hy).2)
        (some b)
  intro a ha
  rw [hgraph.preds, h.preds] at ha
  refine hT a ?_
  rw [hgraph.preds, h.preds]
  rcases ha with ⟨hnew, rfl⟩ | ⟨hnew, hs⟩
  · by_cases hold : f.Decides v p
    · cases honly _ (Or.inl ⟨hold, rfl⟩)
      exact Or.inl ⟨hnew, rfl⟩
    · obtain ⟨s, hne, hs⟩ := hjoin hnew hold
      exact absurd (honly s (Or.inr ⟨hold, hs⟩)) hne
  · by_cases hold : f.Decides v p
    · obtain rfl := (hformed hold).resolve_left hnew
      exact Or.inr ⟨hnew, hs⟩
    · exact departs_after_loss hformed hjoin hs fun s hs => honly s (Or.inr ⟨hold, hs⟩)

end Loses

/-! ## Binding the nodes anew -/

/-- A node that was bound to the timeline, or is so after the question. -/
theorem Loses.fresh_referrer (h : Loses b v t f g) (hc : f.Calm) (hr : Resolves v b g g')
    (hw : g'.Searchable) {T : Option TimelineId} (hT : g'.Fresh v b T) {c : NodeId}
    {n : IncomingId} (hn : n ∈ g'.joinNodes c v) (hbound : (g'.incomingAt n).target = some t) :
    g'.Fresh v (g'.incomingAt n).pred T := by
  have href := hr.refines (h.searchable hc)
  have htimeline : ∀ {a : Option NodeId} {k : Func}, k.Tables → k.timelineId? b v = some t →
      (some t = a.bind fun x => k.explicit? x v) → a = some b := by
    intro a k hk hid ha
    cases a with
    | none => cases ha
    | some x =>
      exact congrArg some (hk.eq_of_timelineId? hid (timelineId?_of_explicit? ha.symm)).1
  have he := mem_feeds hn
  rw [hbound] at he
  rcases href.joins c v with hj | hj
  · rw [href.feeds_of_joinNodes h.tables hj, h.feeds] at he
    refine h.fresh_behind hc hr (fun a ha => ?_) hT
    exact htimeline hc.tables (timelineId?_of_explicit? h.was) (hc.fresh _ he a ha)
  · -- A new node bound to the timeline says that the block has become a join.
    have hfresh := hj.fresh _ he
    have hdec : g'.Decides v b := by
      have hp : (g'.incomingAt n).pred ∈ g'.blocks := by
        have hm := List.mem_map_of_mem (f := Prod.fst) he
        rw [hj.preds] at hm
        rw [href.keeps.blocks]
        exact (h.searchable hc).forest.pred_mem hj.block hm
      obtain ⟨G⟩ := hw.graph
      obtain ⟨a, ha⟩ : ∃ a, Departs g'.preds (g'.Decides v) (g'.incomingAt n).pred a :=
        G.exists_departs hp
      have hab := htimeline hw.tables (href.id h.id) (hfresh a ha)
      exact decides_of_departs (hab ▸ ha)
    have heq := hT (some b) (Or.inl ⟨hdec, rfl⟩)
    have hexp : g'.explicit? b v = some t := by
      obtain ⟨u, hu⟩ := Option.isSome_iff_exists.mp hdec
      rw [hu, ← timelineId?_of_explicit? hu, href.id h.id]
    rw [heq, Option.bind_some, hexp]
    exact hfresh

structure Retargeting (g : Func) (v : VarId) (done : List IncomingId) (f : Func) : Prop where
  searchable : f.Searchable
  advances : Advances v g f
  bound : ∀ n ∈ done, ∀ {c}, n ∈ g.joinNodes c v →
    f.Fresh v (f.incomingAt n).pred (f.incomingAt n).target

theorem Advances.joinNodes_of_mem (h : Advances v g f) {c : NodeId} {n : IncomingId}
    (hn : n ∈ g.joinNodes c v) : f.joinNodes c v = g.joinNodes c v :=
  (h.joins c v).resolve_right fun hj => by
    rw [hj.none_before] at hn
    cases hn

theorem Retargeting.next (hg : g.Searchable) (hfed : g.Fed) {done : List IncomingId}
    (h : Retargeting g v done f) {c : NodeId} {n : IncomingId} (hn : n ∈ g.joinNodes c v)
    {T : Option TimelineId} (hT : g.Fresh v (g.incomingAt n).pred T) :
    ∃ a f', Edit.rebind n T f = .ok a f' ∧ Retargeting g v (done ++ [n]) f' := by
  have hfed' : f.Fed := h.advances.fed hfed
  have hforest := h.searchable.forest
  have hmem : ∀ {d m}, m ∈ g.joinNodes d v → m ∈ f.joinNodes d v := fun hm =>
    h.advances.joinNodes_of_mem hm ▸ hm
  have hp : (g.incomingAt n).pred ∈ g.blocks := by
    obtain ⟨hb, hp⟩ := hfed _ (mem_feeds hn)
    exact hg.forest.pred_mem hb hp
  have hT' : f.Fresh v (f.incomingAt n).pred T := by
    rw [h.advances.pred hn]
    exact h.advances.fresh hp hT
  obtain ⟨a, f', hrun, hw', ha, htarget⟩ := rebind_fresh h.searchable hfed' (hmem hn) hT'
  refine ⟨a, f', hrun, hw', h.advances.trans hg.forest hfed ha, fun m hm d hmd => ?_⟩
  rcases List.mem_append.mp hm with hm | hm
  · exact ha.fresh_target hfed' hforest (hmem hmd) (h.bound m hm hmd)
  · rw [List.mem_singleton.mp hm, htarget, ha.pred (hmem hn)]
    refine ha.fresh ?_ hT'
    rw [h.advances.pred hn, h.advances.keeps.blocks]
    exact hp

theorem rebindAll_ok (hg : g.Searchable) (hfed : g.Fed) {T : Option TimelineId}
    {l : List IncomingId}
    (hl : ∀ n ∈ l, ∃ c, n ∈ g.joinNodes c v ∧ g.Fresh v (g.incomingAt n).pred T) :
    ∃ f', (do
      for n in l do
        let _ ← Edit.rebind n T : Edit Unit) g = .ok ⟨⟩ f' ∧ Retargeting g v l f' := by
  refine Edit.forIn_run (f := g) (fun done f => Retargeting g v done f)
    (fun done n rest f hsplit h => ?_)
    ⟨hg, .refl hg.tables, fun n hn => by cases hn⟩
  obtain ⟨c, hn, hT⟩ := hl n (by rw [hsplit]; simp)
  obtain ⟨a, f', hrun, h'⟩ := h.next hg hfed hn hT
  exact ⟨f', (Edit.bind_eq hrun).trans rfl, h'⟩

theorem Loses.fresh_unbound (h : Loses b v t f g) (hc : f.Calm) {c : NodeId}
    {e : NodeId × Option TimelineId} (he : e ∈ g.feeds c v) (hne : e.2 ≠ some t) :
    g.Fresh v e.1 e.2 := by
  rw [h.feeds] at he
  refine h.fresh_aside (hc.fresh e he) fun hdep => hne ?_
  rw [hc.fresh e he _ hdep, Option.bind_some, h.was]

theorem Loses.locals_nil (h : Loses b v t f g) : g.locals b v = [] := by
  have hnone := h.explicit? b v
  rw [if_pos ⟨rfl, rfl⟩, h.tables.explicit?_eq] at hnone
  split at hnone
  · next hnil => exact hnil.1
  · rw [h.id] at hnone
    cases hnone

theorem Loses.not_explicit (h : Loses b v t f g) : (g.timelineAt t).explicit = false := by
  have hnone := h.explicit? b v
  rw [if_pos ⟨rfl, rfl⟩, explicit?_of_timeline h.id] at hnone
  split at hnone
  · cases hnone
  · next hne => exact Bool.not_eq_true _ ▸ hne

/-- Nodes of other variables stay fresh, so it is enough to look at those of `v`. -/
theorem Loses.nodesFresh (h : Loses b v t f g) (hc : f.Calm) (hw : g'.Searchable)
    (ha : Advances v g g') (hv : ∀ c, ∀ n ∈ g'.joinNodes c v,
      g'.Fresh v (g'.incomingAt n).pred (g'.incomingAt n).target) : g'.NodesFresh := by
  have hshaped := h.shaped hc
  refine ⟨ha.shaped hshaped hw, fun {c w} e he => ?_⟩
  by_cases hwv : w = v
  · subst hwv
    obtain ⟨n, hn, rfl⟩ := List.mem_map.mp he
    exact hv c n hn
  · exact ha.fresh_feeds hshaped.fed hshaped.searchable.forest
      (fun c e he => h.fresh_other hwv (hc.fresh e (h.feeds c w ▸ he))) c e he

/-- After the question the nodes that are not bound to the timeline are fresh. -/
theorem Loses.fresh_elsewhere (h : Loses b v t f g) (hc : f.Calm) (href : Refines g g')
    {c : NodeId} {n : IncomingId} (hn : n ∈ g'.joinNodes c v)
    (hne : (g'.incomingAt n).target ≠ some t) :
    g'.Fresh v (g'.incomingAt n).pred (g'.incomingAt n).target := by
  have he := mem_feeds hn
  rcases href.joins c v with hj | hj
  · rw [href.feeds_of_joinNodes h.tables hj] at he
    exact href.fresh ((h.shaped hc).pred_mem he) (h.fresh_unbound hc he hne)
  · exact hj.fresh _ he

/-- Binding everything that refers to the timeline to what leaves its block makes all nodes
fresh. -/
theorem Retargeting.fresh (hg : g.Searchable) (hfed : g.Fed)
    (h : Retargeting g v (g.timelineAt t).referrers f)
    (hold : ∀ {c n}, n ∈ g.joinNodes c v → (g.incomingAt n).target ≠ some t →
      g.Fresh v (g.incomingAt n).pred (g.incomingAt n).target)
    (c : NodeId) {n : IncomingId} (hn : n ∈ f.joinNodes c v) :
    f.Fresh v (f.incomingAt n).pred (f.incomingAt n).target := by
  rcases h.advances.joins c v with hj | hj
  · rw [hj] at hn
    by_cases hdone : (g.incomingAt n).target = some t
    · exact h.bound n (hg.tables.mem_referrers_of_target hn hdone) hn
    · exact h.advances.fresh_target hfed hg.forest hn (hold hn hdone)
  · exact hj.fresh _ (mem_feeds hn)

/-- Every node is fresh again once those bound to the timeline have been bound anew. -/
theorem Loses.retarget (h : Loses b v t f g) (hc : f.Calm) (hb : b ∈ f.blocks) :
    ∃ g', Edit.retarget t g = .ok ⟨⟩ g' ∧ g'.NodesFresh ∧ Advances v g g' := by
  have hfed : g.Fed := (h.shaped hc).fed
  have hw := h.searchable hc
  rw [Edit.retarget, Edit.bind_eq Edit.get_eq]
  by_cases hempty : (g.timelineAt t).referrers = []
  · -- Nothing refers to the timeline, so no node is bound to it.
    refine ⟨g, by simp [hempty]; rfl, h.nodesFresh hc hw (.refl hw.tables) fun c n hn => ?_,
      .refl hw.tables⟩
    refine h.fresh_unbound hc (mem_feeds hn) fun hbound => ?_
    have hm := hw.tables.mem_referrers_of_target hn hbound
    rw [hempty] at hm
    cases hm
  obtain ⟨r, g', hres, hw', hresolves, hshows⟩ := resolveAt_ok hw (h.blocks ▸ hb) v
  have href := hresolves.refines hw
  have ha := href.advances hw.tables (hresolves.spares hw.tables)
  have hT := hshows.fresh hw'.tables (by rw [href.locals, h.locals_nil])
  have hbound : ∀ {c}, ∀ n ∈ g'.joinNodes c v, (g'.incomingAt n).target = some t →
      g'.Fresh v (g'.incomingAt n).pred r.timeline? := fun n hn hbound =>
    h.fresh_referrer hc hresolves hw' hT hn hbound
  have hcond : ((g.timelineAt t).referrers.isEmpty || (g.timelineAt t).explicit) = false := by
    rw [h.not_explicit, Bool.or_false, List.isEmpty_eq_false_iff]
    exact hempty
  simp only [hcond, h.tables.block_eq h.id, h.tables.var_eq h.id]
  rw [if_neg Bool.false_ne_true, Edit.bind_eq hres]
  by_cases hsame : r.timeline? = some t
  · -- The value that leaves the block is still that of the timeline.
    refine ⟨g', by rw [if_pos hsame]; rfl, h.nodesFresh hc hw' ha fun c n hn => ?_, ha⟩
    by_cases hne : (g'.incomingAt n).target = some t
    · have hfresh := hbound n hn hne
      rw [hsame] at hfresh
      exact hne ▸ hfresh
    · exact h.fresh_elsewhere hc href hn hne
  · have hlist : ∀ n ∈ (g'.timelineAt t).referrers, ∃ c, n ∈ g'.joinNodes c v ∧
        g'.Fresh v (g'.incomingAt n).pred r.timeline? := by
      intro n hn
      obtain ⟨c, hm, htarget⟩ := hw'.tables.exists_of_mem_referrers (href.id h.id) hn
      exact ⟨c, hm, hbound n hm htarget⟩
    have hfed' : g'.Fed := ha.fed hfed
    obtain ⟨g'', hloop, hret⟩ := rebindAll_ok hw' hfed' hlist
    have ha' := ha.trans hw.forest hfed hret.advances
    have hfresh := hret.fresh hw' hfed' (h.fresh_elsewhere hc href)
    refine ⟨g'', ?_, h.nodesFresh hc hret.searchable ha' fun c n hn => hfresh c hn, ha'⟩
    rw [if_neg hsame, Edit.bind_eq Edit.get_eq]
    exact hloop

end

end DefFlow.Flow
