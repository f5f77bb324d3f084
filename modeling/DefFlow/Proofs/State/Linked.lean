import DefFlow.Proofs.Resolution.Real
import DefFlow.Proofs.Resolution.Sight

/-!
# Linked functions

Timelines and nodes name each other, a join has one node for each predecessor, and the
answers that a function remembers are about timelines that are there. This asks nothing of
the trees but that predecessors are stored, so it survives every edit of timelines and nodes.
-/

set_option autoImplicit false

namespace DefFlow.Flow

open Func

structure Func.Linked (f : Func) : Prop extends f.Grounds where
  pred : ∀ {n i}, f.incoming.get? n = some i → (f.nodes.get? i.pred).isSome
  apart : ∀ b v, ((f.feeds b v).map Prod.fst).Nodup
  recalls : ∀ {q s}, (q, s) ∈ f.memo → s.Found f q.var

structure Rewires (f f' : Func) : Prop extends Keeps f f' where
  id : ∀ {b v t}, f.timelineId? b v = some t → f'.timelineId? b v = some t
  held : ∀ b v, f'.held b v = f.held b v
  waiting : ∀ b v, f'.waiting b v = f.waiting b v

structure Relinks (f f' : Func) : Prop extends Rewires f f' where
  linked : f'.Linked

/-- An edit of timelines and nodes that loses no node either, makes nodes for edges only, and
remembers nothing but what the blocks see. -/
structure Weaves (f f' : Func) : Prop extends Relinks f f' where
  nodes : ∀ {n i}, f.incoming.get? n = some i →
    ∃ j, f'.incoming.get? n = some j ∧ j.owner = i.owner ∧ j.pred = i.pred
  edged : f.Edged → f'.Edged
  retells : f.Forest → f.Retells → f'.Retells

section

variable {f f' f'' : Func} {b p : NodeId} {v : VarId} {t : TimelineId} {n : IncomingId}
  {T : Option TimelineId}

namespace Rewires

theorem refl (f : Func) : Rewires f f := ⟨.refl f, fun h => h, fun _ _ => rfl, fun _ _ => rfl⟩

theorem trans (h : Rewires f f') (h' : Rewires f' f'') : Rewires f f'' where
  toKeeps := h.toKeeps.trans h'.toKeeps
  id ht := h'.id (h.id ht)
  held b v := (h'.held b v).trans (h.held b v)
  waiting b v := (h'.waiting b v).trans (h.waiting b v)

theorem live (h : Rewires f f') (ht : f.Tables) (ht' : f'.Tables) {x : Timeline}
    (hx : f.timelines.get? t = some x) :
    ∃ y, f'.timelines.get? t = some y ∧ y.block = x.block ∧ y.var = x.var :=
  ht'.placed (h.id (ht.listed hx))

theorem block (h : Rewires f f') (hb : (f.nodes.get? b).isSome) : (f'.nodes.get? b).isSome := by
  rw [h.stored]
  exact hb

theorem outlives (h : Rewires f f') (ht : f.Tables) (ht' : f'.Tables) : Outlives f f' where
  timelines hx := by
    obtain ⟨y, hy, _, hvar⟩ := h.live ht ht' hx
    exact ⟨y, hy, hvar⟩
  blocks := h.block

/-- What a linked function says of its predecessors and answers outlives the edit. -/
theorem linked (h : Rewires f f') (hf : f.Linked) (ht : f'.Tables)
    (hpred : ∀ {n i}, f'.incoming.get? n = some i → (f.nodes.get? i.pred).isSome)
    (hapart : ∀ b v, ((f'.feeds b v).map Prod.fst).Nodup)
    (hmemo : f'.memo = f.memo ∨ f'.memo = []) : f'.Linked where
  tables := ht
  preds b p hp := h.block (hf.preds b p (h.preds ▸ hp))
  pred hi := h.block (hpred hi)
  apart := hapart
  recalls := fun hs => by
    rcases hmemo with hm | hm
    · rw [hm] at hs
      exact (hf.recalls hs).mono (h.outlives hf.tables ht)
    · rw [hm] at hs
      cases hs

end Rewires

theorem Forgets.memo_or (h : Forgets f f') : f'.memo = f.memo ∨ f'.memo = [] := by
  rcases h with rfl | h
  · exact Or.inl rfl
  · exact Or.inr h

namespace Relinks

theorem refl (h : f.Linked) : Relinks f f := ⟨.refl f, h⟩

theorem trans (h : Relinks f f') (h' : Relinks f' f'') : Relinks f f'' :=
  ⟨h.toRewires.trans h'.toRewires, h'.linked⟩

theorem memo (h : f.Linked) {m : List (Question × Stack)}
    (hm : ∀ {q s}, (q, s) ∈ m → s.Found f q.var) : Relinks f { f with memo := m } where
  handle := rfl
  body := rfl
  bodyHeld := rfl
  detached := rfl
  frozen := rfl
  size := rfl
  stored _ := rfl
  name := rfl
  vars := rfl
  args := rfl
  returns := rfl
  insts := rfl
  label _ := rfl
  instructions _ := rfl
  phiCount _ := rfl
  id ht := ht
  held _ _ := rfl
  waiting _ _ := rfl
  linked := {
    tables := tables_memo h.tables m
    preds := h.preds
    pred := h.pred
    apart := h.apart
    recalls := fun hs => (hm hs).mono ⟨fun hx => ⟨_, hx, rfl⟩, fun hb => hb⟩ }

theorem forget (h : f.Linked) : Relinks f { f with memo := [] } := .memo h fun hm => by cases hm

end Relinks

namespace Weaves

theorem refl (h : f.Linked) : Weaves f f :=
  ⟨.refl h, fun hi => ⟨_, hi, rfl, rfl⟩, fun he => he, fun _ hr => hr⟩

theorem trans (h : Weaves f f') (h' : Weaves f' f'') : Weaves f f'' where
  toRelinks := h.toRelinks.trans h'.toRelinks
  edged he := h'.edged (h.edged he)
  retells hf hr := h'.retells (h.toSameGraph.forest hf) (h.retells hf hr)
  nodes hi := by
    obtain ⟨j, hj, ho, hp⟩ := h.nodes hi
    obtain ⟨k, hk, ho', hp'⟩ := h'.nodes hj
    exact ⟨k, hk, ho'.trans ho, hp'.trans hp⟩

end Weaves

/-! ## Timelines -/

theorem timelineFor_weaves (h : f.Linked) (hb : (f.nodes.get? b).isSome)
    (hrun : Edit.timelineFor b v f = .ok t f') : Weaves f f' ∧ f'.timelineId? b v = some t := by
  obtain ⟨t', f₁, hrun', ht, hl⟩ := Edit.timelineFor_ok h.tables hb v
  rw [hrun'] at hrun
  cases hrun
  have hid : ∀ {c w u}, f.timelineId? c w = some u → f'.timelineId? c w = some u := by
    intro c w u hu
    rw [hl.id]
    split
    · next hc =>
      rw [hc.1, hc.2] at hu
      rcases hl.old with ho | ho
      · rw [ho] at hu
        cases hu
      · rw [← ho, hu]
    · exact hu
  have hw : Rewires f f' := ⟨hl.keeps, hid, hl.held, hl.waiting⟩
  refine ⟨⟨⟨hw, hw.linked h ht (fun hi => h.pred (hl.incoming ▸ hi)) (fun c w => ?_)
    hl.forgets.memo_or⟩, fun hi => ⟨_, hl.incoming ▸ hi, rfl, rfl⟩, fun he {c w} hc e hm => ?_,
    fun _ => hl.forgets.retells⟩, hl.self⟩
  · rw [hl.feeds]
    exact h.apart c w
  · rw [hl.feeds] at hm
    rw [hl.keeps.preds]
    exact he (hl.keeps.blocks ▸ hc) e hm

/-! ## Nodes -/

def Func.Target (f : Func) (v : VarId) (T : Option TimelineId) : Prop :=
  ∀ t, T = some t → ∃ x, f.timelines.get? t = some x ∧ x.var = v

theorem Func.Target.mono (h : f.Target v T) (hw : Rewires f f') (hf : f.Tables)
    (hf' : f'.Tables) : f'.Target v T := by
  intro t ht
  obtain ⟨x, hx, hv⟩ := h t ht
  obtain ⟨y, hy, _, hyv⟩ := hw.live hf hf' hx
  exact ⟨y, hy, hyv.trans hv⟩

theorem target_of_explicit? (h : f.Tables) (ht : f.explicit? b v = some t) :
    f.Target v (some t) := by
  intro u hu
  cases hu
  exact real_of_explicit? h ht

theorem rebind_weaves (h : f.Linked) {i : Incoming} (hi : f.incoming.get? n = some i)
    (hT : f.Target (f.timelineAt i.owner).var T) {c : Bool}
    (hrun : Edit.rebind n T f = .ok c f') : Weaves f f' := by
  obtain ⟨c', f₁, hrun', ht, hb⟩ := rebind_ok h.tables hi hT
  rw [hrun'] at hrun
  cases hrun
  have hw : Rewires f f' :=
    ⟨hb.keeps, fun hid => by rw [hb.same.id]; exact hid, hb.same.held, hb.same.waiting⟩
  have hfst : ∀ b v, (f'.feeds b v).map Prod.fst = (f.feeds b v).map Prod.fst := by
    intro b v
    rw [hb.feeds, Func.feeds, List.map_map, List.map_map]
    refine List.map_congr_left fun m _ => ?_
    rw [Function.comp_apply, Function.comp_apply]
    split
    · next hm => rw [hm, incomingAt_of_get? hi]
    · rfl
  refine ⟨⟨hw, hw.linked h ht (fun {m j} hj => ?_) (fun b v => ?_) hb.forgets.memo_or⟩,
    fun {m j} hj => ?_, fun he {c w} hc e hm => ?_, fun _ => hb.forgets.retells⟩
  · rw [hb.get] at hj
    split at hj
    · cases hj
      have hp := h.pred hi
      exact hp
    · exact h.pred hj
  · rw [hfst]
    exact h.apart b v
  · rw [hb.get]
    by_cases hm : m = n
    · rw [hm, hi, Option.some.injEq] at hj
      exact ⟨_, if_pos hm, by rw [← hj], by rw [← hj]⟩
    · exact ⟨j, by rw [if_neg hm, hj], rfl, rfl⟩
  · have hmem : e.1 ∈ (f.feeds c w).map Prod.fst := hfst c w ▸ List.mem_map_of_mem hm
    obtain ⟨e', he', heq⟩ := List.mem_map.mp hmem
    rw [hb.keeps.preds, ← heq]
    exact he (hb.keeps.blocks ▸ hc) e' he'

theorem incomingFrom?_none (h : f.Tables) (hid : f.timelineId? b v = some t)
    (hn : f.incomingFrom? t p = none) : ∀ n ∈ f.joinNodes b v, (f.incomingAt n).pred ≠ p := by
  intro n hm
  rw [h.joinNodes_eq hid] at hm
  rw [incomingFrom?, List.find?_eq_none] at hn
  simpa using hn n hm

/-- A predecessor is linked as told; a node that is made for an edge weaves. -/
theorem linkIncoming_relinks (h : f.Linked) (hid : f.timelineId? b v = some t)
    (hp : (f.nodes.get? p).isSome) (hT : f.Target v T)
    (hrun : Edit.linkIncoming t p T f = .ok n f') :
    Relinks f f' ∧ Forgets f f' ∧ ((b ∈ f.blocks → p ∈ f.preds b) → Weaves f f') := by
  cases hfrom : f.incomingFrom? t p with
  | some m =>
    obtain ⟨⟨k, c⟩, f₁, hlink, hrun⟩ := Edit.bind_ok hrun
    cases hrun
    rw [Edit.linkBound, Edit.bind_eq Edit.get_eq, hfrom] at hlink
    obtain ⟨c, f₁, hbind, hlink⟩ := Edit.bind_ok hlink
    cases hlink
    obtain ⟨x, hx, hxb, hxv⟩ := h.tables.placed hid
    rw [incomingFrom?, timelineAt_of_get? hx] at hfrom
    obtain ⟨i, hi, ho⟩ := h.tables.owner hx (List.mem_of_find?_eq_some hfrom)
    have hTi : f.Target (f.timelineAt i.owner).var T := by
      rw [ho, timelineAt_of_get? hx, hxv]
      exact hT
    have hw := rebind_weaves h hi hTi hbind
    obtain ⟨c', f₂, hbind', -, hb⟩ := rebind_ok h.tables hi hTi
    rw [hbind'] at hbind
    cases hbind
    exact ⟨hw.toRelinks, hb.forgets, fun _ => hw⟩
  | none =>
    have hnew := incomingFrom?_none h.tables hid hfrom
    obtain ⟨m, f₁, hrun', ht, hl⟩ := linkIncoming_ok h.tables hid hnew hT
    rw [hrun'] at hrun
    cases hrun
    have hw : Rewires f f' :=
      ⟨hl.keeps, fun hid => by rw [hl.same.id]; exact hid, hl.same.held, hl.same.waiting⟩
    have hr : Relinks f f' := by
      refine ⟨hw, hw.linked h ht (fun {m j} hj => ?_) (fun c w => ?_) (Or.inr hl.memo)⟩
      · rw [hl.get] at hj
        split at hj
        · cases hj
          exact hp
        · exact h.pred hj
      · rw [hl.feeds h.tables]
        split
        · next hc =>
          rw [hc.1, hc.2, List.map_append]
          refine nodup_concat (h.apart b v) fun hq => ?_
          rw [feeds, List.map_map] at hq
          obtain ⟨m, hm, he⟩ := List.mem_map.mp hq
          exact hnew m hm he
        · exact h.apart c w
    refine ⟨hr, Or.inr hl.memo, fun hedge => ⟨hr, fun {m j} hj => ?_, fun he {c w} hc e hm => ?_,
      fun _ _ => retells_of_nil hl.memo⟩⟩
    · have hne : m ≠ n := hl.fresh ▸ Arena.ne_next_of_get? _ hj
      exact ⟨j, by rw [hl.get, if_neg hne, hj], rfl, rfl⟩
    · rw [hl.keeps.blocks] at hc
      rw [hl.keeps.preds]
      rw [hl.feeds h.tables] at hm
      split at hm
      · next hcw =>
        rcases List.mem_append.mp hm with hm | hm
        · exact he hc e hm
        · rw [List.mem_singleton.mp hm, hcw.1]
          exact hedge (hcw.1 ▸ hc)
      · exact he hc e hm

theorem linkIncoming_weaves (h : f.Linked) (hid : f.timelineId? b v = some t)
    (hp : (f.nodes.get? p).isSome) (hedge : b ∈ f.blocks → p ∈ f.preds b) (hT : f.Target v T)
    (hrun : Edit.linkIncoming t p T f = .ok n f') : Weaves f f' :=
  (linkIncoming_relinks h hid hp hT hrun).2.2 hedge

/-! ## Removing a node -/

def dropNode (n : IncomingId) (i : Incoming) (t : TimelineId) (x : Timeline) : Timeline :=
  { x with
    incoming := if i.owner = t then x.incoming.erase n else x.incoming
    referrers := if i.target = some t then x.referrers.erase n else x.referrers }

def Func.unlinked (f : Func) (n : IncomingId) (i : Incoming) : Func :=
  let disowned := f.timelines.modify i.owner fun x => { x with incoming := x.incoming.erase n }
  { f with
    timelines := match i.target with
      | some t => disowned.modify t fun x => { x with referrers := x.referrers.erase n }
      | none => disowned
    incoming := (match i.target with
      | some _ => f.incoming.modify n fun x => { x with target := none }
      | none => f.incoming).release n
    memo := [] }

theorem removeIncoming_eq {i : Incoming} (hi : f.incoming.get? n = some i) :
    Edit.removeIncoming n f = .ok () (f.unlinked n i) := by
  have hat := incomingAt_of_get? hi
  rw [Edit.removeIncoming, Edit.bind_eq Edit.get_eq, hat, Edit.bind_eq (Edit.changeTimeline_eq _ _)]
  have hi₁ : ({ f with timelines := f.timelines.modify i.owner fun x =>
      { x with incoming := x.incoming.erase n } } : Func).incoming.get? n = some i := hi
  cases ht : i.target with
  | none =>
    rw [Edit.bind_eq (rebind_of_eq hi₁ ht fun _ he => by cases he), Func.unlinked, ht]
    rfl
  | some t =>
    rw [Edit.bind_eq (rebind_of_ne hi₁ (by rw [ht]; nofun) fun _ he => by cases he),
      Func.unlinked, Func.rebound, ht]
    rfl

theorem rewired_unlinked {i : Incoming} : Rewired f (f.unlinked n i) (dropNode n i) where
  nodes := rfl
  get t := by
    cases ht : i.target with
    | none =>
      simp only [unlinked, ht, Arena.get?_modify_map]
      congr 1
      funext x
      by_cases ho : i.owner = t <;> simp [dropNode, ho, ht]
    | some u =>
      simp only [unlinked, ht, Arena.get?_modify_map, Option.map_map]
      congr 1
      funext x
      by_cases ho : i.owner = t <;> by_cases hu : u = t <;> simp [dropNode, ho, hu, ht]
  block _ _ := rfl
  var _ _ := rfl
  locals _ _ := rfl
  waiting _ _ := rfl

theorem get?_unlinked {i : Incoming} (m : IncomingId) :
    (f.unlinked n i).incoming.get? m = if m = n then none else f.incoming.get? m := by
  cases ht : i.target with
  | none => simp only [unlinked, ht, Arena.get?_release]
  | some t =>
    simp only [unlinked, ht, Arena.get?_release]
    split
    · rfl
    · next hm => rw [Arena.get?_modify_of_ne _ hm]

theorem size_unlinked {i : Incoming} : (f.unlinked n i).incoming.size = f.incoming.size := by
  cases ht : i.target <;> simp only [unlinked, ht, Arena.size_release, Arena.size_modify]

theorem mem_dropNode_incoming (h : f.Tables) {i : Incoming} (hi : f.incoming.get? n = some i)
    {x : Timeline} (hx : f.timelines.get? t = some x) {m : IncomingId} :
    m ∈ (dropNode n i t x).incoming ↔ m ≠ n ∧ m ∈ x.incoming := by
  simp only [dropNode]
  split
  · exact (h.nodes_nodup hx).mem_erase_iff
  · next ho =>
    refine ⟨fun hm => ⟨fun he => ho ?_, hm⟩, fun hm => hm.2⟩
    obtain ⟨j, hj, hjo⟩ := h.owner hx (he ▸ hm)
    rw [hi, Option.some.injEq] at hj
    rw [hj, hjo]

theorem mem_dropNode_referrers (h : f.Tables) {i : Incoming} (hi : f.incoming.get? n = some i)
    {x : Timeline} (hx : f.timelines.get? t = some x) {m : IncomingId} :
    m ∈ (dropNode n i t x).referrers ↔ m ≠ n ∧ m ∈ x.referrers := by
  simp only [dropNode]
  split
  · exact (h.referrers_nodup hx).mem_erase_iff
  · next ho =>
    refine ⟨fun hm => ⟨fun he => ho ?_, hm⟩, fun hm => hm.2⟩
    obtain ⟨j, hj, hjt⟩ := h.referrer hx (he ▸ hm)
    rw [hi, Option.some.injEq] at hj
    rw [hj, hjt]

theorem unlinked_tables (h : f.Tables) {i : Incoming} (hi : f.incoming.get? n = some i) :
    (f.unlinked n i).Tables := by
  have R := rewired_unlinked (f := f) (n := n) (i := i)
  have other : ∀ {m j}, (f.unlinked n i).incoming.get? m = some j →
      m ≠ n ∧ f.incoming.get? m = some j := by
    intro m j hj
    rw [get?_unlinked] at hj
    split at hj
    · cases hj
    · next hm => exact ⟨hm, hj⟩
  have keep : ∀ {m j}, m ≠ n → f.incoming.get? m = some j →
      (f.unlinked n i).incoming.get? m = some j := by
    intro m j hm hj
    rw [get?_unlinked, if_neg hm, hj]
  exact {
    placed := R.placed h
    listed := R.listed h
    sorted := R.sorted h
    owner := fun {t y m} hy hm => by
      obtain ⟨x, hx, rfl⟩ := R.exists_of_get hy
      obtain ⟨hne, hm⟩ := (mem_dropNode_incoming h hi hx).mp hm
      obtain ⟨j, hj, ho⟩ := h.owner hx hm
      exact ⟨j, keep hne hj, ho⟩
    node := fun {m j} hj => by
      obtain ⟨hne, hj⟩ := other hj
      obtain ⟨x, hx, hm⟩ := h.node hj
      exact ⟨_, R.get_of_get hx, (mem_dropNode_incoming h hi hx).mpr ⟨hne, hm⟩⟩
    nodes_nodup := fun {t y} hy => by
      obtain ⟨x, hx, rfl⟩ := R.exists_of_get hy
      simp only [dropNode]
      split
      · exact (h.nodes_nodup hx).erase n
      · exact h.nodes_nodup hx
    target := fun {m j t} hj ht => by
      obtain ⟨hne, hj⟩ := other hj
      obtain ⟨x, hx, hm, hv⟩ := h.target hj ht
      exact ⟨_, R.get_of_get hx, (mem_dropNode_referrers h hi hx).mpr ⟨hne, hm⟩,
        hv.trans (R.var_at _).symm⟩
    referrer := fun {t y m} hy hm => by
      obtain ⟨x, hx, rfl⟩ := R.exists_of_get hy
      obtain ⟨hne, hm⟩ := (mem_dropNode_referrers h hi hx).mp hm
      obtain ⟨j, hj, ht⟩ := h.referrer hx hm
      exact ⟨j, keep hne hj, ht⟩
    referrers_nodup := fun {t y} hy => by
      obtain ⟨x, hx, rfl⟩ := R.exists_of_get hy
      simp only [dropNode]
      split
      · exact (h.referrers_nodup hx).erase n
      · exact h.referrers_nodup hx }

theorem joinNodes_unlinked (h : f.Tables) (i : Incoming) (b : NodeId) (v : VarId) :
    ((f.unlinked n i).joinNodes b v).Sublist (f.joinNodes b v) := by
  rw [rewired_unlinked.joinNodes h]
  cases hid : f.timelineId? b v with
  | none => exact List.nil_sublist _
  | some t =>
    rw [h.joinNodes_eq hid]
    simp only [dropNode]
    split
    · exact List.erase_sublist
    · exact .refl _

theorem removeIncoming_relinks (h : f.Linked) (hn : (f.incoming.get? n).isSome) {u : Unit}
    (hrun : Edit.removeIncoming n f = .ok u f') :
    Relinks f f' ∧ ∀ m, f'.incoming.get? m = if m = n then none else f.incoming.get? m := by
  obtain ⟨i, hi⟩ := Option.isSome_iff_exists.mp hn
  rw [removeIncoming_eq hi] at hrun
  cases hrun
  have R := rewired_unlinked (f := f) (n := n) (i := i)
  have hw : Rewires f (f.unlinked n i) :=
    ⟨keeps_of_stores rfl, fun hid => by rw [R.id]; exact hid, R.sameLists.held,
      R.sameLists.waiting⟩
  have ht := unlinked_tables h.tables hi
  refine ⟨⟨hw, hw.linked h ht (fun {m j} hj => ?_) (fun b v => ?_) (Or.inr rfl)⟩, get?_unlinked⟩
  · rw [get?_unlinked] at hj
    split at hj
    · cases hj
    · exact h.pred hj
  · have hsub : ((f.unlinked n i).feeds b v).Sublist (f.feeds b v) := by
      have hsame : (f.unlinked n i).feeds b v = ((f.unlinked n i).joinNodes b v).map fun m =>
          ((f.incomingAt m).pred, (f.incomingAt m).target) := by
        refine List.map_congr_left fun m hm => ?_
        obtain ⟨_, j, _, hj, _⟩ := ht.get?_of_mem hm
        rw [get?_unlinked] at hj
        split at hj
        · cases hj
        · next hne => rw [incomingAt, incomingAt, get?_unlinked, if_neg hne]
      rw [hsame]
      exact (joinNodes_unlinked h.tables i b v).map _
    exact (h.apart b v).sublist (hsub.map _)

end

end DefFlow.Flow
