import DefFlow.Proofs.State.Tables

/-!
# Making timelines and nodes

What the edits that look up a timeline, bind a node and link a predecessor do to the
tables of a function.
-/

set_option autoImplicit false

namespace DefFlow.Flow

open Func

def Forgets (f f' : Func) : Prop := f' = f ∨ f'.memo = []

theorem Forgets.trans {f f' f'' : Func} (h : Forgets f f') (h' : Forgets f' f'') :
    Forgets f f'' := by
  rcases h' with rfl | h'
  · exact h
  · exact Or.inr h'

/-! ## Looking up a timeline -/

structure Lists (b : NodeId) (v : VarId) (t : TimelineId) (f f' : Func) : Prop where
  keeps : Keeps f f'
  id : ∀ c w, f'.timelineId? c w = if c = b ∧ w = v then some t else f.timelineId? c w
  old : f.timelineId? b v = none ∨ f.timelineId? b v = some t
  held : ∀ c w, f'.held c w = f.held c w
  waiting : ∀ c w, f'.waiting c w = f.waiting c w
  joinNodes : ∀ c w, f'.joinNodes c w = f.joinNodes c w
  incoming : f'.incoming = f.incoming
  live : ∀ {u x}, f.timelines.get? u = some x → f'.timelines.get? u = some x
  forgets : Forgets f f'

theorem Lists.self {b : NodeId} {v : VarId} {t : TimelineId} {f f' : Func}
    (h : Lists b v t f f') : f'.timelineId? b v = some t := by
  rw [h.id, if_pos ⟨rfl, rfl⟩]

theorem Lists.locals {b : NodeId} {v : VarId} {t : TimelineId} {f f' : Func}
    (h : Lists b v t f f') (c : NodeId) (w : VarId) : f'.locals c w = f.locals c w :=
  locals_of_held (h.held c w)

theorem Lists.feeds {b : NodeId} {v : VarId} {t : TimelineId} {f f' : Func}
    (h : Lists b v t f f') (c : NodeId) (w : VarId) : f'.feeds c w = f.feeds c w := by
  simp only [Func.feeds, h.joinNodes, incomingAt, h.incoming]

namespace Edit

theorem lookup_insertEntry {v w : VarId} {t : TimelineId} {l : List (VarId × TimelineId)}
    (h : l.lookup v = none) :
    (insertEntry v t l).lookup w = if w = v then some t else l.lookup w := by
  induction l with
  | nil => exact lookup_cons_ite
  | cons e l ih =>
    obtain ⟨u, s⟩ := e
    have hu : v ≠ u := by
      rintro rfl
      simp at h
    rw [lookup_cons_of_ne hu] at h
    rw [insertEntry]
    split
    · exact lookup_cons_ite
    · rw [lookup_cons_ite, lookup_cons_ite, ih h]
      split
      · next hw => rw [if_neg (hw ▸ Ne.symm hu)]
      · rfl

theorem mem_insertEntry {v : VarId} {t : TimelineId} {l : List (VarId × TimelineId)}
    {e : VarId × TimelineId} : e ∈ insertEntry v t l ↔ e = (v, t) ∨ e ∈ l := by
  induction l with
  | nil => simp [insertEntry]
  | cons d l ih =>
    rw [insertEntry]
    split
    · exact List.mem_cons
    · rw [List.mem_cons, ih, List.mem_cons, or_left_comm]

/-- A new entry is put where the order of the variables wants it. -/
theorem sorted_insertEntry {v : VarId} {t : TimelineId} {l : List (VarId × TimelineId)}
    (hl : (l.map Prod.fst).Pairwise (· < ·)) (hv : v ∉ l.map Prod.fst) :
    ((insertEntry v t l).map Prod.fst).Pairwise (· < ·) := by
  induction l with
  | nil => exact List.pairwise_singleton _ _
  | cons e l ih =>
    rw [List.map_cons, List.pairwise_cons] at hl
    rw [List.map_cons, List.mem_cons, not_or] at hv
    rw [insertEntry]
    split
    · next hlt =>
      rw [List.map_cons, List.map_cons, List.pairwise_cons, List.pairwise_cons]
      refine ⟨fun w hw => ?_, hl⟩
      rcases List.mem_cons.mp hw with rfl | hw
      · exact hlt
      · exact Nat.lt_trans hlt (hl.1 w hw)
    · next hge =>
      rw [List.map_cons, List.pairwise_cons]
      refine ⟨fun w hw => ?_, ih hl.2 hv.2⟩
      obtain ⟨d, hd, rfl⟩ := List.mem_map.mp hw
      rcases mem_insertEntry.mp hd with rfl | hd
      · exact Nat.lt_of_le_of_ne (Nat.le_of_not_lt hge) (Ne.symm hv.1)
      · exact hl.1 _ (List.mem_map_of_mem hd)

theorem blockAt_modify (f : Func) (b c : NodeId) (change : Block → Block)
    (hb : (f.nodes.get? b).isSome) :
    ({ f with nodes := f.nodes.modify b change } : Func).blockAt c =
      if c = b then change (f.blockAt c) else f.blockAt c := by
  rw [blockAt, Arena.get?_modify]
  by_cases hc : c = b
  · obtain ⟨x, hx⟩ := Option.isSome_iff_exists.mp hb
    simp [hc, hx, blockAt]
  · simp [hc, blockAt]

theorem isSome_get?_modify {α : Type} (a : Arena α) (n m : Nat) (change : α → α) :
    ((a.modify n change).get? m).isSome = (a.get? m).isSome := by
  rw [Arena.get?_modify]
  by_cases hm : m = n
  · simp [hm]
  · simp [hm]

end Edit

def Func.withTimeline (f : Func) (b : NodeId) (v : VarId) : Func := { f with
  timelines := f.timelines.push ⟨b, v, [], [], [], []⟩
  nodes := f.nodes.modify b fun x =>
    { x with timelines := Edit.insertEntry v f.timelines.next x.timelines }
  memo := [] }

section

variable {f : Func} {b : NodeId} {v : VarId}

theorem blockAt_withTimeline (hb : (f.nodes.get? b).isSome) (c : NodeId) :
    (f.withTimeline b v).blockAt c =
      if c = b then { f.blockAt c with
        timelines := Edit.insertEntry v f.timelines.next (f.blockAt c).timelines }
      else f.blockAt c :=
  Edit.blockAt_modify f b c _ hb

theorem timelineId?_withTimeline (hb : (f.nodes.get? b).isSome) (hid : f.timelineId? b v = none)
    (c : NodeId) (w : VarId) : (f.withTimeline b v).timelineId? c w =
      if c = b ∧ w = v then some f.timelines.next else f.timelineId? c w := by
  rw [timelineId?, blockAt_withTimeline hb]
  by_cases hc : c = b
  · subst hc
    rw [if_pos rfl, Edit.lookup_insertEntry hid]
    by_cases hw : w = v <;> simp [hw, timelineId?]
  · simp [hc, timelineId?]

theorem get?_withTimeline (t : TimelineId) : (f.withTimeline b v).timelines.get? t =
    if t = f.timelines.next then some ⟨b, v, [], [], [], []⟩ else f.timelines.get? t :=
  Arena.get?_push _ _ _

theorem get?_withTimeline_of_live {t : TimelineId} {x : Timeline}
    (h : f.timelines.get? t = some x) : (f.withTimeline b v).timelines.get? t = some x := by
  rw [get?_withTimeline, if_neg (Arena.ne_next_of_get? _ h), h]

/-- A view that cannot tell an empty timeline from none does not change. -/
theorem view_withTimeline (h : f.Tables) (hb : (f.nodes.get? b).isSome)
    (hid : f.timelineId? b v = none) {β : Type} (g : Option Timeline → β)
    (hg : g (some ⟨b, v, [], [], [], []⟩) = g none) (c : NodeId) (w : VarId) :
    g ((f.withTimeline b v).timeline? c w) = g (f.timeline? c w) := by
  by_cases hc : c = b ∧ w = v
  · rw [hc.1, hc.2, timeline?, timeline?, timelineId?_withTimeline hb hid, if_pos ⟨rfl, rfl⟩, hid,
      Option.bind_some, get?_withTimeline, if_pos rfl, hg]
    rfl
  · rw [timeline?, timeline?, timelineId?_withTimeline hb hid, if_neg hc]
    cases hu : f.timelineId? c w with
    | none => rfl
    | some u =>
      obtain ⟨x, hx, _⟩ := h.placed hu
      rw [Option.bind_some, Option.bind_some, get?_withTimeline_of_live hx, hx]

theorem withTimeline_keeps (hb : (f.nodes.get? b).isSome) : Keeps f (f.withTimeline b v) where
  handle := rfl
  name := rfl
  body := rfl
  bodyHeld := rfl
  detached := rfl
  vars := rfl
  args := rfl
  returns := rfl
  insts := rfl
  frozen := rfl
  size := Arena.size_modify _ _ _
  stored c := Edit.isSome_get?_modify _ _ _ _
  label c := by rw [blockAt_withTimeline hb]; split <;> rfl
  instructions c := by rw [blockAt_withTimeline hb]; split <;> rfl
  phiCount c := by rw [blockAt_withTimeline hb]; split <;> rfl

theorem withTimeline_lists (h : f.Tables) (hb : (f.nodes.get? b).isSome)
    (hid : f.timelineId? b v = none) : Lists b v f.timelines.next f (f.withTimeline b v) where
  keeps := withTimeline_keeps hb
  id := timelineId?_withTimeline hb hid
  old := Or.inl hid
  held c w := by
    rw [held_elim, held_elim]
    exact view_withTimeline h hb hid (·.elim [] Timeline.locals) rfl c w
  waiting c w := by
    rw [waiting_elim, waiting_elim]
    exact view_withTimeline h hb hid (·.elim [] Timeline.waiting) rfl c w
  joinNodes c w := by
    rw [joinNodes_elim, joinNodes_elim]
    exact view_withTimeline h hb hid (·.elim [] Timeline.incoming) rfl c w
  incoming := rfl
  live := get?_withTimeline_of_live
  forgets := Or.inr rfl

theorem keys_of_lookup {l : List (VarId × TimelineId)} (h : l.lookup v = none) :
    v ∉ l.map Prod.fst := by
  intro hm
  obtain ⟨⟨_, t⟩, he, rfl⟩ := List.mem_map.mp hm
  exact absurd (List.lookup_eq_none_iff.mp h _ he) (by simp)

theorem withTimeline_tables (h : f.Tables) (hb : (f.nodes.get? b).isSome)
    (hid : f.timelineId? b v = none) : (f.withTimeline b v).Tables := by
  -- A timeline of the new function is the new one, which has no nodes, or an old one.
  have old : ∀ {t x}, (f.withTimeline b v).timelines.get? t = some x →
      (t = f.timelines.next ∧ x = ⟨b, v, [], [], [], []⟩) ∨ f.timelines.get? t = some x := by
    intro t x hx
    rw [get?_withTimeline] at hx
    split at hx
    · next ht => exact Or.inl ⟨ht, (Option.some.inj hx).symm⟩
    · exact Or.inr hx
  have bound : ∀ {t x n}, (f.withTimeline b v).timelines.get? t = some x →
      n ∈ x.incoming ∨ n ∈ x.referrers → f.timelines.get? t = some x := by
    intro t x n hx hn
    rcases old hx with ⟨_, rfl⟩ | hx
    · rcases hn with hn | hn <;> cases hn
    · exact hx
  have var_at : ∀ {t x}, f.timelines.get? t = some x →
      ((f.withTimeline b v).timelineAt t).var = (f.timelineAt t).var := by
    intro t x hx
    rw [timelineAt_of_get? hx, timelineAt_of_get? (get?_withTimeline_of_live hx)]
  exact {
    placed := fun {c w t} ht => by
      rw [timelineId?_withTimeline hb hid] at ht
      split at ht
      · next hc =>
        cases ht
        exact ⟨⟨b, v, [], [], [], []⟩, by rw [get?_withTimeline, if_pos rfl], hc.1.symm, hc.2.symm⟩
      · obtain ⟨x, hx, hxb, hxv⟩ := h.placed ht
        exact ⟨x, get?_withTimeline_of_live hx, hxb, hxv⟩
    listed := fun {t x} hx => by
      rw [timelineId?_withTimeline hb hid]
      rcases old hx with ⟨rfl, rfl⟩ | hx
      · rw [if_pos ⟨rfl, rfl⟩]
      · have hl := h.listed hx
        rw [if_neg, hl]
        rintro ⟨hxb, hxv⟩
        rw [hxb, hxv, hid] at hl
        cases hl
    sorted := fun c => by
      rw [blockAt_withTimeline hb]
      split
      · next hc => exact Edit.sorted_insertEntry (h.sorted c) (keys_of_lookup (hc ▸ hid))
      · exact h.sorted c
    owner := fun hx hn => h.owner (bound hx (Or.inl hn)) hn
    node := fun hn => by
      obtain ⟨x, hx, hm⟩ := h.node hn
      exact ⟨x, get?_withTimeline_of_live hx, hm⟩
    nodes_nodup := fun hx => by
      rcases old hx with ⟨_, rfl⟩ | hx
      · exact List.nodup_nil
      · exact h.nodes_nodup hx
    target := fun hn ht => by
      obtain ⟨x, hx, hm, hv⟩ := h.target hn ht
      obtain ⟨y, hy, _⟩ := h.node hn
      exact ⟨x, get?_withTimeline_of_live hx, hm, hv.trans (var_at hy).symm⟩
    referrer := fun hx hn => h.referrer (bound hx (Or.inr hn)) hn
    referrers_nodup := fun hx => by
      rcases old hx with ⟨_, rfl⟩ | hx
      · exact List.nodup_nil
      · exact h.referrers_nodup hx }

end

namespace Edit

theorem timelineFor_ok {f : Func} (h : f.Tables) {b : NodeId} (hb : (f.nodes.get? b).isSome)
    (v : VarId) : ∃ t f', timelineFor b v f = .ok t f' ∧ f'.Tables ∧ Lists b v t f f' := by
  cases hid : f.timelineId? b v with
  | some t =>
    refine ⟨t, f, ?_, h, ⟨.refl f, fun c w => ?_, Or.inr hid, fun _ _ => rfl, fun _ _ => rfl,
      fun _ _ => rfl, rfl, fun h => h, Or.inl rfl⟩⟩
    · rw [timelineFor, bind_eq get_eq, hid]
      rfl
    · split
      · next hc => rw [hc.1, hc.2, hid]
      · rfl
  | none =>
    refine ⟨f.timelines.next, f.withTimeline b v, ?_, withTimeline_tables h hb hid,
      withTimeline_lists h hb hid⟩
    rw [timelineFor, bind_eq get_eq, hid]
    rfl

end Edit

/-! ## Binding a node -/

structure Binds (n : IncomingId) (i : Incoming) (f f' : Func) : Prop where
  keeps : Keeps f f'
  same : SameLists f f'
  joinNodes : ∀ c w, f'.joinNodes c w = f.joinNodes c w
  get : ∀ m, f'.incoming.get? m = if m = n then some i else f.incoming.get? m
  size : f'.incoming.size = f.incoming.size
  live : ∀ t, (f'.timelines.get? t).isSome = (f.timelines.get? t).isSome
  forgets : Forgets f f'

theorem Binds.feeds {n : IncomingId} {i : Incoming} {f f' : Func} (h : Binds n i f f')
    (c : NodeId) (w : VarId) : f'.feeds c w = (f.joinNodes c w).map fun m =>
      if m = n then (i.pred, i.target) else ((f.incomingAt m).pred, (f.incomingAt m).target) := by
  rw [Func.feeds, h.joinNodes]
  apply List.map_congr_left
  intro m _
  rw [incomingAt, h.get]
  by_cases hm : m = n
  · simp [hm]
  · simp [hm, incomingAt]

def moveReferrer (n : IncomingId) (old new : Option TimelineId) (t : TimelineId) (x : Timeline) :
    Timeline :=
  { x with referrers := (if old = some t then x.referrers.erase n else x.referrers) ++
      if new = some t then [n] else [] }

def Func.rebound (f : Func) (n : IncomingId) (i : Incoming) (T : Option TimelineId) : Func :=
  let unlisted := match i.target with
    | some old => f.timelines.modify old fun x => { x with referrers := x.referrers.erase n }
    | none => f.timelines
  { f with
    timelines := match T with
      | some t => unlisted.modify t fun x => { x with referrers := x.referrers ++ [n] }
      | none => unlisted
    incoming := f.incoming.modify n fun x => { x with target := T }
    memo := [] }

section

variable {f : Func} {n : IncomingId} {i : Incoming} {T : Option TimelineId}

theorem rewired_rebound (hne : i.target ≠ T) :
    Rewired f (f.rebound n i T) (moveReferrer n i.target T) where
  nodes := rfl
  get t := by
    cases ho : i.target with
    | none =>
      cases hT : T with
      | none => exact absurd (ho.trans hT.symm) hne
      | some u =>
        simp only [rebound, ho, Arena.get?_modify_map]
        congr 1
        funext x
        by_cases hu : u = t <;> simp [moveReferrer, hu]
    | some o =>
      cases hT : T with
      | none =>
        simp only [rebound, ho, Arena.get?_modify_map]
        congr 1
        funext x
        by_cases hu : o = t <;> simp [moveReferrer, hu]
      | some u =>
        simp only [rebound, ho, Arena.get?_modify_map, Option.map_map]
        congr 1
        funext x
        by_cases hu : u = t <;> by_cases hv : o = t <;> simp [moveReferrer, hu, hv]
  block _ _ := rfl
  var _ _ := rfl
  locals _ _ := rfl
  waiting _ _ := rfl

theorem aim_eq (f : Func) (n : IncomingId) (T : Option TimelineId) :
    Edit.aim n T f = .ok () { f with
      timelines := match (f.incomingAt n).target with
        | some old => f.timelines.modify old fun x => { x with referrers := x.referrers.erase n }
        | none => f.timelines
      incoming := f.incoming.modify n fun x => { x with target := T } } := by
  rw [Edit.aim, Edit.bind_eq Edit.get_eq]
  cases (f.incomingAt n).target <;> rfl

theorem rebind_of_ne (hi : f.incoming.get? n = some i) (hne : i.target ≠ T)
    (hT : ∀ t, T = some t → (f.timelineAt t).var = (f.timelineAt i.owner).var) :
    Edit.rebind n T f = .ok true (f.rebound n i T) := by
  have hat := incomingAt_of_get? hi
  have hmiss : (f.incomingAt n).target ≠ T := by rwa [hat]
  rw [Edit.rebind, Edit.bind_eq Edit.get_eq]
  cases T with
  | none =>
    rw [if_neg hmiss]
    simp only []
    rw [Edit.bind_eq (aim_eq f n none), hat]
    rfl
  | some t =>
    simp only []
    rw [Edit.bind_eq (Edit.require_eq (by rw [hat]; simpa using hT t rfl) _ _), if_neg hmiss,
      Edit.bind_eq (aim_eq f n (some t)), hat]
    rfl

theorem rebind_of_eq (hi : f.incoming.get? n = some i) (he : i.target = T)
    (hT : ∀ t, T = some t → (f.timelineAt t).var = (f.timelineAt i.owner).var) :
    Edit.rebind n T f = .ok false f := by
  have hat := incomingAt_of_get? hi
  have hhit : (f.incomingAt n).target = T := by rwa [hat]
  rw [Edit.rebind, Edit.bind_eq Edit.get_eq]
  cases T with
  | none =>
    rw [if_pos hhit]
    rfl
  | some t =>
    simp only []
    rw [Edit.bind_eq (Edit.require_eq (by rw [hat]; simpa using hT t rfl) _ _), if_pos hhit]
    rfl

theorem get?_rebound (hi : f.incoming.get? n = some i) (m : IncomingId) :
    (f.rebound n i T).incoming.get? m =
      if m = n then some { i with target := T } else f.incoming.get? m := by
  show (f.incoming.modify n _).get? m = _
  rw [Arena.get?_modify, hi]
  rfl

/-- A node stays listed where it is bound, and is listed once. -/
theorem mem_moveReferrer (h : f.Tables) (hi : f.incoming.get? n = some i) {t : TimelineId}
    {x : Timeline} (hx : f.timelines.get? t = some x) {m : IncomingId} :
    m ∈ (moveReferrer n i.target T t x).referrers ↔
      (m = n ∧ T = some t) ∨ (m ≠ n ∧ m ∈ x.referrers) := by
  have hn : n ∈ x.referrers → i.target = some t := by
    intro hm
    obtain ⟨j, hj, ht⟩ := h.referrer hx hm
    rw [hi, Option.some.injEq] at hj
    rw [hj, ht]
  have hfirst : m ∈ (if i.target = some t then x.referrers.erase n else x.referrers) ↔
      m ≠ n ∧ m ∈ x.referrers := by
    split
    · rw [(h.referrers_nodup hx).mem_erase_iff]
    · next ho =>
      refine ⟨fun hm => ⟨fun e => ho (hn (e ▸ hm)), hm⟩, fun hm => hm.2⟩
  rw [moveReferrer]
  simp only [List.mem_append, hfirst]
  by_cases hT : T = some t
  · simp [hT, or_comm]
  · simp [hT]

theorem nodup_moveReferrer (h : f.Tables) (hi : f.incoming.get? n = some i) {t : TimelineId}
    {x : Timeline} (hx : f.timelines.get? t = some x) :
    (moveReferrer n i.target T t x).referrers.Nodup := by
  have hmem := @mem_moveReferrer f n i none h hi t x hx n
  simp only [moveReferrer, reduceCtorEq, if_false, List.append_nil, and_false, ne_eq,
    not_true_eq_false, false_and, or_self, iff_false] at hmem
  simp only [moveReferrer]
  have hfirst : (if i.target = some t then x.referrers.erase n else x.referrers).Nodup := by
    split
    · exact (h.referrers_nodup hx).erase n
    · exact h.referrers_nodup hx
  exact nodup_append_ite _ hfirst hmem

theorem rebound_tables (h : f.Tables) (hi : f.incoming.get? n = some i) (hne : i.target ≠ T)
    (hT : ∀ t, T = some t → ∃ x, f.timelines.get? t = some x ∧
      x.var = (f.timelineAt i.owner).var) : (f.rebound n i T).Tables := by
  have R := rewired_rebound (f := f) (n := n) hne
  exact {
    placed := R.placed h
    listed := R.listed h
    sorted := R.sorted h
    owner := fun {t y m} hy hm => by
      obtain ⟨x, hx, rfl⟩ := R.exists_of_get hy
      obtain ⟨j, hj, ho⟩ := h.owner hx hm
      rw [get?_rebound hi]
      by_cases hmn : m = n
      · rw [hmn, hi, Option.some.injEq] at hj
        exact ⟨_, if_pos hmn, hj ▸ ho⟩
      · exact ⟨j, by rw [if_neg hmn, hj], ho⟩
    node := fun {m j} hj => by
      rw [get?_rebound hi] at hj
      by_cases hmn : m = n
      · rw [if_pos hmn, Option.some.injEq] at hj
        subst hj
        obtain ⟨x, hx, hm⟩ := h.node hi
        exact ⟨_, R.get_of_get hx, show m ∈ x.incoming from hmn ▸ hm⟩
      · rw [if_neg hmn] at hj
        obtain ⟨x, hx, hm⟩ := h.node hj
        exact ⟨_, R.get_of_get hx, hm⟩
    nodes_nodup := fun {t y} hy => by
      obtain ⟨x, hx, rfl⟩ := R.exists_of_get hy
      exact (h.nodes_nodup hx : x.incoming.Nodup)
    target := fun {m j t} hj ht => by
      rw [get?_rebound hi] at hj
      by_cases hmn : m = n
      · rw [if_pos hmn, Option.some.injEq] at hj
        subst hj
        obtain ⟨x, hx, hv⟩ := hT t ht
        exact ⟨_, R.get_of_get hx, (mem_moveReferrer h hi hx).mpr (Or.inl ⟨hmn, ht⟩),
          hv.trans (R.var_at _).symm⟩
      · rw [if_neg hmn] at hj
        obtain ⟨x, hx, hm, hv⟩ := h.target hj ht
        exact ⟨_, R.get_of_get hx, (mem_moveReferrer h hi hx).mpr (Or.inr ⟨hmn, hm⟩),
          hv.trans (R.var_at _).symm⟩
    referrer := fun {t y m} hy hm => by
      obtain ⟨x, hx, rfl⟩ := R.exists_of_get hy
      rw [get?_rebound hi]
      rcases (mem_moveReferrer h hi hx).mp hm with ⟨hmn, ht⟩ | ⟨hmn, hm⟩
      · exact ⟨_, if_pos hmn, ht⟩
      · obtain ⟨j, hj, ht⟩ := h.referrer hx hm
        exact ⟨j, by rw [if_neg hmn, hj], ht⟩
    referrers_nodup := fun {t y} hy => by
      obtain ⟨x, hx, rfl⟩ := R.exists_of_get hy
      exact nodup_moveReferrer h hi hx }

/-- The store of nodes and what timelines say of them are all that changes. -/
theorem keeps_of_stores {f f' : Func} (h : f' = { f with
    timelines := f'.timelines, incoming := f'.incoming, memo := f'.memo }) : Keeps f f' := by
  rw [h]
  exact ⟨⟨rfl, rfl, rfl, rfl, rfl, rfl, fun _ => rfl⟩, rfl, rfl, rfl, rfl, rfl, fun _ => rfl,
    fun _ => rfl, fun _ => rfl⟩

theorem rebind_ok (h : f.Tables) (hi : f.incoming.get? n = some i)
    (hT : ∀ t, T = some t → ∃ x, f.timelines.get? t = some x ∧
      x.var = (f.timelineAt i.owner).var) :
    ∃ c f', Edit.rebind n T f = .ok c f' ∧ f'.Tables ∧ Binds n { i with target := T } f f' := by
  have hvar : ∀ t, T = some t → (f.timelineAt t).var = (f.timelineAt i.owner).var := by
    intro t ht
    obtain ⟨x, hx, hv⟩ := hT t ht
    rw [timelineAt_of_get? hx, hv]
  by_cases hne : i.target = T
  · refine ⟨false, f, rebind_of_eq hi hne hvar, h, .refl f, ⟨fun _ _ => rfl, fun _ _ => rfl,
      fun _ _ => rfl⟩, fun _ _ => rfl, fun m => ?_, rfl, fun _ => rfl, Or.inl rfl⟩
    by_cases hm : m = n
    · rw [if_pos hm, hm, hi, ← hne]
    · rw [if_neg hm]
  · have R := rewired_rebound (f := f) (n := n) hne
    refine ⟨true, _, rebind_of_ne hi hne hvar, rebound_tables h hi hne hT, keeps_of_stores rfl,
      R.sameLists, fun c w => ?_, get?_rebound hi, Arena.size_modify _ _ _, fun t => ?_, Or.inr rfl⟩
    · rw [R.joinNodes h, joinNodes]
      cases hc : f.timelineId? c w with
      | none => rw [timeline?, hc]; rfl
      | some t => rw [h.timeline?_eq hc]; rfl
    · rw [R.get, Option.isSome_map]

end

/-! ## Linking a predecessor -/

structure Links (t : TimelineId) (b : NodeId) (v : VarId) (n : IncomingId) (i : Incoming)
    (f f' : Func) : Prop where
  keeps : Keeps f f'
  same : SameLists f f'
  joinNodes : ∀ c w, f'.joinNodes c w =
    if c = b ∧ w = v then f.joinNodes c w ++ [n] else f.joinNodes c w
  fresh : n = f.incoming.next
  get : ∀ m, f'.incoming.get? m = if m = n then some i else f.incoming.get? m
  size : f'.incoming.size = f.incoming.size + 1
  live : ∀ t, (f'.timelines.get? t).isSome = (f.timelines.get? t).isSome
  memo : f'.memo = []

theorem Links.feeds {t : TimelineId} {b : NodeId} {v : VarId} {n : IncomingId} {i : Incoming}
    {f f' : Func} (h : Links t b v n i f f') (ht : f.Tables) (c : NodeId) (w : VarId) :
    f'.feeds c w =
      if c = b ∧ w = v then f.feeds c w ++ [(i.pred, i.target)] else f.feeds c w := by
  have hold : ∀ m ∈ f.joinNodes c w, f'.incomingAt m = f.incomingAt m := by
    intro m hm
    obtain ⟨_, j, _, hj, _⟩ := ht.get?_of_mem hm
    have hne : m ≠ n := h.fresh ▸ Arena.ne_next_of_get? _ hj
    rw [incomingAt, incomingAt, h.get, if_neg hne]
  have hmap : ((f.joinNodes c w).map fun m => ((f'.incomingAt m).pred, (f'.incomingAt m).target)) =
      f.feeds c w :=
    List.map_congr_left fun m hm => by rw [hold m hm]
  have hnew : f'.incomingAt n = i := by
    rw [incomingAt, h.get, if_pos rfl, Option.getD_some]
  rw [Func.feeds, h.joinNodes]
  split
  · rw [List.map_append, hmap, List.map_singleton, hnew]
  · exact hmap

/-- A function with a node more, which the timeline `t` lists. -/
def Func.linked (f : Func) (t : TimelineId) (pred : NodeId) (T : Option TimelineId) : Func :=
  let n := f.incoming.next
  let bound := match T with
    | some u => f.timelines.modify u fun x => { x with referrers := x.referrers ++ [n] }
    | none => f.timelines
  { f with
    timelines := bound.modify t fun x => { x with incoming := x.incoming ++ [n] }
    incoming := match T with
      | some u => (f.incoming.push ⟨t, pred, none⟩).modify n fun x => { x with target := some u }
      | none => f.incoming.push ⟨t, pred, none⟩
    memo := [] }

def addNode (t : TimelineId) (n : IncomingId) (T : Option TimelineId) (u : TimelineId)
    (x : Timeline) : Timeline :=
  { x with
    incoming := x.incoming ++ if t = u then [n] else []
    referrers := x.referrers ++ if T = some u then [n] else [] }

section

variable {f : Func} {t : TimelineId} {p : NodeId} {T : Option TimelineId}

theorem rewired_linked : Rewired f (f.linked t p T) (addNode t f.incoming.next T) where
  nodes := rfl
  get u := by
    cases T with
    | none =>
      simp only [linked, Arena.get?_modify_map]
      congr 1
      funext x
      by_cases hu : t = u <;> simp [addNode, hu]
    | some w =>
      simp only [linked, Arena.get?_modify_map, Option.map_map]
      congr 1
      funext x
      by_cases hu : t = u <;> by_cases hw : w = u <;> simp [addNode, hu, hw]
  block _ _ := rfl
  var _ _ := rfl
  locals _ _ := rfl
  waiting _ _ := rfl

theorem get?_linked (m : IncomingId) : (f.linked t p T).incoming.get? m =
    if m = f.incoming.next then some ⟨t, p, T⟩ else f.incoming.get? m := by
  cases T with
  | none => exact Arena.get?_push _ _ _
  | some w =>
    show ((f.incoming.push ⟨t, p, none⟩).modify f.incoming.next _).get? m = _
    rw [Arena.get?_modify, Arena.get?_push, Arena.get?_push, if_pos rfl]
    split <;> rfl

theorem linkIncoming_eq {x : Timeline} (hx : f.timelines.get? t = some x)
    (hnew : ∀ n ∈ x.incoming, (f.incomingAt n).pred ≠ p)
    (hT : ∀ u, T = some u → (f.timelineAt u).var = x.var) :
    Edit.linkIncoming t p T f = .ok f.incoming.next (f.linked t p T) := by
  have hnone : f.incomingFrom? t p = none := by
    rw [incomingFrom?, timelineAt_of_get? hx, List.find?_eq_none]
    intro n hn
    simpa using hnew n hn
  let f₁ : Func := { f with incoming := f.incoming.push ⟨t, p, none⟩ }
  have hi : f₁.incoming.get? f.incoming.next = some ⟨t, p, none⟩ := by
    show (f.incoming.push _).get? _ = _
    rw [Arena.get?_push, if_pos rfl]
  have hvar : ∀ u, T = some u → (f₁.timelineAt u).var = (f₁.timelineAt t).var := by
    intro u hu
    rw [show f₁.timelineAt u = f.timelineAt u from rfl, hT u hu,
      show f₁.timelineAt t = f.timelineAt t from rfl, timelineAt_of_get? hx]
  rw [Edit.linkIncoming, Edit.linkBound]
  simp only [bind_assoc]
  rw [Edit.bind_eq Edit.get_eq, hnone]
  simp only [bind_assoc, pure_bind]
  rw [Edit.bind_eq Edit.get_eq]
  change (Edit.rebind f.incoming.next T >>= _ : Edit IncomingId) f₁ = _
  cases T with
  | none =>
    rw [Edit.bind_eq (rebind_of_eq hi rfl hvar)]
    rfl
  | some u =>
    rw [Edit.bind_eq (rebind_of_ne hi (by simp) hvar)]
    rfl

/-- No timeline knows the number of a node that has not been made. -/
theorem Func.Tables.next_not_mem_incoming (h : f.Tables) {x : Timeline}
    (hx : f.timelines.get? t = some x) : f.incoming.next ∉ x.incoming := by
  intro hm
  obtain ⟨i, hi, _⟩ := h.owner hx hm
  exact Arena.ne_next_of_get? _ hi rfl

theorem Func.Tables.next_not_mem_referrers (h : f.Tables) {x : Timeline}
    (hx : f.timelines.get? t = some x) : f.incoming.next ∉ x.referrers := by
  intro hm
  obtain ⟨i, hi, _⟩ := h.referrer hx hm
  exact Arena.ne_next_of_get? _ hi rfl

theorem linked_tables (h : f.Tables) {x : Timeline} (hx : f.timelines.get? t = some x)
    (hT : ∀ u, T = some u → ∃ y, f.timelines.get? u = some y ∧ y.var = x.var) :
    (f.linked t p T).Tables := by
  have R := rewired_linked (f := f) (t := t) (p := p) (T := T)
  have old : ∀ {n i}, f.incoming.get? n = some i →
      n ≠ f.incoming.next ∧ (f.linked t p T).incoming.get? n = some i := by
    intro n i hn
    have hne := Arena.ne_next_of_get? _ hn
    exact ⟨hne, by rw [get?_linked, if_neg hne, hn]⟩
  have new : (f.linked t p T).incoming.get? f.incoming.next = some ⟨t, p, T⟩ := by
    rw [get?_linked, if_pos rfl]
  have var_owner : ((f.linked t p T).timelineAt t).var = x.var := by
    rw [R.var_at, timelineAt_of_get? hx]
  exact {
    placed := R.placed h
    listed := R.listed h
    sorted := R.sorted h
    owner := fun {u y n} hy hn => by
      obtain ⟨z, hz, rfl⟩ := R.exists_of_get hy
      rcases List.mem_append.mp hn with hn | hn
      · obtain ⟨i, hi, ho⟩ := h.owner hz hn
        exact ⟨i, (old hi).2, ho⟩
      · split at hn
        · next htu =>
          rw [List.mem_singleton] at hn
          exact ⟨_, hn ▸ new, htu⟩
        · cases hn
    node := fun {n i} hi => by
      rw [get?_linked] at hi
      by_cases hn : n = f.incoming.next
      · rw [if_pos hn, Option.some.injEq] at hi
        subst hi
        exact ⟨_, R.get_of_get hx, by simp [addNode, hn]⟩
      · rw [if_neg hn] at hi
        obtain ⟨z, hz, hm⟩ := h.node hi
        exact ⟨_, R.get_of_get hz, List.mem_append_left _ hm⟩
    nodes_nodup := fun {u y} hy => by
      obtain ⟨z, hz, rfl⟩ := R.exists_of_get hy
      exact nodup_append_ite _ (h.nodes_nodup hz) (h.next_not_mem_incoming hz)
    target := fun {n i u} hi hu => by
      rw [get?_linked] at hi
      by_cases hn : n = f.incoming.next
      · rw [if_pos hn, Option.some.injEq] at hi
        subst hi
        obtain ⟨y, hy, hv⟩ := hT u hu
        refine ⟨_, R.get_of_get hy, ?_, hv.trans var_owner.symm⟩
        simp [addNode, hn, show T = some u from hu]
      · rw [if_neg hn] at hi
        obtain ⟨y, hy, hm, hv⟩ := h.target hi hu
        exact ⟨_, R.get_of_get hy, List.mem_append_left _ hm, hv.trans (R.var_at _).symm⟩
    referrer := fun {u y n} hy hn => by
      obtain ⟨z, hz, rfl⟩ := R.exists_of_get hy
      rcases List.mem_append.mp hn with hn | hn
      · obtain ⟨i, hi, ht⟩ := h.referrer hz hn
        exact ⟨i, (old hi).2, ht⟩
      · split at hn
        · next hTu =>
          rw [List.mem_singleton] at hn
          exact ⟨_, hn ▸ new, hTu⟩
        · cases hn
    referrers_nodup := fun {u y} hy => by
      obtain ⟨z, hz, rfl⟩ := R.exists_of_get hy
      exact nodup_append_ite _ (h.referrers_nodup hz) (h.next_not_mem_referrers hz) }

theorem linkIncoming_ok (h : f.Tables) {b : NodeId} {v : VarId}
    (hid : f.timelineId? b v = some t)
    (hnew : ∀ n ∈ f.joinNodes b v, (f.incomingAt n).pred ≠ p)
    (hT : ∀ u, T = some u → ∃ y, f.timelines.get? u = some y ∧ y.var = v) :
    ∃ n f', Edit.linkIncoming t p T f = .ok n f' ∧ f'.Tables ∧
      Links t b v n ⟨t, p, T⟩ f f' := by
  obtain ⟨x, hx, hb, hv⟩ := h.placed hid
  rw [h.joinNodes_eq hid, timelineAt_of_get? hx] at hnew
  have hT' : ∀ u, T = some u → ∃ y, f.timelines.get? u = some y ∧ y.var = x.var :=
    fun u hu => hv ▸ hT u hu
  have R := rewired_linked (f := f) (t := t) (p := p) (T := T)
  refine ⟨_, _, linkIncoming_eq hx hnew fun u hu => ?_, linked_tables h hx hT',
    keeps_of_stores rfl, R.sameLists, fun c w => ?_, rfl, get?_linked, ?_, fun u => ?_, rfl⟩
  · obtain ⟨y, hy, hyv⟩ := hT' u hu
    rw [timelineAt_of_get? hy, hyv]
  · rw [R.joinNodes h]
    by_cases hc : c = b ∧ w = v
    · rw [if_pos hc, hc.1, hc.2, hid, h.joinNodes_eq hid]
      simp [addNode]
    · rw [if_neg hc]
      cases hu : f.timelineId? c w with
      | none => rw [joinNodes_of_none hu]
      | some u =>
        have hne : t ≠ u := by
          rintro rfl
          exact hc (h.eq_of_timelineId? hid hu)
        rw [h.joinNodes_eq hu]
        simp [addNode, hne]
  · cases T with
    | none => exact Arena.size_push _ _
    | some w =>
      show ((f.incoming.push _).modify _ _).size = _
      rw [Arena.size_modify, Arena.size_push]
  · rw [R.get, Option.isSome_map]

end

end DefFlow.Flow
