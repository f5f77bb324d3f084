import DefFlow.Proofs.Lists
import DefFlow.Proofs.State.Run

/-!
# Timelines and incoming nodes

The timelines that the blocks list, the nodes that the timelines list and the
timelines that the nodes are bound to fit together. A function is seen through four
tables: which timeline a block has for a variable, which definitions it makes, which
nodes it has, and what a node says.
-/

set_option autoImplicit false

namespace DefFlow.Flow

def Timeline.links (x : Timeline) : NodeId × VarId × List IncomingId × List IncomingId :=
  (x.block, x.var, x.incoming, x.referrers)

theorem Timeline.links_inj {x y : Timeline} (h : y.links = x.links) :
    y.block = x.block ∧ y.var = x.var ∧ y.incoming = x.incoming ∧ y.referrers = x.referrers := by
  simpa only [Timeline.links, Prod.mk.injEq] using h

namespace Func

def held (f : Func) (b : NodeId) (v : VarId) : List Local :=
  match f.timeline? b v with
  | some t => t.locals
  | none => []

def locals (f : Func) (b : NodeId) (v : VarId) : List InstId :=
  match f.timeline? b v with
  | some t => t.locals.map Local.inst
  | none => []

theorem latestDefBefore?_eq_held (f : Func) (b : NodeId) (n : Nat) (v : VarId) :
    f.latestDefBefore? b n v = f.lastBefore (f.held b v) n := by
  rw [latestDefBefore?, held]
  cases f.timeline? b v <;> rfl

theorem locals_eq_held (f : Func) (b : NodeId) (v : VarId) :
    f.locals b v = (f.held b v).map Local.inst := by
  rw [locals, held]
  cases f.timeline? b v <;> rfl

theorem locals_of_held {f f' : Func} {b : NodeId} {v : VarId} (h : f'.held b v = f.held b v) :
    f'.locals b v = f.locals b v := by
  rw [locals_eq_held, locals_eq_held, h]

def waiting (f : Func) (b : NodeId) (v : VarId) : List UseSite :=
  match f.timeline? b v with
  | some t => t.waiting
  | none => []

theorem held_elim (f : Func) (b : NodeId) (v : VarId) :
    f.held b v = (f.timeline? b v).elim [] Timeline.locals := by
  rw [held]
  cases f.timeline? b v <;> rfl

theorem locals_elim (f : Func) (b : NodeId) (v : VarId) :
    f.locals b v = (f.timeline? b v).elim [] fun t => t.locals.map Local.inst := by
  rw [locals]
  cases f.timeline? b v <;> rfl

theorem waiting_elim (f : Func) (b : NodeId) (v : VarId) :
    f.waiting b v = (f.timeline? b v).elim [] Timeline.waiting := by
  rw [waiting]
  cases f.timeline? b v <;> rfl

theorem joinNodes_elim (f : Func) (b : NodeId) (v : VarId) :
    f.joinNodes b v = (f.timeline? b v).elim [] Timeline.incoming := by
  rw [joinNodes]
  cases f.timeline? b v <;> rfl

structure Tables (f : Func) : Prop where
  placed : ∀ {b v t}, f.timelineId? b v = some t →
    ∃ x, f.timelines.get? t = some x ∧ x.block = b ∧ x.var = v
  listed : ∀ {t x}, f.timelines.get? t = some x → f.timelineId? x.block x.var = some t
  sorted : ∀ b, ((f.blockAt b).timelines.map Prod.fst).Pairwise (· < ·)
  owner : ∀ {t x n}, f.timelines.get? t = some x → n ∈ x.incoming →
    ∃ i, f.incoming.get? n = some i ∧ i.owner = t
  node : ∀ {n i}, f.incoming.get? n = some i →
    ∃ x, f.timelines.get? i.owner = some x ∧ n ∈ x.incoming
  nodes_nodup : ∀ {t x}, f.timelines.get? t = some x → x.incoming.Nodup
  target : ∀ {n i t}, f.incoming.get? n = some i → i.target = some t →
    ∃ x, f.timelines.get? t = some x ∧ n ∈ x.referrers ∧ x.var = (f.timelineAt i.owner).var
  referrer : ∀ {t x n}, f.timelines.get? t = some x → n ∈ x.referrers →
    ∃ i, f.incoming.get? n = some i ∧ i.target = some t
  referrers_nodup : ∀ {t x}, f.timelines.get? t = some x → x.referrers.Nodup

structure SameGraph (f f' : Func) : Prop where
  handle : f'.handle = f.handle
  body : f'.body = f.body
  bodyHeld : f'.bodyHeld = f.bodyHeld
  detached : f'.detached = f.detached
  frozen : f'.frozen = f.frozen
  size : f'.nodes.size = f.nodes.size
  stored : ∀ b, (f'.nodes.get? b).isSome = (f.nodes.get? b).isSome

namespace SameGraph

variable {f f' f'' : Func}

theorem refl (f : Func) : SameGraph f f := ⟨rfl, rfl, rfl, rfl, rfl, rfl, fun _ => rfl⟩

theorem trans (h : SameGraph f f') (h' : SameGraph f' f'') : SameGraph f f'' where
  handle := h'.handle.trans h.handle
  body := h'.body.trans h.body
  bodyHeld := h'.bodyHeld.trans h.bodyHeld
  detached := h'.detached.trans h.detached
  frozen := h'.frozen.trans h.frozen
  size := h'.size.trans h.size
  stored b := (h'.stored b).trans (h.stored b)

theorem symm (h : SameGraph f f') : SameGraph f' f where
  handle := h.handle.symm
  body := h.body.symm
  bodyHeld := h.bodyHeld.symm
  detached := h.detached.symm
  frozen := h.frozen.symm
  size := h.size.symm
  stored b := (h.stored b).symm

theorem trees (h : SameGraph f f') : f'.trees = f.trees := by
  rw [Func.trees, Func.trees, h.body, h.detached]

theorem blocks (h : SameGraph f f') : f'.blocks = f.blocks := by
  rw [Func.blocks, Func.blocks, h.body]

theorem preds (h : SameGraph f f') : f'.preds = f.preds := by
  funext b
  rw [Func.preds, Func.preds, h.trees]

theorem succs (h : SameGraph f f') : f'.succs = f.succs := by
  funext b
  rw [Func.succs, Func.succs, h.trees]

theorem hasParent (h : SameGraph f f') (b : NodeId) : f'.hasParent b = f.hasParent b := by
  rw [Func.hasParent, Func.hasParent, parent?, parent?, path, path, isBody, isBody, h.trees, h.body,
    h.bodyHeld]

end SameGraph

structure Keeps (f f' : Func) : Prop extends SameGraph f f' where
  name : f'.name = f.name
  vars : f'.vars = f.vars
  args : f'.args = f.args
  returns : f'.returns = f.returns
  insts : f'.insts = f.insts
  label : ∀ b, (f'.blockAt b).label = (f.blockAt b).label
  instructions : ∀ b, (f'.blockAt b).instructions = (f.blockAt b).instructions
  phiCount : ∀ b, (f'.blockAt b).phiCount = (f.blockAt b).phiCount

namespace Keeps

variable {f f' f'' : Func}

theorem refl (f : Func) : Keeps f f :=
  ⟨.refl f, rfl, rfl, rfl, rfl, rfl, fun _ => rfl, fun _ => rfl, fun _ => rfl⟩

theorem trans (h : Keeps f f') (h' : Keeps f' f'') : Keeps f f'' where
  toSameGraph := h.toSameGraph.trans h'.toSameGraph
  name := h'.name.trans h.name
  vars := h'.vars.trans h.vars
  args := h'.args.trans h.args
  returns := h'.returns.trans h.returns
  insts := h'.insts.trans h.insts
  label b := (h'.label b).trans (h.label b)
  instructions b := (h'.instructions b).trans (h.instructions b)
  phiCount b := (h'.phiCount b).trans (h.phiCount b)

theorem symm (h : Keeps f f') : Keeps f' f where
  toSameGraph := h.toSameGraph.symm
  name := h.name.symm
  vars := h.vars.symm
  args := h.args.symm
  returns := h.returns.symm
  insts := h.insts.symm
  label b := (h.label b).symm
  instructions b := (h.instructions b).symm
  phiCount b := (h.phiCount b).symm

theorem inst (h : Keeps f f') (i : InstId) : f'.inst i = f.inst i := by
  rw [Func.inst, Func.inst, h.insts]

theorem latestDefBefore? (h : Keeps f f') (hheld : ∀ b v, f'.held b v = f.held b v) (b : NodeId)
    (n : Nat) (v : VarId) : f'.latestDefBefore? b n v = f.latestDefBefore? b n v := by
  have hindex : f'.indexOf = f.indexOf := funext fun i => by rw [indexOf, indexOf, h.inst]
  rw [latestDefBefore?_eq_held, latestDefBefore?_eq_held, hheld, lastBefore, lastBefore, hindex]

end Keeps

variable {f : Func} {b : NodeId} {v : VarId} {t : TimelineId}

theorem timelineAt_of_get? {x : Timeline} (h : f.timelines.get? t = some x) :
    f.timelineAt t = x := by
  rw [timelineAt, h, Option.getD_some]

theorem incomingAt_of_get? {n : IncomingId} {i : Incoming} (h : f.incoming.get? n = some i) :
    f.incomingAt n = i := by
  rw [incomingAt, h, Option.getD_some]

namespace Tables

/-- A block lists at most one timeline for each variable. -/
theorem keys (h : f.Tables) (b : NodeId) : ((f.blockAt b).timelines.map Prod.fst).Nodup :=
  (h.sorted b).imp Nat.ne_of_lt

theorem timeline?_eq (h : f.Tables) (ht : f.timelineId? b v = some t) :
    f.timeline? b v = some (f.timelineAt t) := by
  obtain ⟨x, hx, _⟩ := h.placed ht
  rw [timeline?, ht, timelineAt_of_get? hx]
  exact hx

theorem locals_eq (h : f.Tables) (ht : f.timelineId? b v = some t) :
    f.locals b v = (f.timelineAt t).locals.map Local.inst := by
  rw [locals, h.timeline?_eq ht]

theorem joinNodes_eq (h : f.Tables) (ht : f.timelineId? b v = some t) :
    f.joinNodes b v = (f.timelineAt t).incoming := by
  rw [joinNodes, h.timeline?_eq ht]

theorem waiting_eq (h : f.Tables) (ht : f.timelineId? b v = some t) :
    f.waiting b v = (f.timelineAt t).waiting := by
  rw [waiting, h.timeline?_eq ht]

theorem block_eq (h : f.Tables) (ht : f.timelineId? b v = some t) :
    (f.timelineAt t).block = b := by
  obtain ⟨x, hx, hb, _⟩ := h.placed ht
  rw [timelineAt_of_get? hx, hb]

theorem var_eq (h : f.Tables) (ht : f.timelineId? b v = some t) : (f.timelineAt t).var = v := by
  obtain ⟨x, hx, _, hv⟩ := h.placed ht
  rw [timelineAt_of_get? hx, hv]

theorem eq_of_timelineId? (h : f.Tables) (hid : f.timelineId? b v = some t) {c : NodeId}
    {w : VarId} (hc : f.timelineId? c w = some t) : c = b ∧ w = v :=
  ⟨(h.block_eq hc).symm.trans (h.block_eq hid), (h.var_eq hc).symm.trans (h.var_eq hid)⟩

end Tables

/-- A block has no timeline for a variable that it does not list. -/
theorem timelineId?_of_not_mem (h : v ∉ (f.blockAt b).timelines.map Prod.fst) :
    f.timelineId? b v = none := by
  rw [timelineId?, List.lookup_eq_none_iff]
  intro e he
  have hne : v ≠ e.1 := fun hve => h (hve ▸ List.mem_map_of_mem he)
  simpa using hne

theorem stored_of_timelineId? (h : f.timelineId? b v = some t) : (f.nodes.get? b).isSome := by
  rw [timelineId?, blockAt] at h
  cases hb : f.nodes.get? b with
  | some x => rfl
  | none =>
    rw [hb] at h
    cases h

theorem locals_of_none (ht : f.timelineId? b v = none) : f.locals b v = [] := by
  rw [locals, timeline?, ht]
  rfl

theorem joinNodes_of_none (ht : f.timelineId? b v = none) : f.joinNodes b v = [] := by
  rw [joinNodes, timeline?, ht]
  rfl

theorem waiting_of_none (ht : f.timelineId? b v = none) : f.waiting b v = [] := by
  rw [waiting, timeline?, ht]
  rfl

/-- A timeline decides its value by its definitions and nodes. -/
theorem Tables.explicit?_eq (h : f.Tables) :
    f.explicit? b v =
      if f.locals b v = [] ∧ f.joinNodes b v = [] then none else f.timelineId? b v := by
  rw [explicit?]
  cases ht : f.timelineId? b v with
  | none => simp
  | some t =>
    rw [h.locals_eq ht, h.joinNodes_eq ht, Option.filter_some, Timeline.explicit, Timeline.isEmpty]
    cases hl : (f.timelineAt t).locals <;> cases hi : (f.timelineAt t).incoming <;> simp

theorem Tables.joined?_eq (h : f.Tables) :
    f.joined? b v = if f.joinNodes b v = [] then none else f.timelineId? b v := by
  rw [joined?]
  cases ht : f.timelineId? b v with
  | none => simp
  | some t =>
    rw [h.joinNodes_eq ht, Option.filter_some]
    cases hi : (f.timelineAt t).incoming <;> simp

/-- A block with the same definitions and nodes decides what it decided before. -/
theorem Tables.explicit?_congr {f' : Func} (h : f.Tables) (h' : f'.Tables)
    (hid : ∀ t, f.timelineId? b v = some t → f'.timelineId? b v = some t)
    (hl : f'.locals b v = f.locals b v) (hj : f'.joinNodes b v = f.joinNodes b v) :
    f'.explicit? b v = f.explicit? b v := by
  rw [h.explicit?_eq, h'.explicit?_eq, hl, hj]
  split
  · rfl
  · next hne =>
    cases ht : f.timelineId? b v with
    | some t => exact hid t ht
    | none => exact absurd ⟨locals_of_none ht, joinNodes_of_none ht⟩ hne

/-- A block that decides a variable goes on deciding it as long as it loses nothing. -/
theorem Tables.explicit?_mono {f' : Func} (h : f.Tables) (h' : f'.Tables)
    (hid : ∀ t, f.timelineId? b v = some t → f'.timelineId? b v = some t)
    (hl : f'.locals b v = [] → f.locals b v = [])
    (hj : f'.joinNodes b v = [] → f.joinNodes b v = []) (hb : f.explicit? b v = some t) :
    f'.explicit? b v = some t := by
  rw [h.explicit?_eq] at hb
  split at hb
  · cases hb
  · next hne => rw [h'.explicit?_eq, if_neg fun hn => hne ⟨hl hn.1, hj hn.2⟩, hid t hb]

def feeds (f : Func) (b : NodeId) (v : VarId) : List (NodeId × Option TimelineId) :=
  (f.joinNodes b v).map fun n => ((f.incomingAt n).pred, (f.incomingAt n).target)

theorem feeds_eq_nil_iff : f.feeds b v = [] ↔ f.joinNodes b v = [] := by
  rw [feeds, List.map_eq_nil_iff]

theorem Tables.get?_of_mem (h : f.Tables) {n : IncomingId} (hn : n ∈ f.joinNodes b v) :
    ∃ t i, f.timelineId? b v = some t ∧ f.incoming.get? n = some i ∧ i.owner = t := by
  cases ht : f.timelineId? b v with
  | none =>
    rw [joinNodes_of_none ht] at hn
    cases hn
  | some t =>
    obtain ⟨x, hx, _⟩ := h.placed ht
    rw [h.joinNodes_eq ht, timelineAt_of_get? hx] at hn
    obtain ⟨i, hi, ho⟩ := h.owner hx hn
    exact ⟨t, i, rfl, hi, ho⟩

theorem Tables.owner_live (ht : f.Tables) {n : IncomingId} {i : Incoming}
    (hi : f.incoming.get? n = some i) :
    (f.timelines.get? i.owner).isSome := by
  obtain ⟨x, hx, -⟩ := ht.node hi
  rw [hx]
  rfl

theorem Tables.listed_at (ht : f.Tables) (hx : (f.timelines.get? t).isSome) :
    f.timelineId? (f.timelineAt t).block (f.timelineAt t).var = some t := by
  obtain ⟨x, hx⟩ := Option.isSome_iff_exists.mp hx
  rw [timelineAt_of_get? hx]
  exact ht.listed hx

theorem Tables.mem_incoming (ht : f.Tables) {n : IncomingId} :
    n ∈ (f.timelineAt t).incoming ↔ ∃ i, f.incoming.get? n = some i ∧ i.owner = t := by
  constructor
  · intro hn
    cases hx : f.timelines.get? t with
    | none =>
      rw [timelineAt, hx] at hn
      cases hn
    | some x =>
      rw [timelineAt_of_get? hx] at hn
      exact ht.owner hx hn
  · rintro ⟨i, hi, rfl⟩
    obtain ⟨x, hx, hn⟩ := ht.node hi
    rw [timelineAt_of_get? hx]
    exact hn

theorem Tables.incoming_nodup (ht : f.Tables) (t : TimelineId) :
    (f.timelineAt t).incoming.Nodup := by
  cases hx : f.timelines.get? t with
  | none =>
    rw [timelineAt, hx]
    exact List.nodup_nil
  | some x =>
    rw [timelineAt_of_get? hx]
    exact ht.nodes_nodup hx

theorem Tables.mem_referrers (ht : f.Tables) {n : IncomingId} :
    n ∈ (f.timelineAt t).referrers ↔ ∃ i, f.incoming.get? n = some i ∧ i.target = some t := by
  constructor
  · intro hn
    cases hx : f.timelines.get? t with
    | none =>
      rw [timelineAt, hx] at hn
      cases hn
    | some x =>
      rw [timelineAt_of_get? hx] at hn
      exact ht.referrer hx hn
  · rintro ⟨i, hi, hit⟩
    obtain ⟨x, hx, hn, -⟩ := ht.target hi hit
    rw [timelineAt_of_get? hx]
    exact hn

theorem Tables.mem_referrers_of_target (ht : f.Tables) {n : IncomingId}
    (hn : n ∈ f.joinNodes b v) (hbound : (f.incomingAt n).target = some t) :
    n ∈ (f.timelineAt t).referrers := by
  obtain ⟨_, i, _, hi, _⟩ := ht.get?_of_mem hn
  rw [incomingAt_of_get? hi] at hbound
  exact ht.mem_referrers.mpr ⟨i, hi, hbound⟩

/-- What refers to the timeline of a variable are nodes of this variable. -/
theorem Tables.exists_of_mem_referrers (ht : f.Tables) (hid : f.timelineId? b v = some t)
    {n : IncomingId} (hn : n ∈ (f.timelineAt t).referrers) :
    ∃ c, n ∈ f.joinNodes c v ∧ (f.incomingAt n).target = some t := by
  obtain ⟨i, hi, hit⟩ := ht.mem_referrers.mp hn
  obtain ⟨x, hx, hm⟩ := ht.node hi
  obtain ⟨y, hy, _, hv⟩ := ht.target hi hit
  have hvar : x.var = v := by
    rw [← ht.var_eq hid, timelineAt_of_get? hy, hv, timelineAt_of_get? hx]
  refine ⟨x.block, ?_, by rw [incomingAt_of_get? hi, hit]⟩
  rw [ht.joinNodes_eq (hvar ▸ ht.listed hx), timelineAt_of_get? hx]
  exact hm

theorem Tables.joinNodes_of_no_nodes (h : f.Tables) (hn : ∀ n, f.incoming.get? n = none)
    (b : NodeId) (v : VarId) : f.joinNodes b v = [] := by
  refine List.eq_nil_iff_forall_not_mem.mpr fun n hm => ?_
  obtain ⟨_, i, _, hi, _⟩ := h.get?_of_mem hm
  rw [hn n] at hi
  cases hi

structure SameLinks (f f' : Func) : Prop where
  listed : ∀ b, (f'.blockAt b).timelines = (f.blockAt b).timelines
  links : ∀ t, (f'.timelines.get? t).map Timeline.links = (f.timelines.get? t).map Timeline.links
  incoming : f'.incoming = f.incoming

namespace SameLinks

variable {f' f'' : Func}

theorem symm (h : SameLinks f f') : SameLinks f' f :=
  ⟨fun b => (h.listed b).symm, fun t => (h.links t).symm, h.incoming.symm⟩

theorem trans (h : SameLinks f f') (h' : SameLinks f' f'') : SameLinks f f'' :=
  ⟨fun b => (h'.listed b).trans (h.listed b), fun t => (h'.links t).trans (h.links t),
    h'.incoming.trans h.incoming⟩

theorem timelineId? (h : SameLinks f f') (b : NodeId) (v : VarId) :
    f'.timelineId? b v = f.timelineId? b v := by
  rw [Func.timelineId?, Func.timelineId?, h.listed]

theorem get (h : SameLinks f f') {x : Timeline} (hx : f.timelines.get? t = some x) :
    ∃ y, f'.timelines.get? t = some y ∧ y.links = x.links := by
  have hl := h.links t
  rw [hx, Option.map_some] at hl
  exact Option.map_eq_some_iff.mp hl

theorem links_at (h : SameLinks f f') (t : TimelineId) :
    (f'.timelineAt t).links = (f.timelineAt t).links := by
  rw [timelineAt, timelineAt]
  cases hx : f.timelines.get? t with
  | none =>
    have hl := h.links t
    rw [hx, Option.map_none, Option.map_eq_none_iff] at hl
    rw [hl]
  | some x =>
    obtain ⟨y, hy, hyx⟩ := h.get hx
    rw [hy]
    exact hyx

theorem joinNodes (h : SameLinks f f') (b : NodeId) (v : VarId) :
    f'.joinNodes b v = f.joinNodes b v := by
  rw [Func.joinNodes, Func.joinNodes, timeline?, timeline?, h.timelineId?]
  cases f.timelineId? b v with
  | none => rfl
  | some t =>
    rw [Option.bind_some, Option.bind_some]
    cases hx : f.timelines.get? t with
    | none =>
      have hl := h.links t
      rw [hx, Option.map_none, Option.map_eq_none_iff] at hl
      rw [hl]
    | some x =>
      obtain ⟨y, hy, hyx⟩ := h.get hx
      rw [hy]
      exact (Timeline.links_inj hyx).2.2.1

theorem feeds (h : SameLinks f f') (b : NodeId) (v : VarId) : f'.feeds b v = f.feeds b v := by
  simp only [Func.feeds, h.joinNodes, incomingAt, h.incoming]

theorem tables (h : SameLinks f f') (ht : f.Tables) : f'.Tables where
  placed := fun {b v t} hid => by
    obtain ⟨x, hx, hb, hv⟩ := ht.placed (h.timelineId? b v ▸ hid)
    obtain ⟨y, hy, hyx⟩ := h.get hx
    obtain ⟨hyb, hyv, _⟩ := Timeline.links_inj hyx
    exact ⟨y, hy, hyb.trans hb, hyv.trans hv⟩
  listed := fun {t y} hy => by
    obtain ⟨x, hx, hxy⟩ := h.symm.get hy
    obtain ⟨hb, hv, _⟩ := Timeline.links_inj hxy
    rw [h.timelineId?, ← hb, ← hv]
    exact ht.listed hx
  sorted b := by
    rw [h.listed]
    exact ht.sorted b
  owner := fun {t y n} hy hn => by
    obtain ⟨x, hx, hxy⟩ := h.symm.get hy
    rw [h.incoming]
    exact ht.owner hx ((Timeline.links_inj hxy).2.2.1 ▸ hn)
  node := fun {n i} hi => by
    obtain ⟨x, hx, hn⟩ := ht.node (h.incoming ▸ hi)
    obtain ⟨y, hy, hyx⟩ := h.get hx
    exact ⟨y, hy, (Timeline.links_inj hyx).2.2.1 ▸ hn⟩
  nodes_nodup := fun {t y} hy => by
    obtain ⟨x, hx, hxy⟩ := h.symm.get hy
    exact (Timeline.links_inj hxy).2.2.1 ▸ ht.nodes_nodup hx
  target := fun {n i t} hi hit => by
    obtain ⟨x, hx, hn, hv⟩ := ht.target (h.incoming ▸ hi) hit
    obtain ⟨y, hy, hyx⟩ := h.get hx
    obtain ⟨_, hyv, _, hyr⟩ := Timeline.links_inj hyx
    have ho := (Timeline.links_inj (h.links_at i.owner)).2.1
    exact ⟨y, hy, hyr ▸ hn, by rw [hyv, hv, ho]⟩
  referrer := fun {t y n} hy hn => by
    obtain ⟨x, hx, hxy⟩ := h.symm.get hy
    rw [h.incoming]
    exact ht.referrer hx ((Timeline.links_inj hxy).2.2.2 ▸ hn)
  referrers_nodup := fun {t y} hy => by
    obtain ⟨x, hx, hxy⟩ := h.symm.get hy
    exact (Timeline.links_inj hxy).2.2.2 ▸ ht.referrers_nodup hx

end SameLinks

structure SameLists (f f' : Func) : Prop where
  id : ∀ b v, f'.timelineId? b v = f.timelineId? b v
  held : ∀ b v, f'.held b v = f.held b v
  waiting : ∀ b v, f'.waiting b v = f.waiting b v

theorem SameLists.locals {f' : Func} (h : SameLists f f') (b : NodeId) (v : VarId) :
    f'.locals b v = f.locals b v := locals_of_held (h.held b v)

structure Rewired (f f' : Func) (g : TimelineId → Timeline → Timeline) : Prop where
  nodes : f'.nodes = f.nodes
  get : ∀ t, f'.timelines.get? t = (f.timelines.get? t).map (g t)
  block : ∀ t x, (g t x).block = x.block
  var : ∀ t x, (g t x).var = x.var
  locals : ∀ t x, (g t x).locals = x.locals
  waiting : ∀ t x, (g t x).waiting = x.waiting

namespace Rewired

variable {f' : Func} {g : TimelineId → Timeline → Timeline}

theorem id (h : Rewired f f' g) (b : NodeId) (v : VarId) :
    f'.timelineId? b v = f.timelineId? b v := by
  rw [timelineId?, timelineId?, blockAt, blockAt, h.nodes]

theorem timeline? (h : Rewired f f' g) (b : NodeId) (v : VarId) :
    f'.timeline? b v = (f.timelineId? b v).bind fun t => (f.timelines.get? t).map (g t) := by
  rw [Func.timeline?, h.id]
  cases f.timelineId? b v with
  | none => rfl
  | some t => exact h.get t

theorem sameLists (h : Rewired f f' g) : SameLists f f' where
  id := h.id
  held b v := by
    rw [Func.held, Func.held, h.timeline?, Func.timeline?]
    cases f.timelineId? b v with
    | none => rfl
    | some t =>
      simp only [Option.bind_some]
      cases f.timelines.get? t with
      | none => rfl
      | some x => exact h.locals t x
  waiting b v := by
    rw [Func.waiting, Func.waiting, h.timeline?, Func.timeline?]
    cases f.timelineId? b v with
    | none => rfl
    | some t =>
      simp only [Option.bind_some]
      cases f.timelines.get? t with
      | none => rfl
      | some x => simp [h.waiting]

theorem joinNodes (h : Rewired f f' g) (ht : f.Tables) (b : NodeId) (v : VarId) :
    f'.joinNodes b v =
      match f.timelineId? b v with
      | some t => (g t (f.timelineAt t)).incoming
      | none => [] := by
  rw [Func.joinNodes, h.timeline?]
  cases hid : f.timelineId? b v with
  | none => rfl
  | some t =>
    obtain ⟨x, hx, _⟩ := ht.placed hid
    simp only [Option.bind_some, hx, Option.map_some, timelineAt_of_get? hx]

theorem exists_of_get (h : Rewired f f' g) {t : TimelineId} {y : Timeline}
    (hy : f'.timelines.get? t = some y) : ∃ x, f.timelines.get? t = some x ∧ y = g t x := by
  rw [h.get, Option.map_eq_some_iff] at hy
  obtain ⟨x, hx, rfl⟩ := hy
  exact ⟨x, hx, rfl⟩

theorem get_of_get (h : Rewired f f' g) {t : TimelineId} {x : Timeline}
    (hx : f.timelines.get? t = some x) : f'.timelines.get? t = some (g t x) := by
  rw [h.get, hx, Option.map_some]

theorem var_at (h : Rewired f f' g) (t : TimelineId) :
    (f'.timelineAt t).var = (f.timelineAt t).var := by
  rw [timelineAt, timelineAt, h.get]
  cases f.timelines.get? t with
  | none => rfl
  | some x => exact h.var t x

theorem placed (h : Rewired f f' g) (ht : f.Tables) {b : NodeId} {v : VarId} {t : TimelineId}
    (hid : f'.timelineId? b v = some t) :
    ∃ x, f'.timelines.get? t = some x ∧ x.block = b ∧ x.var = v := by
  rw [h.id] at hid
  obtain ⟨x, hx, hb, hv⟩ := ht.placed hid
  exact ⟨g t x, h.get_of_get hx, (h.block t x).trans hb, (h.var t x).trans hv⟩

theorem listed (h : Rewired f f' g) (ht : f.Tables) {t : TimelineId} {y : Timeline}
    (hy : f'.timelines.get? t = some y) : f'.timelineId? y.block y.var = some t := by
  obtain ⟨x, hx, rfl⟩ := h.exists_of_get hy
  rw [h.id, h.block, h.var]
  exact ht.listed hx

theorem sorted (h : Rewired f f' g) (ht : f.Tables) (b : NodeId) :
    ((f'.blockAt b).timelines.map Prod.fst).Pairwise (· < ·) := by
  rw [blockAt, h.nodes]
  exact ht.sorted b

end Rewired

end Func
end DefFlow.Flow
