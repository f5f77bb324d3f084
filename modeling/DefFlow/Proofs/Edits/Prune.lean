import DefFlow.Proofs.Edits.Firm

/-!
# Pruning

Where blocks or edges have been removed, nodes are left whose edge is gone. A pruning takes them
all away first; then it binds anew what is bound to the timelines that lost their last node by
that. It is refused only where such a timeline belongs to a block without a parent.
-/

set_option autoImplicit false

namespace DefFlow.Flow

open Func Component

namespace Func

def stale (f : Func) (n : IncomingId) : Bool :=
  !(f.preds (f.timelineAt (f.incomingAt n).owner).block).contains (f.incomingAt n).pred

def staleOf (f : Func) (t : TimelineId) : List IncomingId :=
  (f.timelineAt t).incoming.filter f.stale

def emptied (f : Func) (t : TimelineId) : Bool :=
  !(f.timelineAt t).incoming.isEmpty && (f.timelineAt t).locals.isEmpty &&
    (f.timelineAt t).incoming.all f.stale

def joinedTimelines (f : Func) : List TimelineId :=
  f.timelines.live.filter fun t => !(f.timelineAt t).incoming.isEmpty

/-- A node that stays is bound to an emptied timeline of a block without a parent. -/
def Stranded (f : Func) : Prop :=
  ∃ t, f.emptied t = true ∧ f.hasParent (f.timelineAt t).block = false ∧
    ∃ n i, f.incoming.get? n = some i ∧ i.target = some t ∧ f.stale n = false

/-- The nodes whose edges are gone have been removed and no other; every node stands for an edge,
and none is loose that was not so before. -/
structure Repaired (f f' : Func) : Prop where
  removed : ∀ {n i}, f.incoming.get? n = some i → f.stale n = true → f'.incoming.get? n = none
  stays : ∀ {n i}, f.incoming.get? n = some i → f.stale n = false →
    ∃ j, f'.incoming.get? n = some j ∧ j.owner = i.owner ∧ j.pred = i.pred
  edge : ∀ {n i}, f'.incoming.get? n = some i → i.pred ∈ f'.preds (f'.timelineAt i.owner).block
  loose : ∀ {n t}, f'.Loose n t → f.Loose n t

/-- The trees and the timelines are the same, and `count` nodes have been removed. -/
structure Pruned (f : Func) (count : Nat) (f' : Func) : Prop extends Rewires f f',
    Repaired f f' where
  count_eq : count = (f.incoming.live.filter f.stale).length

end Func

section

variable {f g h : Func} {t u : TimelineId} {n m : IncomingId} {i : Incoming} {T : Option TimelineId}

/-! ## Nodes and their timelines -/

theorem Rewires.timelineAt (h : Rewires f g) (ht : f.Tables) (ht' : g.Tables)
    (hx : (f.timelines.get? t).isSome) : (g.timelineAt t).block = (f.timelineAt t).block ∧
      (g.timelineAt t).var = (f.timelineAt t).var := by
  obtain ⟨x, hx⟩ := Option.isSome_iff_exists.mp hx
  obtain ⟨y, hy, hb, hv⟩ := h.live ht ht' hx
  rw [timelineAt_of_get? hx, timelineAt_of_get? hy]
  exact ⟨hb, hv⟩

theorem Func.Tables.mem_staleOf (ht : f.Tables) :
    n ∈ f.staleOf t ↔ (∃ i, f.incoming.get? n = some i ∧ i.owner = t) ∧ f.stale n = true := by
  rw [staleOf, List.mem_filter, ht.mem_incoming]

theorem Func.Tables.staleOf_nodup (ht : f.Tables) (t : TimelineId) : (f.staleOf t).Nodup :=
  (ht.incoming_nodup t).filter _

/-- A node that is as before in a function with the same edges. -/
theorem Rewires.stale (h : Rewires f g) (ht : f.Tables) (ht' : g.Tables)
    (hi : f.incoming.get? n = some i) (hg : g.incoming.get? n = some i) :
    g.stale n = f.stale n := by
  rw [Func.stale, Func.stale, incomingAt_of_get? hi, incomingAt_of_get? hg, h.preds,
    (h.timelineAt ht ht' (ht.owner_live hi)).1]

theorem Rewires.locals_at (h : Rewires f g) (ht : f.Tables) (ht' : g.Tables)
    (hx : (f.timelines.get? t).isSome) : (g.timelineAt t).locals = (f.timelineAt t).locals := by
  obtain ⟨x, hx⟩ := Option.isSome_iff_exists.mp hx
  have hid := ht.listed hx
  have hheld := h.held x.block x.var
  rw [Func.held, Func.held, ht.timeline?_eq hid, ht'.timeline?_eq (h.id hid)] at hheld
  exact hheld

theorem Timeline.explicit_eq_false {x : Timeline} :
    x.explicit = false ↔ x.incoming = [] ∧ x.locals = [] := by
  rw [Timeline.explicit, Timeline.isEmpty]
  simp

/-! ## Taking nodes away -/

structure Sheds (gone : List IncomingId) (f g : Func) : Prop extends Relinks f g where
  node : ∀ m, g.incoming.get? m = if m ∈ gone then none else f.incoming.get? m
  numbers : g.incoming.size = f.incoming.size
  forgets : Forgets f g
  memo : gone ≠ [] → g.memo = []

namespace Sheds

variable {gone : List IncomingId}

theorem mem_incoming (hs : Sheds gone f g) (ht : f.Tables) :
    n ∈ (g.timelineAt t).incoming ↔ n ∉ gone ∧ n ∈ (f.timelineAt t).incoming := by
  rw [hs.linked.tables.mem_incoming, ht.mem_incoming, hs.node]
  by_cases hn : n ∈ gone <;> simp [hn]

/-- What else is stale on a timeline that has lost nothing. -/
theorem staleOf_perm (hs : Sheds gone f g) (ht : f.Tables)
    (ho : ∀ n ∈ gone, n ∉ (f.timelineAt t).incoming) : (g.staleOf t).Perm (f.staleOf t) := by
  have ht' := hs.linked.tables
  refine (List.perm_ext_iff_of_nodup (ht'.staleOf_nodup t) (ht.staleOf_nodup t)).mpr fun n => ?_
  rw [staleOf, staleOf, List.mem_filter, List.mem_filter, hs.mem_incoming ht, and_assoc]
  constructor
  · rintro ⟨hn, hm, hstale⟩
    obtain ⟨i, hi, -⟩ := ht.mem_incoming.mp hm
    rw [hs.stale ht ht' hi (by rw [hs.node, if_neg hn, hi])] at hstale
    exact ⟨hm, hstale⟩
  · rintro ⟨hm, hstale⟩
    obtain ⟨i, hi, -⟩ := ht.mem_incoming.mp hm
    have hn : n ∉ gone := fun hn => ho n hn hm
    refine ⟨hn, hm, ?_⟩
    rw [hs.stale ht ht' hi (by rw [hs.node, if_neg hn, hi])]
    exact hstale

theorem refl (hl : f.Linked) : Sheds [] f f :=
  ⟨.refl hl, fun m => by simp, rfl, Or.inl rfl, fun hne => absurd rfl hne⟩

theorem of_mem {gone' : List IncomingId} (hs : Sheds gone f g) (h : ∀ n, n ∈ gone ↔ n ∈ gone') :
    Sheds gone' f g where
  toRelinks := hs.toRelinks
  node m := by simp only [hs.node, h]
  numbers := hs.numbers
  forgets := hs.forgets
  memo hne := hs.memo fun hnil => by
    obtain ⟨n, hn⟩ := List.exists_mem_of_ne_nil _ hne
    rw [← h, hnil] at hn
    cases hn

theorem trans {gone' : List IncomingId} (hs : Sheds gone f g) (hs' : Sheds gone' g h) :
    Sheds (gone ++ gone') f h where
  toRelinks := hs.toRelinks.trans hs'.toRelinks
  node m := by
    rw [hs'.node, hs.node]
    by_cases hm : m ∈ gone <;> by_cases hm' : m ∈ gone' <;> simp [hm, hm']
  numbers := hs'.numbers.trans hs.numbers
  forgets := hs.forgets.trans hs'.forgets
  memo hne := by
    by_cases hg : gone' = []
    · rcases hs'.forgets with rfl | hnil
      · exact hs.memo fun hn => hne (by rw [hn, hg, List.append_nil])
      · exact hnil
    · exact hs'.memo hg

end Sheds

theorem pruneTimeline_sheds (hl : f.Linked) (t : TimelineId) :
    ∃ g, Edit.pruneTimeline t f = .ok ((f.staleOf t).length, !(g.timelineAt t).explicit) g ∧
      Sheds (f.staleOf t) f g := by
  have ht := hl.tables
  have hstale : (f.timelineAt t).incoming.filter (fun n =>
      !(f.preds (f.timelineAt t).block).contains (f.incomingAt n).pred) = f.staleOf t := by
    refine List.filter_congr fun n hn => ?_
    obtain ⟨i, hi, ho⟩ := ht.mem_incoming.mp hn
    rw [stale, incomingAt_of_get? hi, ho]
  obtain ⟨g, hrun, hr, hget, hsize, hmemo⟩ := removeAll_ok hl (fun n hn => by
    obtain ⟨⟨i, hi, -⟩, -⟩ := ht.mem_staleOf.mp hn
    rw [hi]
    rfl) (ht.staleOf_nodup t)
  have heq : Edit.pruneTimeline t f =
      .ok ((f.staleOf t).length, !(g.timelineAt t).explicit) g := by
    rw [Edit.pruneTimeline, Edit.bind_eq Edit.get_eq]
    rw [hstale, Edit.bind_eq hrun, Edit.bind_eq Edit.get_eq]
    rfl
  exact ⟨g, heq, hr, hget, hsize, (pruneTimeline_relinks hl heq).2, hmemo⟩

/-- A timeline is emptied if it decides nothing once its stale nodes are gone. -/
theorem Sheds.emptied_eq {gone : List IncomingId} (hs : Sheds gone f g) (ht : f.Tables)
    (hx : (f.timelines.get? t).isSome) (hne : (f.timelineAt t).incoming ≠ [])
    (hgone : ∀ n ∈ (f.timelineAt t).incoming, n ∈ gone ↔ f.stale n = true) :
    (!(g.timelineAt t).explicit) = f.emptied t := by
  have hlocals := hs.locals_at ht hs.linked.tables hx
  have hnodes : (g.timelineAt t).incoming = [] ↔
      ∀ n ∈ (f.timelineAt t).incoming, f.stale n = true := by
    rw [List.eq_nil_iff_forall_not_mem]
    refine forall_congr' fun n => ?_
    rw [hs.mem_incoming ht, not_and']
    exact imp_congr_right fun hn => by rw [not_not, hgone n hn]
  rw [Bool.eq_iff_iff, Bool.not_eq_true', Timeline.explicit_eq_false, hnodes, hlocals, emptied]
  simp [hne, and_comm]

def Func.pruned (f : Func) (t : TimelineId) : TimelineId × Nat × Bool :=
  (t, (f.staleOf t).length, f.emptied t)

/-- Timelines lose their stale nodes one after the other, and none sees what another loses. -/
theorem pruneAll_ok (hl : f.Linked) {ts : List TimelineId} (hts : ts.Nodup)
    (hj : ∀ t ∈ ts, (f.timelines.get? t).isSome ∧ (f.timelineAt t).incoming ≠ []) :
    ∃ g, ts.mapM (fun t => (do return (t, ← Edit.pruneTimeline t) : Edit (TimelineId × Nat × Bool)))
        f = .ok (ts.map f.pruned) g ∧ Sheds (ts.flatMap f.staleOf) f g := by
  have ht := hl.tables
  obtain ⟨rs, g, hrun, rfl, hs⟩ := Edit.mapM_run (f := f) (l := ts)
    (g := fun t => (do return (t, ← Edit.pruneTimeline t) : Edit (TimelineId × Nat × Bool)))
    (fun done rs g => rs = done.map f.pruned ∧ Sheds (done.flatMap f.staleOf) f g)
    (fun {done t rest rs k} hsplit ⟨hrs, hs⟩ => by
      obtain ⟨hx, hne⟩ := hj t (hsplit ▸ by simp)
      have hnew : t ∉ done := fun hm => by
        rw [hsplit, List.nodup_append] at hts
        exact hts.2.2 t hm t List.mem_cons_self rfl
      have hapart : ∀ n ∈ done.flatMap f.staleOf, n ∉ (f.timelineAt t).incoming := by
        intro n hn hm
        obtain ⟨u, hu, hn⟩ := List.mem_flatMap.mp hn
        obtain ⟨⟨i, hi, rfl⟩, -⟩ := ht.mem_staleOf.mp hn
        obtain ⟨j, hj, rfl⟩ := ht.mem_incoming.mp hm
        rw [hi, Option.some.injEq] at hj
        exact hnew (hj ▸ hu)
      have hperm := hs.staleOf_perm ht hapart
      obtain ⟨k', hrun, hs'⟩ := pruneTimeline_sheds hs.linked t
      have hsheds : Sheds ((done ++ [t]).flatMap f.staleOf) f k' := by
        refine (hs.trans hs').of_mem fun n => ?_
        rw [List.flatMap_append, List.mem_append, List.mem_append, List.flatMap_singleton,
          hperm.mem_iff]
      refine ⟨f.pruned t, k', ?_, by rw [hrs, List.map_append]; rfl, hsheds⟩
      rw [Edit.bind_eq hrun, pruned, hperm.length_eq]
      rw [hsheds.emptied_eq ht hx hne fun n hn => ?_]
      · rfl
      · rw [List.flatMap_append, List.mem_append, List.flatMap_singleton, staleOf, List.mem_filter]
        exact ⟨fun h => (h.resolve_left fun hd => hapart n hd hn).2, fun h => Or.inr ⟨hn, h⟩⟩)
    ⟨rfl, .refl hl⟩
  exact ⟨g, hrun, hs⟩

/-! ## Binding anew -/

theorem Firms.loose (hf : Firms f g) (hl : g.Loose n t) : f.Loose n t := by
  obtain ⟨i, hi, hit, hexp⟩ := hl
  cases hn : f.incoming.get? n with
  | none =>
    rw [hf.firm hi hn t hit] at hexp
    cases hexp
  | some j =>
    rw [hf.node hn, Option.some.injEq] at hi
    refine ⟨j, hn, hi ▸ hit, ?_⟩
    by_contra hne
    rw [hf.explicit (Bool.not_eq_false _ ▸ hne)] at hexp
    cases hexp

/-- Where no edge leads to its block a timeline gets no node. -/
theorem Firms.alone (hf : Firms f g) (hr : Rewires f g) (ht : f.Tables) (ht' : g.Tables)
    (hx : (f.timelines.get? t).isSome) (hp : f.preds (f.timelineAt t).block = [])
    (hexp : (f.timelineAt t).explicit = false) : (g.timelineAt t).explicit = false := by
  rw [Timeline.explicit_eq_false] at hexp ⊢
  refine ⟨List.eq_nil_iff_forall_not_mem.mpr fun n hn => ?_, hexp.2 ▸ hr.locals_at ht ht' hx⟩
  obtain ⟨i, hi, ho⟩ := ht'.mem_incoming.mp hn
  cases hold : f.incoming.get? n with
  | none =>
    have hedge := hf.edge hi hold
    rw [ho, (hr.timelineAt ht ht' hx).1, hp] at hedge
    cases hedge
  | some j =>
    have hj := hf.node hold
    rw [hi, Option.some.injEq] at hj
    have hmem := ht.mem_incoming.mpr ⟨j, hold, hj ▸ ho⟩
    rw [hexp.1] at hmem
    cases hmem

theorem Binds.explicit (hb : Binds n i f g) (hr : Rewires f g) (ht : f.Tables) (ht' : g.Tables)
    (t : TimelineId) : (g.timelineAt t).explicit = (f.timelineAt t).explicit := by
  cases hx : f.timelines.get? t with
  | none =>
    have hlive := hb.live t
    rw [hx, Option.isSome_none, Option.isSome_eq_false_iff, Option.isNone_iff_eq_none] at hlive
    rw [Func.timelineAt, Func.timelineAt, hx, hlive]
  | some x =>
    have hid := ht.listed hx
    have hsame := ht.explicit?_congr ht' (fun _ => hr.id) (locals_of_held (hr.held _ _))
      (hb.joinNodes x.block x.var)
    exact Bool.eq_iff_iff.mpr
      ⟨fun h => explicit_of_explicit? (hsame ▸ explicit?_of_explicit (hr.id hid) h),
        fun h => explicit_of_explicit? (hsame ▸ explicit?_of_explicit hid h)⟩

structure Rebinds (nodes : List IncomingId) (T : Option TimelineId) (f g : Func) : Prop where
  weaves : Weaves f g
  node : ∀ m, g.incoming.get? m =
    if m ∈ nodes then (f.incoming.get? m).map ({ · with target := T }) else f.incoming.get? m
  size : g.incoming.size = f.incoming.size
  explicit : ∀ t, (g.timelineAt t).explicit = (f.timelineAt t).explicit
  forgets : Forgets f g

theorem bindAll_ok (hl : f.Linked) {v : VarId} {nodes : List IncomingId} (hn : f.NodesOf v nodes)
    (hT : f.Target v T) :
    ∃ g, (do
        for n in nodes do
          let _ ← Edit.rebind n T : Edit Unit) f = .ok () g ∧ Rebinds nodes T f g := by
  obtain ⟨g, hrun, hg⟩ := Edit.forIn_run (f := f) (l := nodes) (k := fun _ => pure ())
    (g := fun n _ => do
      let _ ← Edit.rebind n T
      pure (ForInStep.yield PUnit.unit))
    (fun done g => Rebinds done T f g)
    (fun done n rest g hsplit hg => by
      have hm : n ∈ nodes := hsplit ▸ List.mem_append_right _ List.mem_cons_self
      have hw := hg.weaves
      obtain ⟨i, hi, hiv⟩ := hn.weaves hw hl n hm
      have hTi : g.Target (g.timelineAt i.owner).var T := hiv ▸ hT.weaves hw hl
      obtain ⟨c, g', hbind, ht', hb⟩ := rebind_ok hw.linked.tables hi hTi
      have hw' := rebind_weaves hw.linked hi hTi hbind
      refine ⟨g', by rw [Edit.bind_eq hbind]; rfl, hw.trans hw', fun m => ?_,
        hb.size.trans hg.size, fun t => ?_, hg.forgets.trans hb.forgets⟩
      · by_cases hmn : m = n
        · have hold := hg.node n
          rw [hi] at hold
          rw [hb.get, if_pos hmn, hmn, if_pos (by simp)]
          split at hold
          · obtain ⟨j, hj, rfl⟩ := Option.map_eq_some_iff.mp hold.symm
            rw [hj]
            rfl
          · rw [← hold]
            rfl
        · rw [hb.get, if_neg hmn, hg.node]
          simp [hmn]
      · rw [hb.explicit hw'.toRewires hw.linked.tables ht', hg.explicit])
    ⟨.refl hl, fun m => by simp, rfl, fun _ => rfl, Or.inl rfl⟩
  exact ⟨g, hrun, hg⟩

/-! ## Round by round -/

/-- Questions have been asked about the timelines `asked`, and the timelines `done` have given up
what was bound to them, unless they decide a value again. No node has come loose, and a timeline
to which no edge leads waits with what it has. -/
structure Repairs (asked done : List TimelineId) (f g : Func) : Prop where
  weaves : Weaves f g
  loose : ∀ {n t}, g.Loose n t → f.Loose n t ∧ t ∉ done
  waits : ∀ {n t}, f.preds (f.timelineAt t).block = [] → t ∉ done → f.Loose n t → g.Loose n t
  size : f.incoming.size ≤ g.incoming.size
  fresh : ∀ {n i}, g.incoming.get? n = some i → f.incoming.get? n = none →
    f.incoming.size < n ∧ i.pred ∈ f.preds (g.timelineAt i.owner).block
  memo : ∀ e ∈ g.memo, e ∈ f.memo ∨
    ∃ t ∈ asked, e.1 = ⟨(f.timelineAt t).block, (f.timelineAt t).var, false⟩

theorem Func.Loose.live (h : f.Loose n t) (ht : f.Tables) : (f.timelines.get? t).isSome := by
  obtain ⟨i, hi, hit, -⟩ := h
  obtain ⟨x, hx, -⟩ := ht.target hi hit
  rw [hx]
  rfl

variable {asked done : List TimelineId}

/-- A timeline that nothing is bound to, or that decides its value, has nothing to give up. -/
theorem Repairs.skip (h : Repairs asked done f g)
    (hskip : (g.timelineAt t).referrers = [] ∨ (g.timelineAt t).explicit = true) :
    Repairs asked (done ++ [t]) f g where
  weaves := h.weaves
  loose := fun {n u} hl => by
    obtain ⟨hf, hu⟩ := h.loose hl
    refine ⟨hf, fun hm => ?_⟩
    rcases List.mem_append.mp hm with hm | hm
    · exact hu hm
    · obtain ⟨i, hi, hit, hexp⟩ := hl
      rw [List.mem_singleton.mp hm] at hit hexp
      rcases hskip with hnil | htrue
      · have := h.weaves.linked.tables.mem_referrers.mpr ⟨i, hi, hit⟩
        rw [hnil] at this
        cases this
      · rw [htrue] at hexp
        cases hexp
  waits hp hu := h.waits hp fun hm => hu (List.mem_append_left _ hm)
  size := h.size
  fresh := h.fresh
  memo := h.memo

theorem Repairs.more (h : Repairs asked done f g) (t : TimelineId) :
    Repairs (asked ++ [t]) done f g where
  weaves := h.weaves
  loose := h.loose
  waits := h.waits
  size := h.size
  fresh := h.fresh
  memo e he := (h.memo e he).imp_right fun ⟨u, hu, heq⟩ => ⟨u, List.mem_append_left _ hu, heq⟩

/-- Joins have been built in a question about the timeline. -/
theorem Repairs.ask (h : Repairs asked done f g) {k : Func} (ht : f.Tables) (hw : Weaves g k)
    (hf : Firms g k) (hm : ∀ e ∈ k.memo,
      e.1 = ⟨(f.timelineAt t).block, (f.timelineAt t).var, false⟩ ∨ e ∈ g.memo) :
    Repairs (asked ++ [t]) done f k := by
  have hg := h.weaves.linked.tables
  refine ⟨h.weaves.trans hw, fun hl => h.loose (hf.loose hl), fun {n u} hp hu hl => ?_,
    h.size.trans hf.size, fun {n i} hi hn => ?_, fun e he => ?_⟩
  · obtain ⟨i, hi, hit, hexp⟩ := h.waits hp hu hl
    refine ⟨i, hf.node hi, hit, hf.alone hw.toRewires hg hw.linked.tables ?_ ?_ hexp⟩
    · obtain ⟨x, hx, -⟩ := hg.target hi hit
      rw [hx]
      rfl
    · rw [h.weaves.preds, (h.weaves.timelineAt ht hg (hl.live ht)).1, hp]
  · cases hold : g.incoming.get? n with
    | none =>
      rw [← h.weaves.preds]
      exact ⟨h.size.trans_lt (hf.fresh hi hold), hf.edge hi hold⟩
    | some j =>
      have hj := hf.node hold
      rw [hi, Option.some.injEq] at hj
      subst hj
      rw [(hw.timelineAt hg hw.linked.tables (hg.owner_live hold)).1]
      exact h.fresh hold hn
  · rcases hm e he with heq | he
    · exact Or.inr ⟨t, by simp, heq⟩
    · exact (h.more t).memo e he

/-- What was bound to `t` has been bound to a timeline that decides its value. -/
theorem Repairs.rebind (h : Repairs asked done f g) {k : Func} {r : Option TimelineId}
    (hr : g.Firm r) (hb : Rebinds (g.timelineAt t).referrers r g k) :
    Repairs asked (done ++ [t]) f k := by
  have ht := h.weaves.linked.tables
  have hw := hb.weaves
  -- A node that is bound to another timeline than `t` stays as it is.
  have other : ∀ {n i u}, g.incoming.get? n = some i → i.target = some u → u ≠ t →
      k.incoming.get? n = some i := by
    intro n i u hi hit hu
    rw [hb.node, if_neg fun hm => ?_, hi]
    obtain ⟨j, hj, hjt⟩ := ht.mem_referrers.mp hm
    rw [hi, Option.some.injEq] at hj
    rw [← hj, hit, Option.some.injEq] at hjt
    exact hu hjt
  refine ⟨h.weaves.trans hw, fun {n u} hl => ?_, fun {n u} hp hu hl => ?_, hb.size ▸ h.size,
    fun {n i} hi hn => ?_, fun e he => ?_⟩
  · obtain ⟨i, hi, hit, hexp⟩ := hl
    rw [hb.explicit] at hexp
    rw [hb.node] at hi
    split at hi
    · obtain ⟨j, -, rfl⟩ := Option.map_eq_some_iff.mp hi
      rw [hr u hit] at hexp
      cases hexp
    · next hm =>
      obtain ⟨hf, hu⟩ := h.loose ⟨i, hi, hit, hexp⟩
      refine ⟨hf, fun hd => ?_⟩
      rcases List.mem_append.mp hd with hd | hd
      · exact hu hd
      · rw [List.mem_singleton.mp hd] at hit
        exact hm (ht.mem_referrers.mpr ⟨i, hi, hit⟩)
  · obtain ⟨i, hi, hit, hexp⟩ := h.waits hp (fun hm => hu (List.mem_append_left _ hm)) hl
    refine ⟨i, other hi hit fun he => hu (by simp [he]), hit, ?_⟩
    rw [hb.explicit]
    exact hexp
  · obtain ⟨j, hj, ho, hp⟩ : ∃ j, g.incoming.get? n = some j ∧ j.owner = i.owner ∧
        j.pred = i.pred := by
      rw [hb.node] at hi
      split at hi
      · obtain ⟨j, hj, rfl⟩ := Option.map_eq_some_iff.mp hi
        exact ⟨j, hj, rfl, rfl⟩
      · exact ⟨i, hi, rfl, rfl⟩
    rw [← ho, ← hp, (hw.timelineAt ht hw.linked.tables (ht.owner_live hj)).1]
    exact h.fresh hj hn
  · rcases hb.forgets with rfl | hnil
    · exact h.memo e he
    · rw [hnil] at he
      cases he

def Func.Lost (f : Func) (t : TimelineId) : Prop :=
  f.hasParent (f.timelineAt t).block = false ∧ ∃ n, f.Loose n t

theorem Repairs.retarget (h : Repairs done done f g) (hf : f.Consistent) (hu : f.frozen = false)
    (hm : f.memo = []) (hd : ∀ u ∈ done, (f.timelines.get? u).isSome)
    (hx : (f.timelines.get? t).isSome) (hnew : t ∉ done) (hl : ¬ f.Lost t) :
    ∃ g', Edit.retarget t g = .ok () g' ∧ Repairs (done ++ [t]) (done ++ [t]) f g' := by
  have ht := hf.linked.tables
  have hg := h.weaves.consistent hf
  have htg := hg.linked.tables
  rw [Edit.retarget, Edit.bind_eq Edit.get_eq]
  by_cases hskip : ((g.timelineAt t).referrers.isEmpty || (g.timelineAt t).explicit) = true
  · rw [if_pos hskip]
    refine ⟨g, rfl, (h.more t).skip ?_⟩
    rw [Bool.or_eq_true, List.isEmpty_iff] at hskip
    exact hskip
  rw [if_neg hskip]
  obtain ⟨hne, hexp⟩ : (g.timelineAt t).referrers ≠ [] ∧ (g.timelineAt t).explicit = false := by
    simpa using hskip
  -- A node is still bound to the timeline, so its block has a parent.
  obtain ⟨n, hn⟩ := List.exists_mem_of_ne_nil _ hne
  obtain ⟨i, hi, hit⟩ := htg.mem_referrers.mp hn
  obtain ⟨hblock, hvar⟩ := h.weaves.timelineAt ht htg hx
  have hparent : g.hasParent (g.timelineAt t).block = true := by
    rw [h.weaves.toSameGraph.hasParent, hblock]
    by_contra hp
    exact hl ⟨by simpa using hp, n, (h.loose ⟨i, hi, hit, hexp⟩).1⟩
  obtain ⟨y, hy, -⟩ := htg.target hi hit
  have hstored := stored_of_timelineId? (htg.listed_at (t := t) (by rw [hy]; rfl))
  have hmemo : g.memo.lookup ⟨(g.timelineAt t).block, (g.timelineAt t).var, false⟩ = none := by
    rw [List.lookup_eq_none_iff]
    intro e he
    obtain ⟨u, hud, heq⟩ := (h.memo e he).resolve_left (hm ▸ List.not_mem_nil)
    rw [heq, hblock, hvar, bne_iff_ne]
    intro hsame
    obtain ⟨hb, hv, -⟩ := Question.mk.inj hsame
    have hidt := ht.listed_at hx
    rw [hb, hv, ht.listed_at (hd u hud), Option.some.injEq] at hidt
    exact hnew (hidt ▸ hud)
  obtain ⟨s, k, hstack, hfirms, hmk, r, hres, hfirm⟩ := hg.stackAt_firms
    (h.weaves.frozen.trans hu) hstored hparent hmemo
  obtain ⟨hw, hfound⟩ := stackAt_weaves hg.linked hstored hstack
  have hresolve : Edit.resolveAt (g.timelineAt t).block (g.timelineAt t).var g = .ok r k := by
    rw [Edit.resolveAt, Edit.bind_eq hstack]
    exact Edit.ask_eq hres
  have hT := (resolveAt_weaves hg.linked hstored hresolve).2
  have hasked := h.ask (t := t) ht hw hfirms (hblock ▸ hvar ▸ hmk)
  rw [Edit.bind_eq hresolve]
  split
  · next htarget => exact ⟨k, rfl, hasked.skip (Or.inr (hfirm t htarget))⟩
  obtain ⟨y', hy', -, hyv⟩ := hw.live htg hw.linked.tables hy
  have hnodes := nodesOf_referrers hw.linked.tables hy'
  rw [hyv, ← timelineAt_of_get? hy, ← timelineAt_of_get? hy'] at hnodes
  obtain ⟨g', hloop, hb⟩ := bindAll_ok hw.linked hnodes hT
  exact ⟨g', by rw [Edit.bind_eq Edit.get_eq]; exact hloop, hasked.rebind hfirm hb⟩

theorem Repairs.refused (h : Repairs asked done f g) (hf : f.Consistent)
    (hx : (f.timelines.get? t).isSome) (hnew : t ∉ done) (hl : f.Lost t) {r : Unit} {k : Func} :
    Edit.retarget t g ≠ .ok r k := by
  intro hrun
  obtain ⟨hp, n, hn⟩ := hl
  have ht := hf.linked.tables
  have htg := h.weaves.linked.tables
  have hstored := stored_of_timelineId? (ht.listed_at hx)
  have halone := hf.forest.preds_of_alone ((hf.stocked.stored _).mpr hstored) hp
  obtain ⟨i, hi, hit, hexp⟩ := h.waits halone hnew hn
  have hne := List.ne_nil_of_mem (htg.mem_referrers.mpr ⟨i, hi, hit⟩)
  rw [Edit.retarget, Edit.bind_eq Edit.get_eq, if_neg (by simp [hne, hexp])] at hrun
  obtain ⟨_, k₁, hresolve, -⟩ := Edit.bind_ok hrun
  obtain ⟨_, k₂, hstack, -⟩ := Edit.bind_ok hresolve
  obtain ⟨_, k₃, hask, -⟩ := Edit.bind_ok hstack
  have hresolvable := (Edit.ask_ok hask).1
  rw [resolvable, h.weaves.toSameGraph.hasParent,
    (h.weaves.timelineAt ht htg hx).1, hp] at hresolvable
  cases hresolvable

/-! ## The whole pruning -/

theorem Func.mem_joinedTimelines : t ∈ f.joinedTimelines ↔
    (f.timelines.get? t).isSome ∧ (f.timelineAt t).incoming ≠ [] := by
  rw [joinedTimelines, List.mem_filter, Arena.mem_live]
  simp

theorem Func.mem_joinedTimelines_of_emptied (h : f.emptied t = true) : t ∈ f.joinedTimelines := by
  rw [emptied, Bool.and_eq_true, Bool.and_eq_true] at h
  have hne : (f.timelineAt t).incoming ≠ [] := by simpa using h.1.1
  refine mem_joinedTimelines.mpr ⟨?_, hne⟩
  cases hx : f.timelines.get? t with
  | some x => rfl
  | none =>
    rw [timelineAt, hx] at hne
    exact absurd rfl hne

theorem staleOf_perm_live (ht : f.Tables) :
    (f.joinedTimelines.flatMap f.staleOf).Perm (f.incoming.live.filter f.stale) := by
  refine (List.perm_ext_iff_of_nodup ?_ ((Arena.live_nodup _).filter _)).mpr fun n => ?_
  · refine List.nodup_flatMap.mpr ⟨fun t _ => ht.staleOf_nodup t, ?_⟩
    refine ((Arena.live_nodup _).filter _).imp fun {t u} hne n hn hn' => hne ?_
    obtain ⟨⟨i, hi, rfl⟩, -⟩ := ht.mem_staleOf.mp hn
    obtain ⟨⟨j, hj, rfl⟩, -⟩ := ht.mem_staleOf.mp hn'
    rw [hi, Option.some.injEq] at hj
    rw [hj]
  · rw [List.mem_flatMap, List.mem_filter, Arena.mem_live]
    constructor
    · rintro ⟨t, -, hn⟩
      obtain ⟨⟨i, hi, -⟩, hstale⟩ := ht.mem_staleOf.mp hn
      exact ⟨by rw [hi]; rfl, hstale⟩
    · rintro ⟨hn, hstale⟩
      obtain ⟨i, hi⟩ := Option.isSome_iff_exists.mp hn
      have hmem := ht.mem_incoming.mpr ⟨i, hi, rfl⟩
      exact ⟨i.owner, mem_joinedTimelines.mpr ⟨ht.owner_live hi, List.ne_nil_of_mem hmem⟩,
        ht.mem_staleOf.mpr ⟨⟨i, hi, rfl⟩, hstale⟩⟩

theorem foldl_pruned (ts : List TimelineId) (k : Nat) :
    (ts.map f.pruned).foldl (fun n r => n + r.2.1) k = k + (ts.flatMap f.staleOf).length := by
  induction ts generalizing k with
  | nil => rfl
  | cons t ts ih =>
    rw [List.map_cons, List.foldl_cons, ih, List.flatMap_cons, List.length_append, Nat.add_assoc]
    rfl

theorem mem_gone (ht : f.Tables) : n ∈ f.joinedTimelines.flatMap f.staleOf ↔
    (f.incoming.get? n).isSome ∧ f.stale n = true := by
  rw [(staleOf_perm_live ht).mem_iff, List.mem_filter, Arena.mem_live]

/-- Of the timelines with nodes those are emptied that decide nothing afterwards. -/
theorem Sheds.emptied_iff (hs : Sheds (f.joinedTimelines.flatMap f.staleOf) f g) (ht : f.Tables)
    (hx : (f.timelines.get? t).isSome) (hne : (f.timelineAt t).incoming ≠ []) :
    f.emptied t = true ↔ (g.timelineAt t).explicit = false := by
  rw [← hs.emptied_eq ht hx hne fun n hn => ?_, Bool.not_eq_true']
  obtain ⟨i, hi, -⟩ := ht.mem_incoming.mp hn
  rw [mem_gone ht, hi]
  simp

/-- After the stale nodes are gone a timeline is lost if a node is stranded there. -/
theorem Sheds.lost_iff (hs : Sheds (f.joinedTimelines.flatMap f.staleOf) f g) (ht : f.Tables) :
    f.Stranded ↔ ∃ t, f.emptied t = true ∧ g.Lost t := by
  refine exists_congr fun t => and_congr_right fun hemptied => ?_
  obtain ⟨hx, hne⟩ := mem_joinedTimelines.mp (mem_joinedTimelines_of_emptied hemptied)
  rw [Func.Lost, hs.hasParent, (hs.timelineAt ht hs.linked.tables hx).1]
  refine and_congr_right fun _ => exists_congr fun n => ?_
  constructor
  · rintro ⟨i, hi, hit, hstale⟩
    refine ⟨i, ?_, hit, (hs.emptied_iff ht hx hne).mp hemptied⟩
    rw [hs.node, if_neg fun hm => ?_, hi]
    rw [((mem_gone ht).mp hm).2] at hstale
    cases hstale
  · rintro ⟨i, hi, hit, -⟩
    rw [hs.node] at hi
    split at hi
    · cases hi
    · next hm =>
      refine ⟨i, hi, hit, ?_⟩
      rw [mem_gone ht, hi] at hm
      simpa using hm

def retargetEmptied (r : TimelineId × Nat × Bool) (_ : PUnit) : Edit (ForInStep PUnit) :=
  if r.2.2 then do
    Edit.retarget r.1
    pure (ForInStep.yield PUnit.unit)
  else pure (ForInStep.yield PUnit.unit)

def emptiedOf (rs : List (TimelineId × Nat × Bool)) : List TimelineId :=
  (rs.filter fun r => r.2.2).map Prod.fst

/-- A round goes well unless its timeline is lost, and else it is refused. -/
theorem Repairs.round {rs rest : List (TimelineId × Nat × Bool)} {r : TimelineId × Nat × Bool}
    {ts : List TimelineId} (h : Repairs (emptiedOf rs) (emptiedOf rs) f g) (hf : f.Consistent)
    (hu : f.frozen = false) (hm : r.2.2 = true → f.memo = [])
    (hlive : ∀ t ∈ ts, (f.timelines.get? t).isSome) (hn : ts.Nodup)
    (hts : (rs ++ r :: rest).map Prod.fst = ts) :
    (¬ (r.2.2 = true ∧ f.Lost r.1) → ∃ g', retargetEmptied r ⟨⟩ g = .ok (.yield ⟨⟩) g' ∧
      Repairs (emptiedOf (rs ++ [r])) (emptiedOf (rs ++ [r])) f g') ∧
    (∀ {s g'}, retargetEmptied r ⟨⟩ g = .ok s g' → ¬ (r.2.2 = true ∧ f.Lost r.1)) := by
  obtain ⟨t, k, e⟩ := r
  have hmem : ∀ u ∈ emptiedOf rs, u ∈ rs.map Prod.fst := fun u hu => by
    obtain ⟨r, hr, rfl⟩ := List.mem_map.mp hu
    exact List.mem_map_of_mem (List.mem_filter.mp hr).1
  have hx : (f.timelines.get? t).isSome := hlive t (hts ▸ by simp)
  have hnew : t ∉ emptiedOf rs := fun hm => by
    rw [← hts, List.map_append, List.nodup_append] at hn
    exact hn.2.2 t (hmem t hm) t List.mem_cons_self rfl
  have hd : ∀ u ∈ emptiedOf rs, (f.timelines.get? u).isSome := fun u hu =>
    hlive u (hts ▸ by rw [List.map_append]; exact List.mem_append_left _ (hmem u hu))
  have hsnoc : emptiedOf (rs ++ [(t, k, e)]) = emptiedOf rs ++ if e then [t] else [] := by
    rw [emptiedOf, List.filter_append, List.map_append]
    cases e <;> rfl
  rw [hsnoc]
  cases e with
  | false =>
    exact ⟨fun _ => ⟨g, rfl, by rw [if_neg Bool.false_ne_true, List.append_nil]; exact h⟩,
      fun _ hc => by cases hc.1⟩
  | true =>
    constructor
    · intro hl
      obtain ⟨g', hrun, hr⟩ := h.retarget hf hu (hm rfl) hd hx hnew fun hc => hl ⟨rfl, hc⟩
      exact ⟨g', Edit.bind_eq hrun, hr⟩
    · rintro s g' hrun ⟨-, hl⟩
      obtain ⟨_, _, hrun, -⟩ := Edit.bind_ok hrun
      exact h.refused hf hx hnew hl hrun

theorem pruneIncoming_eq (hu : f.frozen = false) {rs : List (TimelineId × Nat × Bool)}
    (hrun : f.joinedTimelines.mapM (fun t =>
      (do return (t, ← Edit.pruneTimeline t) : Edit (TimelineId × Nat × Bool))) f = .ok rs g) :
    Edit.pruneIncoming f = (forIn rs PUnit.unit retargetEmptied >>= fun _ =>
      pure (rs.foldl (fun n r => n + r.2.1) 0) : Edit Nat) g := by
  rw [Edit.pruneIncoming, Edit.bind_eq (Edit.unfrozen_eq hu _), Edit.bind_eq Edit.get_eq]
  exact Edit.bind_eq hrun

/-- Once the stale nodes are gone, the repairs leave no node loose that was not so before. -/
theorem Sheds.pruned {k : Nat} {done : List TimelineId}
    (hs : Sheds (f.joinedTimelines.flatMap f.staleOf) f g) (ht : f.Tables)
    (hr : Repairs done done g h) (hdone : ∀ t, f.emptied t = true → t ∈ done)
    (hk : k = (f.joinedTimelines.flatMap f.staleOf).length) : f.Pruned k h := by
  have hw := hr.weaves
  have htg := hs.linked.tables
  have hth := hw.linked.tables
  -- The nodes that are there in between are those that stay.
  have mid : ∀ {n i}, g.incoming.get? n = some i ↔
      f.incoming.get? n = some i ∧ f.stale n = false := by
    intro n i
    rw [hs.node]
    constructor
    · intro hi
      split at hi
      · cases hi
      · next hm =>
        rw [mem_gone ht, hi] at hm
        exact ⟨hi, by simpa using hm⟩
    · rintro ⟨hi, hstale⟩
      rw [if_neg fun hm => ?_, hi]
      rw [((mem_gone ht).mp hm).2] at hstale
      cases hstale
  refine ⟨hs.toRewires.trans hw.toRewires, ⟨fun {n i} hi hstale => ?_,
    fun {n i} hi hstale => hw.nodes (mid.mpr ⟨hi, hstale⟩), fun {n i} hi => ?_,
    fun {n t} hl => ?_⟩, hk.trans (staleOf_perm_live ht).length_eq⟩
  · have hnone : g.incoming.get? n = none := by
      rw [hs.node, if_pos ((mem_gone ht).mpr ⟨by rw [hi]; rfl, hstale⟩)]
    cases hn : h.incoming.get? n with
    | none => rfl
    | some j =>
      have hle := Arena.le_size_of_get? _ hi
      have hlt := (hr.fresh hn hnone).1
      rw [hs.numbers] at hlt
      omega
  · rw [hw.preds]
    cases hn : g.incoming.get? n with
    | none => exact (hr.fresh hi hn).2
    | some j =>
      obtain ⟨hj, hstale⟩ := mid.mp hn
      obtain ⟨j', hj', ho, hp⟩ := hw.nodes hn
      rw [hi, Option.some.injEq] at hj'
      subst hj'
      rw [ho, hp, (hw.timelineAt htg hth (htg.owner_live hn)).1,
        (hs.timelineAt ht htg (ht.owner_live hj)).1, hs.preds]
      rw [stale, incomingAt_of_get? hj] at hstale
      simpa using hstale
  · obtain ⟨⟨i, hi, hit, hexp⟩, hd⟩ := hr.loose hl
    have hi' := (mid.mp hi).1
    obtain ⟨x, hx, -⟩ := ht.target hi' hit
    have hx : (f.timelines.get? t).isSome := by rw [hx]; rfl
    refine ⟨i, hi', hit, Timeline.explicit_eq_false.mpr ⟨?_, ?_⟩⟩
    · by_contra hne
      exact hd (hdone t ((hs.emptied_iff ht hx hne).mpr hexp))
    · rw [← hs.locals_at ht htg hx]
      exact (Timeline.explicit_eq_false.mp hexp).2

theorem mem_emptiedOf_pruned {ts : List TimelineId} (ht : t ∈ ts) (he : f.emptied t = true) :
    t ∈ emptiedOf (ts.map f.pruned) :=
  List.mem_map.mpr ⟨f.pruned t, List.mem_filter.mpr ⟨List.mem_map_of_mem ht, he⟩, rfl⟩

/-- A pruning is refused where a node is stranded, and succeeds everywhere else. -/
theorem Func.Consistent.pruneIncoming_ok_iff (hf : f.Consistent) (hu : f.frozen = false) :
    ((∃ k h, Edit.pruneIncoming f = .ok k h) ↔ ¬ f.Stranded) ∧
      ∀ {k h}, Edit.pruneIncoming f = .ok k h → f.Pruned k h := by
  have ht := hf.linked.tables
  have hnodup : f.joinedTimelines.Nodup := (Arena.live_nodup _).filter _
  obtain ⟨g, hmap, hs⟩ := pruneAll_ok hf.linked hnodup fun t h => mem_joinedTimelines.mp h
  have hg := hs.toRelinks.consistent hf
  have hug : g.frozen = false := hs.frozen.trans hu
  have hstart : Repairs (emptiedOf []) (emptiedOf []) g g :=
    ⟨.refl hg.linked, fun hl => ⟨hl, List.not_mem_nil⟩, fun _ _ hl => hl, Nat.le_refl _,
      fun hi hn => (Option.some_ne_none _ (hi.symm.trans hn)).elim, fun _ he => Or.inl he⟩
  have hfst : (f.joinedTimelines.map f.pruned).map Prod.fst = f.joinedTimelines := by
    rw [List.map_map]
    exact List.map_id _
  have hlive : ∀ t ∈ f.joinedTimelines, (g.timelines.get? t).isSome := fun t hm => by
    obtain ⟨x, hx⟩ := Option.isSome_iff_exists.mp (mem_joinedTimelines.mp hm).1
    obtain ⟨y, hy, -⟩ := hs.live ht hs.linked.tables hx
    rw [hy]
    rfl
  -- Where a timeline is emptied, nodes have gone, and with them all answers.
  have hmemo : ∀ t, f.emptied t = true → g.memo = [] := fun t he => by
    have hm := mem_joinedTimelines_of_emptied he
    obtain ⟨n, hn⟩ := List.exists_mem_of_ne_nil _ (mem_joinedTimelines.mp hm).2
    rw [emptied, Bool.and_eq_true] at he
    have hstale := List.all_eq_true.mp he.2 n hn
    exact hs.memo (List.ne_nil_of_mem
      (List.mem_flatMap.mpr ⟨t, hm, List.mem_filter.mpr ⟨hn, hstale⟩⟩))
  have hround : ∀ {rs rest r g'}, f.joinedTimelines.map f.pruned = rs ++ r :: rest →
      Repairs (emptiedOf rs) (emptiedOf rs) g g' → _ := fun {rs rest r g'} hsplit hr =>
    @Repairs.round _ _ rs rest r _ hr hg hug (fun he => by
      have hm : r ∈ f.joinedTimelines.map f.pruned := by rw [hsplit]; simp
      obtain ⟨t, -, rfl⟩ := List.mem_map.mp hm
      exact hmemo t he) hlive hnodup (hsplit ▸ hfst)
  have hpruned : ∀ {h}, Repairs (emptiedOf (f.joinedTimelines.map f.pruned))
      (emptiedOf (f.joinedTimelines.map f.pruned)) g h →
      f.Pruned ((f.joinedTimelines.map f.pruned).foldl (fun n r => n + r.2.1) 0) h := fun hr =>
    hs.pruned ht hr (fun t he => mem_emptiedOf_pruned (mem_joinedTimelines_of_emptied he) he)
      (by rw [foldl_pruned, Nat.zero_add])
  rw [hs.lost_iff ht, pruneIncoming_eq hu hmap]
  have hback : ∀ {k h}, (forIn (f.joinedTimelines.map f.pruned) PUnit.unit retargetEmptied >>=
      fun _ => pure
          ((f.joinedTimelines.map f.pruned).foldl (fun n r => n + r.2.1) 0) : Edit Nat) g =
        .ok k h →
      (∀ r ∈ f.joinedTimelines.map f.pruned, ¬ (r.2.2 = true ∧ g.Lost r.1)) ∧ f.Pruned k h := by
    intro k h hrun
    obtain ⟨h', ⟨hr, hfree⟩, hrun⟩ := Edit.forIn_ok
      (fun rs g' => Repairs (emptiedOf rs) (emptiedOf rs) g g' ∧
        ∀ r ∈ rs, ¬ (r.2.2 = true ∧ g.Lost r.1))
      (fun rs r rest g' s g'' hsplit ⟨hr, hfree⟩ hrun => by
        obtain ⟨hok, hno⟩ := hround hsplit hr
        obtain ⟨g₁, hrun', hr'⟩ := hok (hno hrun)
        rw [hrun'] at hrun
        cases hrun
        refine ⟨rfl, hr', fun r' hm => ?_⟩
        rcases List.mem_append.mp hm with hm | hm
        · exact hfree r' hm
        · exact List.mem_singleton.mp hm ▸ hno hrun')
      ⟨hstart, fun _ hr => absurd hr List.not_mem_nil⟩ hrun
    cases hrun
    exact ⟨hfree, hpruned hr⟩
  refine ⟨⟨?_, fun hfree => ?_⟩, fun hrun => (hback hrun).2⟩
  · rintro ⟨k, h, hrun⟩ ⟨t, he, hl⟩
    exact (hback hrun).1 (f.pruned t)
      (List.mem_map_of_mem (mem_joinedTimelines_of_emptied he)) ⟨he, hl⟩
  · obtain ⟨h, hrun, -⟩ := Edit.forIn_run
      (fun rs g' => Repairs (emptiedOf rs) (emptiedOf rs) g g')
      (fun rs r rest g' hsplit hr => by
        refine (hround hsplit hr).1 fun hc => hfree ?_
        have hm : r ∈ f.joinedTimelines.map f.pruned := by rw [hsplit]; simp
        obtain ⟨t, -, rfl⟩ := List.mem_map.mp hm
        exact ⟨t, hc⟩) hstart
    exact ⟨_, h, hrun⟩

end

end DefFlow.Flow
