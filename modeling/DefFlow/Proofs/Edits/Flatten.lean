import DefFlow.Proofs.Edits.Reshape
import DefFlow.Proofs.Tree.Place
import DefFlow.Proofs.Tree.Straight

/-!
# Flattening

Dissolving trivial structures keeps blocks and edges, so every join keeps all of its
nodes and nothing has to be pruned. The flat form of a body has the same blocks, and the
predecessors of each block come in the same order, so what flows along its edges is the same
as well.
-/

set_option autoImplicit false

namespace DefFlow.Flow

open Func Component

/-! ## Pruning -/

theorem mapM_same {α β : Type} {g : α → Edit β} {f : Func} {P : β → Prop} (l : List α)
    (h : ∀ a ∈ l, ∃ b, g a f = .ok b f ∧ P b) :
    ∃ bs, l.mapM g f = .ok bs f ∧ ∀ b ∈ bs, P b := by
  induction l with
  | nil => exact ⟨[], rfl, fun b hb => by cases hb⟩
  | cons a l ih =>
    obtain ⟨b, hb, hP⟩ := h a List.mem_cons_self
    obtain ⟨bs, hbs, hPs⟩ := ih fun a ha => h a (List.mem_cons_of_mem _ ha)
    refine ⟨b :: bs, ?_, List.forall_mem_cons.mpr ⟨hP, hPs⟩⟩
    rw [List.mapM_cons, Edit.bind_eq hb, Edit.bind_eq hbs]
    rfl

section

variable {f f' : Func}

theorem Func.Calm.fed (h : f.Calm) : f.Fed := fun {b v} e he => by
  have hne : f.joinNodes b v ≠ [] := fun hnil => by
    rw [feeds, hnil] at he
    cases he
  obtain ⟨hb, hperm⟩ := h.complete hne
  exact ⟨hb, hperm.mem_iff.mp (List.mem_map_of_mem he)⟩

theorem pruneTimeline_eq (ht : f.Tables) (hfed : f.Fed) {t : TimelineId} {x : Timeline}
    (hx : f.timelines.get? t = some x) (hne : x.incoming ≠ []) :
    Edit.pruneTimeline t f = .ok (0, false) f := by
  have hid := ht.listed hx
  have hnodes : f.joinNodes x.block x.var = x.incoming := by
    rw [ht.joinNodes_eq hid, timelineAt_of_get? hx]
  have hstale : x.incoming.filter
      (fun n => !(f.preds x.block).contains (f.incomingAt n).pred) = [] := by
    refine List.filter_eq_nil_iff.mpr fun n hn => ?_
    simpa using (hfed _ (mem_feeds (hnodes ▸ hn))).2
  rw [Edit.pruneTimeline, Edit.bind_eq Edit.get_eq]
  simp only [timelineAt_of_get? hx, hstale]
  have hexp : (f.timelineAt t).explicit = true := by
    rw [timelineAt_of_get? hx, Timeline.explicit, Timeline.isEmpty]
    simp [hne]
  show EStateM.Result.ok (0, !(f.timelineAt t).explicit) f = _
  rw [hexp]
  rfl

/-- Where every node stands for an edge there is nothing to prune. -/
theorem pruneIncoming_ok (ht : f.Tables) (hu : f.frozen = false) (hfed : f.Fed) :
    ∃ n, Edit.pruneIncoming f = .ok n f := by
  have hjoined : ∀ t ∈ f.timelines.live.filter (fun t => !(f.timelineAt t).incoming.isEmpty),
      ∃ r, (do return (t, ← Edit.pruneTimeline t) : Edit (TimelineId × Nat × Bool)) f = .ok r f ∧
        r.2.2 = false := by
    intro t ht
    rw [List.mem_filter, Arena.mem_live, Option.isSome_iff_exists] at ht
    obtain ⟨⟨x, hx⟩, hne⟩ := ht
    rw [timelineAt_of_get? hx] at hne
    refine ⟨(t, 0, false), Edit.bind_eq (pruneTimeline_eq ht hfed hx fun hnil => ?_), rfl⟩
    rw [hnil] at hne
    cases hne
  obtain ⟨results, hrun, hformed⟩ := mapM_same _ hjoined
  refine ⟨results.foldl (fun n r => n + r.2.1) 0, ?_⟩
  rw [Edit.pruneIncoming, Edit.bind_eq (Edit.unfrozen_eq hu _), Edit.bind_eq Edit.get_eq,
    Edit.bind_eq hrun]
  obtain ⟨f', hloop, rfl⟩ := Edit.forIn_run (f := f) (l := results)
    (k := fun _ => pure (results.foldl (fun n r => n + r.2.1) 0))
    (g := fun r _ => if r.2.2 then do
        Edit.retarget r.1
        pure (ForInStep.yield PUnit.unit)
      else pure (ForInStep.yield PUnit.unit))
    (fun _ f' => f' = f) (fun done r rest f₁ hl hf => by
      have hr := hformed r (by rw [hl]; simp)
      obtain ⟨t, n, emptied⟩ := r
      cases hr
      exact ⟨f₁, rfl, hf⟩) rfl
  exact hloop

/-! ## Numbers -/

def Func.registered (f : Func) : Nat → Func
  | 0 => f
  | n+1 => { f.registered n with nodes := (f.registered n).nodes.skip }

theorem registered_eq (f : Func) (n : Nat) :
    f.registered n = { f with nodes := (f.registered n).nodes } := by
  induction n with
  | zero => rfl
  | succ n ih =>
    rw [registered, ih]

theorem get?_registered (f : Func) (n : Nat) (b : NodeId) :
    (f.registered n).nodes.get? b = f.nodes.get? b := by
  induction n with
  | zero => rfl
  | succ n ih => exact (Arena.get?_skip _ b).trans ih

theorem size_registered (f : Func) (n : Nat) :
    (f.registered n).nodes.size = f.nodes.size + n := by
  induction n with
  | zero => rfl
  | succ n ih => exact (Arena.size_skip _).trans (by rw [ih]; rfl)

theorem registerUpTo_eq (f : Func) (next : NodeId) :
    Edit.registerUpTo next f = .ok ⟨⟩ (f.registered (next - f.nodes.next)) := by
  rw [Edit.registerUpTo, Edit.bind_eq Edit.get_eq]
  obtain ⟨f', hrun, hf⟩ := Edit.forIn_run (f := f) (l := List.range (next - f.nodes.next))
    (k := fun _ => pure PUnit.unit) (g := fun _ _ => do
      let _ ← Edit.register
      pure (ForInStep.yield PUnit.unit))
    (fun done f' => f' = f.registered done.length) (fun done a rest f₁ _ h => by
      subst h
      refine ⟨f.registered (done.length + 1), rfl, ?_⟩
      rw [List.length_append]
      rfl) rfl
  rw [List.length_range] at hf
  rw [← hf]
  exact hrun

theorem reroots_registered (f : Func) (n : Nat) : Reroots f (f.registered n) := by
  have h := registered_eq f n
  exact ⟨by rw [h], by rw [h], get?_registered f n, by rw [h], by rw [h], by rw [h]⟩

/-! ## Flattening a component -/

/-- The numbers given to structures have no bearing on the flow. -/
theorem Func.Sound.registered (h : f.Sound) (n : Nat) : (f.registered n).Sound := by
  have hroots := reroots_registered f n
  have hrec := hroots.sameRecords
  have htrees : (f.registered n).trees = f.trees := by
    rw [Func.trees, Func.trees, registered_eq f n]
  have hreshape : Reshapes (fun _ => none) f (f.registered n) := {
    held := by rw [registered_eq f n]
    trees := ⟨[], htrees ▸ .refl fun _ _ => rfl, List.nodup_nil, fun i hi => by cases hi⟩
    size := by
      rw [size_registered]
      exact Nat.le_add_right _ _
    stored := fun b hb => by
      rw [get?_registered]
      exact hb
    tails := fun hb => by cases hb }
  have hview : SameView f (f.registered n) := {
    blocks := by rw [Func.blocks, Func.blocks, registered_eq f n]
    preds := by
      funext b
      rw [Func.preds, Func.preds, htrees]
    explicit? := hrec.explicit?
    joined? := hrec.joined?
    locals := hrec.locals }
  refine ⟨(h.nodesFresh.calm.reshape hreshape hroots).nodesFresh ?_, hroots.scheduled h.scheduled⟩
  exact hview.remembers (by rw [registered_eq f n]) h.nodesFresh.searchable.memo

theorem Func.Sound.flattened (h : f.Sound) {old : Component} {target : NodeId} {held : Bool}
    (hold : f.find? target = some old) (hne : ∀ b, old ≠ .block b) {n : Nat}
    (hn : n = (old.flatten held f.nodes.next).2 - f.nodes.next) (m : Nat) :
    ({ f.registered n with
      body := (f.registered n).body.modify target fun _ => (old.flatten held f.nodes.next).1
      detached := modifyAll target (fun _ => (old.flatten held f.nodes.next).1)
        (f.registered n).detached
      generation := m
      memo := [] } : Func).Sound := by
  have hforest := h.nodesFresh.searchable.forest
  obtain ⟨extra, halike, hnumbers⟩ := flatten_alike held f.nodes.next old
  obtain ⟨root, hroot, hwithin, rfl⟩ :=
    (within_of_findAll? f.trees hold).resolve_left fun hb => hne _ hb.choose_spec
  obtain ⟨l, r, htrees⟩ := List.append_of_mem hroot
  have hnodup := hforest.nodup
  rw [htrees] at hnodup
  have heach := GrowsEach.middle hnodup
    (hwithin.grows (g := fun _ => (old.flatten held f.nodes.next).1) (middle_nodup hnodup) halike
      fun _ _ _ => rfl) hwithin fun _ _ _ => rfl
  rw [← htrees] at heach
  have hroots : Reroots f { f.registered n with
      body := (f.registered n).body.modify old.id fun _ => (old.flatten held f.nodes.next).1
      detached := modifyAll old.id (fun _ => (old.flatten held f.nodes.next).1)
        (f.registered n).detached
      generation := m
      memo := [] } :=
    (reroots_registered f n).trans ⟨rfl, rfl, fun _ => rfl, rfl, rfl, rfl⟩
  refine ⟨(h.nodesFresh.calm.reshape {
    held := by rw [registered_eq f n]
    trees := ⟨extra, ?_, hnumbers.nodup, fun i hi => ?_⟩
    size := by
      rw [size_registered]
      exact Nat.le_add_right _ _
    stored := fun b hb => by
      rw [get?_registered]
      exact hb
    tails := fun hb => by cases hb } hroots).nodesFresh (remembers_of_nil rfl),
    hroots.scheduled h.scheduled⟩
  · rw [registered_eq f n]
    exact heach
  · have hcount : ∀ s n k i : Nat, n = k - (s + 1) → s + 1 ≤ i ∧ i < k → s < i ∧ i ≤ s + n := by
      omega
    rw [size_registered]
    exact hcount _ _ _ i hn (hnumbers.between i hi)

theorem Func.Sound.pruneIncoming_ok (h : f.Sound) : ∃ n, Edit.pruneIncoming f = .ok n f :=
  have hcalm := h.nodesFresh.calm
  DefFlow.Flow.pruneIncoming_ok hcalm.tables hcalm.unfrozen hcalm.fed

theorem flatten_ok (h : f.Sound) {c d : NodeId} (hrun : Edit.flatten c f = .ok d f') :
    f'.Sound := by
  obtain ⟨_, hrun₁⟩ := Edit.unfrozen_bind_ok hrun
  rw [Edit.bind_eq Edit.get_eq] at hrun₁
  dsimp only at hrun₁
  have hprune : ∀ {g : Func} {e : NodeId}, g.Sound →
      (do let _ ← Edit.pruneIncoming; return e : Edit NodeId) g = .ok d f' → f'.Sound := by
    intro g e hg hrun
    obtain ⟨n, hp⟩ := hg.pruneIncoming_ok
    rw [Edit.bind_eq hp] at hrun
    cases hrun
    exact hg
  cases hold : f.find? (if c = rootId then f.body.id else c) with
  | none =>
    rw [hold] at hrun₁
    exact hprune h hrun₁
  | some old =>
    rw [hold] at hrun₁
    dsimp only at hrun₁
    rw [Edit.bind_eq (registerUpTo_eq f _)] at hrun₁
    generalize hheld : f.hasParent (if c = rootId then f.body.id else c) = held at hrun₁
    by_cases hne : (old.flatten held f.nodes.next).1.ids ≠ old.ids
    · rw [if_pos hne] at hrun₁
      refine hprune (h.flattened hold ?_ rfl _) hrun₁
      rintro b rfl
      exact hne rfl
    · rw [if_neg hne] at hrun₁
      exact hprune (h.registered _) hrun₁

end

/-! ## Flattening the body -/

section

variable {f g : Func}

structure Mirrors (f g : Func) : Prop extends Reroots f g, SameEdges f g where
  vars : g.vars = f.vars

theorem mirrors_registered (f : Func) (n : Nat) : Mirrors f (f.registered n) where
  toReroots := reroots_registered f n
  blocks := by rw [Func.blocks, Func.blocks, registered_eq f n]
  preds := fun _ => by rw [Func.preds, Func.preds, Func.trees, Func.trees, registered_eq f n]
  vars := by rw [registered_eq f n]

/-- The flat form of a body leads to each block from the same blocks. -/
theorem mirrors_of_flattened (hf : f.Forest) (hg : g.Forest) (held : Bool)
    (hbody : g.body = (f.body.flatten held f.nodes.next).1) (hr : Reroots f g)
    (hvars : g.vars = f.vars) : Mirrors f g := by
  obtain ⟨extra, halike, -⟩ := flatten_alike held f.nodes.next f.body
  have hblocks : g.blocks = f.blocks := by
    rw [Func.blocks, Func.blocks, hbody]
    exact halike.blocks_one.trans (flatMap_grown_none _)
  refine ⟨hr, ⟨hblocks, fun {b} hb => ?_⟩, hvars⟩
  have hlt : b < f.nodes.next := Nat.lt_succ_of_le (hf.block_le hb).2
  have hstraight := flatten_straight held hlt f.body (not_mem_shells hf.body_nodup hb)
  obtain ⟨l, hl, hp⟩ := hf.preds_eq hb
  obtain ⟨l', hl', hp'⟩ := hg.preds_eq (hblocks ▸ hb)
  rw [hbody, ← predsElements_singleton, hstraight.preds, predsElements_singleton, hl,
    Option.some.injEq] at hl'
  rw [hp, hp', hl']

theorem Func.find?_body (f : Func) : f.find? f.body.id = some f.body := by
  rw [Func.find?, Func.trees, findAll?, find?_self]
  rfl

theorem flattenBody_eq (hu : f.frozen = false) : Edit.flatten rootId f = (do
      if (f.body.flatten (f.hasParent f.body.id) f.nodes.next).1.ids ≠ f.body.ids then
        Edit.changeAt f.body.id fun _ => (f.body.flatten (f.hasParent f.body.id) f.nodes.next).1
        Edit.touch
      let _ ← Edit.pruneIncoming
      return rootId : Edit NodeId) (f.registered
        ((f.body.flatten (f.hasParent f.body.id) f.nodes.next).2 - f.nodes.next)) := by
  rw [Edit.flatten, Edit.bind_eq (Edit.unfrozen_eq hu _), Edit.bind_eq Edit.get_eq]
  simp only [if_true, f.find?_body]
  rw [Edit.bind_eq (registerUpTo_eq f _)]

theorem flattenBody_ok (h : f.Sound) :
    ∃ g, Edit.flatten rootId f = .ok rootId g ∧ g.Sound ∧ Mirrors f g := by
  have hforest := h.nodesFresh.searchable.forest
  have hprune : ∀ {g : Func}, g.Sound →
      (do let _ ← Edit.pruneIncoming; return rootId : Edit NodeId) g = .ok rootId g := by
    intro g hg
    obtain ⟨n, hp⟩ := hg.pruneIncoming_ok
    exact Edit.bind_eq hp
  rw [flattenBody_eq h.nodesFresh.searchable.unfrozen]
  generalize f.hasParent f.body.id = held
  by_cases hne : (f.body.flatten held f.nodes.next).1.ids ≠ f.body.ids
  · have hblock : ∀ b, f.body ≠ .block b := fun b hb => hne (by rw [hb]; rfl)
    rw [if_pos hne]
    generalize hn : (f.body.flatten held f.nodes.next).2 - f.nodes.next = n
    have hsound := h.flattened f.find?_body hblock hn.symm ((f.registered n).generation + 1)
    refine ⟨_, hprune hsound, hsound, mirrors_of_flattened hforest
        hsound.nodesFresh.searchable.forest held
      ?_ ((reroots_registered f n).trans ⟨rfl, rfl, fun _ => rfl, rfl, rfl, rfl⟩) ?_⟩
    · rw [registered_eq]
      exact modify_self _ _
    · rw [registered_eq]
  · rw [if_neg hne]
    exact ⟨_, hprune (h.registered _), h.registered _, mirrors_registered _ _⟩

end

end DefFlow.Flow
