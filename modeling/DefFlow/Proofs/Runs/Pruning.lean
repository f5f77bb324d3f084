import DefFlow.Proofs.Edits.Dissolve
import DefFlow.Proofs.Edits.Prune
import DefFlow.Proofs.Runs.Recall

/-!
# What a pruning repairs

Main statement: whatever has been removed from a function, a pruning succeeds unless a node that
stays is bound to an emptied timeline of a block that stands by itself; no question can be asked
about such a block. Where it succeeds the nodes without an edge are gone, and no other, and none is
left bound to a timeline that decides nothing unless it was so before. A flattening prunes what
was stale before, since it keeps all edges.

Where all nodes belong to blocks of the body,
    the function can be flattened. The blocks and the edges
of the body keep their order, and every structure that is left in it is needed, so that a second
flattening changes no tree.
-/

set_option autoImplicit false

namespace DefFlow.Flow

open Func

section

variable {f g h : Func} {n : IncomingId} {t : TimelineId} {i : Incoming}

namespace Dissolves

theorem incomingAt (hd : Dissolves f g) (n : IncomingId) : g.incomingAt n = f.incomingAt n := by
  rw [Func.incomingAt, Func.incomingAt, hd.incoming]

theorem stale (hd : Dissolves f g) (ht : f.Tables) (hi : f.incoming.get? n = some i) :
    g.stale n = f.stale n := by
  have hstored := stored_of_timelineId? (ht.listed_at (ht.owner_live hi))
  rw [Func.stale, Func.stale, hd.incomingAt, hd.timelineAt, incomingAt_of_get? hi, hd.preds hstored]

theorem emptied (hd : Dissolves f g) (ht : f.Tables) (t : TimelineId) :
    g.emptied t = f.emptied t := by
  rw [Func.emptied, Func.emptied, hd.timelineAt]
  congr 1
  rw [Bool.eq_iff_iff, List.all_eq_true, List.all_eq_true]
  refine forall₂_congr fun n hn => ?_
  obtain ⟨i, hi, -⟩ := ht.mem_incoming.mp hn
  rw [hd.stale ht hi]

theorem stranded (hd : Dissolves f g) (ht : f.Tables) : g.Stranded ↔ f.Stranded := by
  refine exists_congr fun t => ?_
  rw [hd.emptied ht, hd.incoming, hd.timelineAt]
  refine and_congr_right fun he => ?_
  have hlive := (mem_joinedTimelines.mp (mem_joinedTimelines_of_emptied he)).1
  rw [hd.parent (stored_of_timelineId? (ht.listed_at hlive))]
  refine and_congr_right fun _ => exists_congr fun n => exists_congr fun i => ?_
  exact and_congr_right fun hi => by rw [hd.stale ht hi]

theorem repaired (hd : Dissolves f g) (ht : f.Tables) (hr : g.Repaired h) : f.Repaired h where
  removed hi hs := hr.removed (hd.incoming ▸ hi) ((hd.stale ht hi).trans hs)
  stays hi hs := hr.stays (hd.incoming ▸ hi) ((hd.stale ht hi).trans hs)
  edge := hr.edge
  loose hl := by
    obtain ⟨i, hi, hit, hexp⟩ := hr.loose hl
    exact ⟨i, hd.incoming ▸ hi, hit, by rw [← hd.timelineAt]; exact hexp⟩

end Dissolves

/-- A pruning of a function in any state is refused exactly where a node is stranded. Where it
succeeds it has removed the stale nodes, each counted once, and no other; every node that is there
stands for an edge, and none has come loose. A flattening does the same to the nodes. -/
theorem pruning_repairs (h : Reached f) (hu : f.frozen = false) :
    ((∃ k g, Edit.pruneIncoming f = .ok k g) ↔ ¬ f.Stranded) ∧
      (∀ k g, Edit.pruneIncoming f = .ok k g → f.Pruned k g) ∧
      ∀ c, ((∃ d g, Edit.flatten c f = .ok d g) ↔ ¬ f.Stranded) ∧
        ∀ d g, Edit.flatten c f = .ok d g → f.Repaired g := by
  have hk := h.wellFormed.toConsistent
  have ht := hk.linked.tables
  obtain ⟨hok, hpruned⟩ := hk.pruneIncoming_ok_iff hu
  refine ⟨hok, fun k g hrun => hpruned hrun, fun c => ?_⟩
  obtain ⟨f₁, e, heq, hd⟩ := flatten_eq hk hu c
  obtain ⟨hok₁, hpruned₁⟩ := (hd.consistent hk).pruneIncoming_ok_iff (hd.frozen.trans hu)
  have hback : ∀ {d g}, Edit.flatten c f = .ok d g → ∃ k, Edit.pruneIncoming f₁ = .ok k g := by
    intro d g hrun
    rw [heq] at hrun
    obtain ⟨k, g', hprune, hrun⟩ := Edit.bind_ok hrun
    cases hrun
    exact ⟨k, hprune⟩
  refine ⟨?_, fun d g hrun => ?_⟩
  · rw [← hd.stranded ht, ← hok₁]
    constructor
    · rintro ⟨d, g, hrun⟩
      obtain ⟨k, hprune⟩ := hback hrun
      exact ⟨k, g, hprune⟩
    · rintro ⟨k, g, hprune⟩
      exact ⟨e, g, by rw [heq, Edit.bind_eq hprune]; rfl⟩
  · obtain ⟨k, hprune⟩ := hback hrun
    exact hd.repaired ht (hpruned₁ hprune).toRepaired

def joinBehindJoin : List Request :=
  [.addVariable "x" (.int 64), .newBlock "left", .newBlock "right",
    .newFork none [⟨0, 3, .block, "left"⟩, ⟨0, 4, .block, "right"⟩], .newBlock "join",
    .newBlock "left", .newBlock "right",
    .newFork none [⟨0, 8, .block, "left"⟩, ⟨0, 9, .block, "right"⟩], .newBlock "use",
    .appendElement 2 ⟨0, 6, .fork, ""⟩, .appendElement 2 ⟨0, 7, .block, "join"⟩,
    .appendElement 2 ⟨0, 11, .fork, ""⟩, .appendElement 2 ⟨0, 12, .block, "use"⟩,
    .appendInst 3 .undef (some ⟨0, 1, "x", .int 64, 0⟩) [],
    .appendInst 4 .undef (some ⟨0, 1, "x", .int 64, 0⟩) [],
    .appendInst 8 .undef (some ⟨0, 1, "x", .int 64, 0⟩) [],
    .resolve ⟨0, 12, .block, "use"⟩ ⟨0, 1, "x", .int 64, 0⟩, .removeElement 2 1]

theorem joinBehindJoin_strands : ∃ f, Reached f ∧ f.Stranded ∧
    (¬ ∃ k g, Edit.pruneIncoming f = .ok k g) ∧ ¬ ∃ d g, Edit.flatten rootId f = .ok d g := by
  obtain ⟨f, hf, hfacts⟩ := Reached.exists_of_requests 0 "f" joinBehindJoin
    (fun f => decide (f.frozen = false ∧ f.emptied 4 = true ∧
      f.hasParent (f.timelineAt 4).block = false ∧
      (f.incoming.get? 4).map Incoming.target = some (some 4) ∧ f.stale 4 = false))
    (by decide +kernel)
  obtain ⟨hu, he, hp, hn, hs⟩ := of_decide_eq_true hfacts
  obtain ⟨i, hi, hit⟩ := Option.map_eq_some_iff.mp hn
  have hstranded : f.Stranded := ⟨4, he, hp, 4, i, hi, hit, hs⟩
  obtain ⟨hprune, -, hflatten⟩ := pruning_repairs hf hu
  exact ⟨f, hf, hstranded, fun hok => hprune.mp hok hstranded,
    fun hok => (hflatten rootId).1.mp hok hstranded⟩

end

end DefFlow.Flow

/-! ## Flattening -/

namespace DefFlow.Flow

open Func Component

section

variable {f g : Func}

theorem Func.Tables.housed_iff (ht : f.Tables) :
    f.Housed ↔ ∀ n ∈ f.incoming.live, (f.timelineAt (f.incomingAt n).owner).block ∈ f.blocks := by
  constructor
  · intro hh n hn
    obtain ⟨i, hi⟩ := Option.isSome_iff_exists.mp ((Arena.mem_live _).mp hn)
    rw [incomingAt_of_get? hi]
    exact hh (List.ne_nil_of_mem (ht.mem_joinNodes hi))
  · intro h b v hne
    obtain ⟨n, hn⟩ := List.exists_mem_of_ne_nil _ hne
    obtain ⟨t, i, hid, hi, ho⟩ := ht.get?_of_mem hn
    have hblock := h n ((Arena.mem_live _).mpr (by rw [hi]; rfl))
    rwa [incomingAt_of_get? hi, ho, ht.block_eq hid] at hblock

/-- A timeline with nodes belongs to a block of the body, which has a parent. -/
theorem not_stranded_of_housed (hf : f.Forest) (ht : f.Tables) (hh : f.Housed) :
    ¬ f.Stranded := by
  rintro ⟨t, he, hp, -⟩
  obtain ⟨hlive, hne⟩ := mem_joinedTimelines.mp (mem_joinedTimelines_of_emptied he)
  rw [← ht.joinNodes_eq (ht.listed_at hlive)] at hne
  rw [hf.hasParent (hh hne)] at hp
  cases hp

/-- Where every node stands for an edge, no timeline is emptied. -/
theorem Func.Repaired.not_stranded (hr : f.Repaired g) (ht : g.Tables) : ¬ g.Stranded := by
  rintro ⟨t, he, -⟩
  obtain ⟨n, hn⟩ := List.exists_mem_of_ne_nil _
    (mem_joinedTimelines.mp (mem_joinedTimelines_of_emptied he)).2
  obtain ⟨i, hi, -⟩ := ht.mem_incoming.mp hn
  rw [emptied, Bool.and_eq_true] at he
  have hstale := List.all_eq_true.mp he.2 n hn
  rw [stale, incomingAt_of_get? hi] at hstale
  simp [hr.edge hi] at hstale

theorem Dissolves.housed (hd : Dissolves f g) (hh : f.Housed) : g.Housed := by
  intro b v hne
  rw [hd.order]
  exact hh (hd.toSameRecords.joinNodes b v ▸ hne)

/-- A flattening of a function whose nodes all belong to the body keeps the blocks and their
ordered edges, and makes the body simple. A second one changes no tree. -/
theorem flatten_normalizes (h : Reached f) (hu : f.frozen = false) (hh : f.Housed) :
    ∃ g, Edit.flatten rootId f = .ok rootId g ∧ g.blocks = f.blocks ∧
      (∀ b ∈ f.blocks, g.preds b = f.preds b ∧ g.succs b = f.succs b) ∧ g.body.Simple ∧
      ∃ k, Edit.flatten rootId g = .ok rootId k ∧ k.trees = g.trees := by
  have hf := h.wellFormed.toConsistent
  obtain ⟨f₁, heq, hd, hbody⟩ := flattenBody_dissolves hf hu
  have hf₁ := hd.consistent hf
  obtain ⟨hok, hpruned⟩ := hf₁.pruneIncoming_ok_iff (hd.frozen.trans hu)
  obtain ⟨c, g, hprune⟩ := hok.mpr
    (not_stranded_of_housed hf₁.forest hf₁.linked.tables (hd.housed hh))
  have hg := hpruned hprune
  have hsimple : g.body.Simple := by
    rw [hg.body, hbody]
    exact flatten_simple _ _
  refine ⟨g, heq.trans (Edit.bind_eq hprune), hg.blocks.trans hd.order, fun b hb => ?_, hsimple, ?_⟩
  · have hstored := hf.forest.stored b (mem_blocksAll.mpr ⟨f.body, List.mem_cons_self, hb⟩)
    rw [hg.preds, hg.succs]
    exact ⟨hd.preds hstored, hd.succs hstored⟩
  · have hug : g.frozen = false := (hg.frozen.trans hd.frozen).trans hu
    have hconsistent := (pruneIncoming_relinks hf₁.linked hprune).consistent hf₁
    obtain ⟨hok', hpruned'⟩ := hconsistent.pruneIncoming_ok_iff hug
    obtain ⟨d, k, hprune'⟩ := hok'.mpr (hg.toRepaired.not_stranded hconsistent.linked.tables)
    refine ⟨k, ?_, (hpruned' hprune').trees⟩
    rw [flattenBody_of_simple hug hsimple]
    exact Edit.bind_eq hprune'

def needlessShells : List Request :=
  [.addVariable "x" (.int 64), .newBlock "left", .newBlock "right",
    .newFork none [⟨0, 3, .block, "left"⟩, ⟨0, 4, .block, "right"⟩], .newBlock "join",
    .newSequence [⟨0, 7, .block, "join"⟩], .newSequence [⟨0, 6, .fork, ""⟩, ⟨0, 8, .seq, ""⟩],
    .newBlock "only", .newFork none [⟨0, 10, .block, "only"⟩], .appendElement 2 ⟨0, 9, .seq, ""⟩,
    .appendElement 2 ⟨0, 12, .fork, ""⟩,
    .appendInst 3 .undef (some ⟨0, 1, "x", .int 64, 0⟩) [],
    .appendInst 4 .undef (some ⟨0, 1, "x", .int 64, 0⟩) [],
    .resolve ⟨0, 7, .block, "join"⟩ ⟨0, 1, "x", .int 64, 0⟩]

theorem needlessShells_flat : ∃ f g, Reached f ∧ f.joinNodes 7 1 ≠ [] ∧
    f.body.ids = [2, 9, 6, 5, 3, 4, 8, 7, 12, 11, 10] ∧
    Edit.flatten rootId f = .ok rootId g ∧ g.body.Simple := by
  obtain ⟨f, hf, hfacts⟩ := Reached.exists_of_requests 0 "f" needlessShells
    (fun f => decide (f.frozen = false ∧ f.joinNodes 7 1 ≠ [] ∧
      (∀ n ∈ f.incoming.live, (f.timelineAt (f.incomingAt n).owner).block ∈ f.blocks) ∧
      f.body.ids = [2, 9, 6, 5, 3, 4, 8, 7, 12, 11, 10]))
    (by decide +kernel)
  obtain ⟨hu, hne, hhoused, hbody⟩ := of_decide_eq_true hfacts
  obtain ⟨g, hrun, -, -, hsimple, -⟩ := flatten_normalizes hf hu
    (hf.wellFormed.linked.tables.housed_iff.mpr hhoused)
  exact ⟨f, g, hf, hne, hbody, hrun, hsimple⟩

end

end DefFlow.Flow
