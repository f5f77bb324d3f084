import DefFlow.Proofs.Edits.Spread
import Mathlib.Data.List.ProdSigma

/-!
# The walk of a propagation

Main statement: when every stale node of a variable stands behind a block that has
just started to decide it, a propagation from that block leaves no node stale.
-/

set_option autoImplicit false

namespace DefFlow.Flow

open Func

def queuedEdges (queue : List PropagationStep) : List (NodeId × NodeId) :=
  queue.map fun step => (step.source, step.block)

structure Spreading (g : Func) (v : VarId) (b : NodeId) (n : Nat) (queue : List PropagationStep)
    (visited : List (NodeId × NodeId)) (f : Func) : Prop where
  searchable : f.Searchable
  advances : Advances v g f
  fuel : n + visited.length = g.edgeBound + 1 + queue.length
  once : visited.Nodup
  edge : ∀ e ∈ visited, e.1 ∈ g.blocks ∧ e.2 ∈ g.succs e.1
  queued : ∀ step ∈ queue, (step.source, step.block) ∈ visited
  admits : ∀ step ∈ queue, step.cache.take.1 = [step.source]
  knows : ∀ step ∈ queue, f.Knows v step.source step.known step.value
  start : ∀ s ∈ g.succs b, (b, s) ∈ visited
  closed : ∀ e ∈ visited, e ∈ queuedEdges queue ∨ g.Decides v e.2 ∨
    ∀ s ∈ g.succs e.2, (e.2, s) ∈ visited
  nodes : ∀ x, ∀ e ∈ f.feeds x v, f.Fresh v e.1 e.2 ∨
    (Departs g.preds (g.Decides v) e.1 (some b) ∧
      ((e.1, x) ∈ visited → (e.1, x) ∈ queuedEdges queue))

namespace Spreading

variable {g f f' : Func} {v : VarId} {b : NodeId} {n : Nat} {queue : List PropagationStep}
  {visited : List (NodeId × NodeId)}

theorem visited_length (h : Spreading g v b n queue visited f) (hg : g.Searchable) :
    visited.length ≤ g.edgeBound := by
  have hsub : visited ⊆ g.blocks ×ˢ g.blocks := by
    intro e he
    obtain ⟨h₁, h₂⟩ := h.edge e he
    exact List.mem_product.mpr ⟨h₁, hg.forest.succ_mem h₁ h₂⟩
  calc visited.length
      ≤ (g.blocks ×ˢ g.blocks).length := (List.subperm_of_subset h.once hsub).length_le
    _ = g.blocks.length * g.blocks.length := List.length_product _ _
    _ ≤ g.edgeBound := Nat.mul_le_mul hg.forest.blocks_length hg.forest.blocks_length

/-- The walk has always steps left for what is in its queue. -/
theorem fuel_pos (h : Spreading g v b n queue visited f) (hg : g.Searchable) : 0 < n := by
  have hle := h.visited_length hg
  have hfuel := h.fuel
  omega

/-- When nothing is left in the queue, every block that `b` is seen from has been
reached. -/
theorem reached (h : Spreading g v b n [] visited f) (hg : g.Searchable) {x : NodeId}
    {a : Option NodeId} (ha : a = some b) (hx : x ∈ g.blocks)
    (hs : Arrives g.preds (g.Decides v) x a) : ∃ p, (p, x) ∈ visited := by
  induction hs with
  | start _ => cases ha
  | leaves hp _ =>
    cases ha
    have hb := hg.forest.pred_mem hx hp
    exact ⟨b, h.start _ ((hg.forest.mem_preds_iff_mem_succs hb hx).mp hp)⟩
  | @passes x p s hp ho _ ih =>
    have hpb := hg.forest.pred_mem hx hp
    obtain ⟨q, hq⟩ := ih ha hpb
    rcases h.closed _ hq with hq | hq | hq
    · cases hq
    · exact absurd hq ho
    · exact ⟨p, hq x ((hg.forest.mem_preds_iff_mem_succs hpb hx).mp hp)⟩

theorem fresh (h : Spreading g v b n [] visited f) (hg : g.Searchable) (hfed : g.Fed) :
    ∀ x, ∀ e ∈ f.feeds x v, f.Fresh v e.1 e.2 := by
  intro x e he
  rcases h.nodes x e he with hf | ⟨hd, hv⟩
  · exact hf
  obtain ⟨hx, hp⟩ := h.advances.fed hfed e he
  rw [h.advances.keeps.blocks] at hx
  rw [h.advances.keeps.preds] at hp
  have hpb := hg.forest.pred_mem hx hp
  have hs : x ∈ g.succs e.1 := (hg.forest.mem_preds_iff_mem_succs hpb hx).mp hp
  have hvisited : (e.1, x) ∈ visited := by
    rcases hd with ⟨_, hb⟩ | ⟨ho, ha⟩
    · cases hb
      exact h.start x hs
    · obtain ⟨q, hq⟩ := h.reached hg rfl hpb ha
      rcases h.closed _ hq with hq | hq | hq
      · cases hq
      · exact absurd hq ho
      · exact hq x hs
  cases hv hvisited

/-- What taking the first edge of the queue does to the invariant. -/
theorem next {step : PropagationStep} (hg : g.Searchable) (hfed : g.Fed)
    (h : Spreading g v b (n + 1) (step :: queue) visited f) (hw : f'.Searchable)
        (ha : Advances v f f')
    (hbound : ∀ n ∈ f.joinNodes step.block v, (f'.incomingAt n).pred = step.source →
      f'.Fresh v step.source (f'.incomingAt n).target)
    (more : List NodeId) (T : Option TimelineId) (known : Bool) (hmore : more.Nodup)
    (hnew : ∀ s ∈ more, s ∈ g.succs step.block ∧ (step.block, s) ∉ visited)
    (hon : g.Decides v step.block ∨
      ∀ s ∈ g.succs step.block, (step.block, s) ∈ visited ∨ s ∈ more)
    (hk : more ≠ [] → f'.Knows v step.block known T) :
    Spreading g v b n
      (queue ++ more.map fun s => ⟨s, step.block, T, known, .ofBlocks [step.block]⟩)
      (visited ++ more.map fun s => (step.block, s)) f' := by
  have hblocks := h.advances.keeps.blocks
  have hstep := h.queued step List.mem_cons_self
  have hblock : step.block ∈ g.blocks :=
    hg.forest.succ_mem (h.edge _ hstep).1 (h.edge _ hstep).2
  have hsrc : ∀ s ∈ queue, s.source ∈ f.blocks := fun s hs =>
    hblocks ▸ (h.edge _ (h.queued s (List.mem_cons_of_mem _ hs))).1
  have hqueued : queuedEdges (queue ++ more.map fun s =>
      (⟨s, step.block, T, known, .ofBlocks [step.block]⟩ : PropagationStep)) =
      queuedEdges queue ++ more.map fun s => (step.block, s) := by
    simp [queuedEdges, Function.comp_def]
  refine {
    searchable := hw
    advances := h.advances.trans hg.forest hfed ha
    fuel := ?_
    once := ?_
    edge := ?_
    queued := ?_
    admits := ?_
    knows := ?_
    start := fun s hs => List.mem_append_left _ (h.start s hs)
    closed := ?_
    nodes := ?_ }
  · have := h.fuel
    simp only [List.length_append, List.length_map, List.length_cons] at this ⊢
    omega
  · refine List.nodup_append.mpr ⟨h.once, ?_, ?_⟩
    · exact hmore.map fun s s' hss => (Prod.mk.inj hss).2
    · rintro e he e' he' rfl
      obtain ⟨s, hs, rfl⟩ := List.mem_map.mp he'
      exact (hnew s hs).2 he
  · intro e he
    rcases List.mem_append.mp he with he | he
    · exact h.edge e he
    · obtain ⟨s, hs, rfl⟩ := List.mem_map.mp he
      exact ⟨hblock, (hnew s hs).1⟩
  · intro s hs
    rcases List.mem_append.mp hs with hs | hs
    · exact List.mem_append_left _ (h.queued s (List.mem_cons_of_mem _ hs))
    · obtain ⟨t, ht, rfl⟩ := List.mem_map.mp hs
      exact List.mem_append_right _ (List.mem_map.mpr ⟨t, ht, rfl⟩)
  · intro s hs
    rcases List.mem_append.mp hs with hs | hs
    · exact h.admits s (List.mem_cons_of_mem _ hs)
    · obtain ⟨t, _, rfl⟩ := List.mem_map.mp hs
      rfl
  · intro s hs
    rcases List.mem_append.mp hs with hs | hs
    · exact (h.knows s (List.mem_cons_of_mem _ hs)).advances ha (hsrc s hs)
    · obtain ⟨t, ht, rfl⟩ := List.mem_map.mp hs
      exact hk (List.ne_nil_of_mem ht)
  · intro e he
    rw [hqueued]
    rcases List.mem_append.mp he with he | he
    · rcases h.closed e he with hq | hd | hs
      · rcases List.mem_cons.mp hq with rfl | hq
        · rcases hon with hd | hs
          · exact Or.inr (Or.inl hd)
          · refine Or.inr (Or.inr fun s hss => List.mem_append.mpr
                ((hs s hss).imp_right fun hm => ?_))
            exact List.mem_map.mpr ⟨s, hm, rfl⟩
        · exact Or.inl (List.mem_append_left _ hq)
      · exact Or.inr (Or.inl hd)
      · exact Or.inr (Or.inr fun s hss => List.mem_append_left _ (hs s hss))
    · exact Or.inl (List.mem_append_right _ he)
  · intro x e he
    rw [hqueued]
    rcases ha.joins x v with hj | hj
    · rw [Func.feeds, hj] at he
      obtain ⟨m, hm, rfl⟩ := List.mem_map.mp he
      have hpred := ha.pred hm
      have hold := h.nodes x _ (mem_feeds hm)
      simp only at hold ⊢
      rw [← hpred] at hold
      by_cases hedge : ((f'.incomingAt m).pred, x) = (step.source, step.block)
      · obtain ⟨h₁, rfl⟩ := Prod.mk.inj hedge
        exact Or.inl (h₁ ▸ hbound m hm h₁)
      · refine hold.imp (fun hfr => ?_) (And.imp_right fun hv hvis => ?_)
        · exact ha.fresh_target (h.advances.fed hfed) h.searchable.forest hm (hpred ▸ hfr)
        · rcases List.mem_append.mp hvis with hvis | hvis
          · rcases List.mem_cons.mp (hv hvis) with heq | hq
            · exact absurd heq hedge
            · exact List.mem_append_left _ hq
          · exact List.mem_append_right _ hvis
    · exact Or.inl (hj.fresh e he)

end Spreading

/-! ## The whole walk -/

section

variable {g f : Func} {v : VarId} {b : NodeId}

def outlookOf (g : Func) : Edit.Outlook := ⟨g.incoming.size, Edit.valueLeaving⟩

theorem spread_ok (hg : g.Searchable) (hfed : g.Fed) (n : Nat) :
    ∀ {queue visited f} (count : Nat), Spreading g v b n queue visited f →
      ∃ c f' m visited', Edit.spread (outlookOf g) v n queue visited count f = .ok c f' ∧
        Spreading g v b m [] visited' f' := by
  induction n with
  | zero => exact fun _ h => absurd (h.fuel_pos hg) (Nat.lt_irrefl 0)
  | succ n ih =>
    intro queue visited f count h
    cases queue with
    | nil => exact ⟨count, f, n + 1, visited, rfl, h⟩
    | cons step queue =>
      have hk := h.knows step List.mem_cons_self
      have hedge := h.edge _ (h.queued step List.mem_cons_self)
      have hblock : step.block ∈ g.blocks := hg.forest.succ_mem hedge.1 hedge.2
      obtain ⟨c, f₁, hrun, hw₁, ha₁, hbound⟩ := rebindNodes_ok (x := step.block) h.searchable
        (h.advances.fed hfed) (h.advances.keeps.blocks ▸ hedge.1) (o := outlookOf g) rfl hk
      have ha := h.advances.trans hg.forest hfed ha₁
      have hsrc : step.source ∈ f₁.preds step.block := by
        rw [ha.keeps.preds]
        exact (hg.forest.mem_preds_iff_mem_succs hedge.1 hblock).mpr hedge.2
      obtain ⟨r, hr, hstop, hon⟩ := carriedOn_ok hg.tables ha hw₁ hsrc
        (hk.advances ha₁ (h.advances.keeps.blocks ▸ hedge.1))
      rw [Edit.spread, Edit.bind_eq Edit.get_eq, h.admits step List.mem_cons_self,
        Edit.bind_eq hrun]
      cases r with
      | none =>
        have hnext := h.next hg hfed hw₁ ha₁ hbound [] none false List.nodup_nil
          (by simp) (Or.inl (hstop rfl)) (by simp)
        simp only [List.map_nil, List.append_nil] at hnext
        obtain ⟨c', f', m, visited', hrest, h'⟩ := ih (count + c) hnext
        exact ⟨c', f', m, visited', (Edit.bind_eq hr).trans hrest, h'⟩
      | some carried =>
        obtain ⟨T, known⟩ := carried
        have hsuccs : f₁.succs step.block = g.succs step.block := by rw [ha.keeps.succs]
        have hnext := h.next hg hfed hw₁ ha₁ hbound
          ((f₁.succs step.block).filter fun s => !visited.contains (step.block, s)) T known
          ((hsuccs ▸ hg.forest.succs_nodup hblock).filter _)
          (fun s hs => by
            rw [hsuccs, List.mem_filter] at hs
            exact ⟨hs.1, by simpa using hs.2⟩)
          (Or.inr fun s hs => by
            by_cases hv : (step.block, s) ∈ visited
            · exact Or.inl hv
            · exact Or.inr (List.mem_filter.mpr ⟨hsuccs ▸ hs, by simpa using hv⟩))
          (fun _ => hon T known rfl)
        obtain ⟨c', f', m, visited', hrest, h'⟩ := ih (count + c) hnext
        refine ⟨c', f', m, visited', ?_, h'⟩
        exact (Edit.bind_eq hr).trans ((Edit.bind_eq Edit.get_eq).trans hrest)

theorem spreading_start (hg : g.Searchable) (hb : b ∈ g.blocks) {t : TimelineId}
    (ht : g.explicit? b v = some t)
    (hstale : ∀ x, ∀ e ∈ g.feeds x v, g.Fresh v e.1 e.2 ∨
      Departs g.preds (g.Decides v) e.1 (some b))
    {steps : List PropagationStep}
    (hedges : queuedEdges steps = (g.succs b).map fun s => (b, s))
    (hadmits : ∀ step ∈ steps, step.cache.take.1 = [b])
    (hvalue : ∀ step ∈ steps, step.value = some t) :
    Spreading g v b (g.edgeBound + 1) steps ((g.succs b).map fun s => (b, s)) g := by
  have hsource : ∀ step ∈ steps, step.source = b ∧ step.block ∈ g.succs b := by
    intro step hstep
    have hm : (step.source, step.block) ∈ (g.succs b).map fun s => (b, s) :=
      hedges ▸ List.mem_map_of_mem hstep
    obtain ⟨s, hs, he⟩ := List.mem_map.mp hm
    obtain ⟨h₁, rfl⟩ := Prod.mk.inj he
    exact ⟨h₁.symm, hs⟩
  exact {
    searchable := hg
    advances := .refl hg.tables
    fuel := by rw [← hedges, queuedEdges, List.length_map]
    once := (hg.forest.succs_nodup hb).map fun s s' hss => (Prod.mk.inj hss).2
    edge := fun e he => by
      obtain ⟨s, hs, rfl⟩ := List.mem_map.mp he
      exact ⟨hb, hs⟩
    queued := fun step hstep => hedges ▸ List.mem_map_of_mem hstep
    admits := fun step hstep => (hsource step hstep).1.symm ▸ hadmits step hstep
    knows := fun step hstep _ => by
      rw [(hsource step hstep).1, hvalue step hstep]
      exact fresh_of_explicit? ht
    start := fun s hs => List.mem_map.mpr ⟨s, hs, rfl⟩
    closed := fun e he => Or.inl (hedges ▸ he)
    nodes := fun x e he => (hstale x e he).imp_right fun hd => ⟨hd, fun hv => hedges ▸ hv⟩ }

/-- A propagation from a block that decides `v`, if all stale nodes are behind it. -/
theorem propagate_ok (hg : g.Searchable) (hfed : g.Fed) (hb : b ∈ g.blocks) {t : TimelineId}
    (ht : g.explicit? b v = some t)
    (hstale : ∀ x, ∀ e ∈ g.feeds x v, g.Fresh v e.1 e.2 ∨
      Departs g.preds (g.Decides v) e.1 (some b))
    {cache : Option IncomingCache} (hcache : cache.getD (.ofBlocks [b]) = .ofBlocks [b]) :
    ∃ c f', Edit.propagate t cache g = .ok c f' ∧ f'.Searchable ∧ Advances v g f' ∧
      ∀ x, ∀ e ∈ f'.feeds x v, f'.Fresh v e.1 e.2 := by
  have hid := timelineId?_of_explicit? ht
  have hblock := hg.tables.block_eq hid
  have hvar := hg.tables.var_eq hid
  have hstart : Spreading g v b (g.edgeBound + 1)
      ((g.succs b).zipIdx.map fun p =>
        ⟨p.1, b, some t, true, if p.2 = 0 then cache.getD (.ofBlocks [b]) else .ofBlocks [b]⟩)
      ((g.succs b).map fun s => (b, s)) g := by
    refine spreading_start hg hb ht hstale ?_ (fun step hstep => ?_) (fun step hstep => ?_)
    · simp only [queuedEdges, List.map_map]
      conv_rhs => rw [← List.zipIdx_map_fst 0 (g.succs b)]
      rw [List.map_map]
      rfl
    · obtain ⟨⟨s, i⟩, _, rfl⟩ := List.mem_map.mp hstep
      simp only [hcache, ite_self]
      rfl
    · obtain ⟨⟨s, i⟩, _, rfl⟩ := List.mem_map.mp hstep
      rfl
  obtain ⟨c, f', m, visited, hrun, h'⟩ := spread_ok hg hfed _ 0 hstart
  refine ⟨c, f', ?_, h'.searchable, h'.advances, h'.fresh hg hfed⟩
  rw [Edit.propagate, Edit.bind_eq (Edit.unfrozen_eq hg.unfrozen _), Edit.bind_eq Edit.get_eq,
    Edit.announce, Edit.bind_eq Edit.get_eq]
  simp only [hblock, hvar, hg.forest.hasParent hb]
  exact hrun

end

end DefFlow.Flow
