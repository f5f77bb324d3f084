import DefFlow.Proofs.Edits.Append
import DefFlow.Proofs.Edits.Relink

/-!
# Walks that are granted

A propagation binds nodes, and asks what leaves the blocks that it has come from. Where neither is
refused, the propagation is not, and it keeps whatever both keep. A function that answers every
question about a block of its body refuses neither, and whatever joins this builds, every block sees
what it saw before.
-/

set_option autoImplicit false

namespace DefFlow.Flow

open Func

/-- Binding nodes of `v`, and asking what leaves a block of `P` that leads somewhere, is granted and
keeps `I`. -/
structure Sustains (v : VarId) (P : NodeId → Prop) (I : Func → Prop) : Prop where
  linked : ∀ {f}, I f → f.Linked
  stored : ∀ {f b}, I f → P b → (f.nodes.get? b).isSome
  succ : ∀ {f b s}, I f → P b → s ∈ f.succs b → P s
  rebind : ∀ {f n i T}, I f → f.incoming.get? n = some i →
    f.Target (f.timelineAt i.owner).var T → ∃ c f', Edit.rebind n T f = .ok c f' ∧ I f'
  leaving : ∀ {f b s}, I f → P b → s ∈ f.succs b →
    ∃ T f', Edit.valueLeaving b v f = .ok T f' ∧ I f'

structure Func.Leads (f : Func) (v : VarId) (P : NodeId → Prop)
    (step : PropagationStep) : Prop where
  place : P step.block
  target : f.Target v step.value
  known : step.known = true ∨ step.cache = .ofBlocks [step.source] ∧ P step.source ∧
    step.block ∈ f.succs step.source

section

variable {f f' : Func} {v : VarId} {P : NodeId → Prop} {I : Func → Prop} {t : TimelineId}

theorem Func.Leads.weaves {step : PropagationStep} (h : f.Leads v P step) (hw : Weaves f f')
    (hf : f.Linked) : f'.Leads v P step where
  place := h.place
  target := h.target.weaves hw hf
  known := by
    rw [hw.toSameGraph.succs]
    exact h.known

namespace Sustains

theorem rebindNodes {o : Edit.Outlook} (h : Sustains v P I) (ho : o.leaving = Edit.valueLeaving)
    (hI : I f) {step : PropagationStep} {nodes : List IncomingId} (hn : f.NodesOf v nodes)
    (hs : f.Leads v P step) :
    ∃ k f', Edit.rebindNodes o v step.cache.take.1 step nodes f = .ok k f' ∧
        Weaves f f' ∧ I f' := by
  have hl := h.linked hI
  refine Edit.foldlM_run (fun _ _ g => Weaves f g ∧ I g) ?_ ⟨.refl hl, hI⟩
  rintro done n rest count g hsplit ⟨hg, hIg⟩
  have hm : n ∈ nodes := hsplit ▸ List.mem_append_right _ List.mem_cons_self
  have hsg := hs.weaves hg hl
  rw [Edit.bind_eq Edit.get_eq]
  split
  · exact ⟨count, g, rfl, hg, hIg⟩
  next hadmits =>
  -- The target is known, or is asked for at the predecessor of the node.
  have bind : ∀ {k : Func} {T : Option TimelineId}, Weaves g k → I k → k.Target v T →
      ∃ count' g', (do if ← Edit.rebind n T then return count + 1 else return count : Edit Nat) k =
        .ok count' g' ∧ Weaves f g' ∧ I g' := by
    intro k T hk hIk hT
    have hw := hg.trans hk
    obtain ⟨i, hi, hv⟩ := hn.weaves hw hl n hm
    obtain ⟨c, k', hrun, hIk'⟩ := h.rebind hIk hi (hv ▸ hT)
    refine ⟨if c then count + 1 else count, k', ?_,
      hw.trans (rebind_weaves hk.linked hi (hv ▸ hT) hrun), hIk'⟩
    rw [Edit.bind_eq hrun]
    cases c <;> rfl
  dsimp only
  split
  · exact bind (.refl hg.linked) hIg hsg.target
  · next hunknown =>
    obtain ⟨hcache, hsource, hsucc⟩ := hsg.known.resolve_left hunknown
    have hpred : (g.incomingAt n).pred = step.source := by
      simpa [hcache, IncomingCache.ofBlocks, IncomingCache.take, List.eraseDups_cons] using hadmits
    obtain ⟨T, k, hrun, hIk⟩ := h.leaving hIg (hpred ▸ hsource) (hpred ▸ hsucc)
    obtain ⟨hk, hT⟩ := valueLeaving_weaves hg.linked (h.stored hIg (hpred ▸ hsource)) hrun
    obtain ⟨count', g', hrun', hw⟩ := bind hk hIk hT
    refine ⟨count', g', ?_, hw⟩
    rw [ho, Edit.bind_eq hrun]
    exact hrun'

theorem spread {o : Edit.Outlook} (h : Sustains v P I) (ho : o.leaving = Edit.valueLeaving)
    {fuel : Nat} : ∀ {f : Func} (steps : List PropagationStep) (visited : List (NodeId × NodeId))
    (count : Nat), I f → (∀ step ∈ steps, f.Leads v P step) →
    ∃ k f', Edit.spread o v fuel steps visited count f = .ok k f' ∧ Weaves f f' ∧ I f' := by
  induction fuel with
  | zero => exact fun _ _ count hI _ => ⟨count, _, rfl, .refl (h.linked hI), hI⟩
  | succ fuel ih =>
    intro f steps visited count hI hsteps
    have hl := h.linked hI
    cases steps with
    | nil => exact ⟨count, f, rfl, .refl hl, hI⟩
    | cons step queue =>
      have hstep := hsteps step List.mem_cons_self
      obtain ⟨c, f₁, hnodes, hw, hI₁⟩ := h.rebindNodes ho hI
        (nodesOf_joinNodes hl.tables step.block v) hstep
      obtain ⟨r, hcarry⟩ := carriedOn_eq f₁ v o.mark step
      obtain ⟨-, hr⟩ := carriedOn_target hw.linked.tables (hstep.target.weaves hw hl) hcarry
      have hqueue : ∀ s ∈ queue, f₁.Leads v P s := fun s hm =>
        (hsteps s (List.mem_cons_of_mem _ hm)).weaves hw hl
      rw [Edit.spread, Edit.bind_eq Edit.get_eq, Edit.bind_eq hnodes, Edit.bind_eq hcarry]
      cases r with
      | none =>
        obtain ⟨k, f', hrun, hw', hI'⟩ := ih queue visited (count + c) hI₁ hqueue
        exact ⟨k, f', hrun, hw.trans hw', hI'⟩
      | some e =>
        obtain ⟨value, known⟩ := e
        dsimp only
        rw [Edit.bind_eq Edit.get_eq]
        let fresh := (f₁.succs step.block).filter fun s => !visited.contains (step.block, s)
        have hnext : ∀ s ∈ queue ++ fresh.map fun s =>
            (⟨s, step.block, value, known, .ofBlocks [step.block]⟩ : PropagationStep),
            f₁.Leads v P s := by
          intro s hm
          rcases List.mem_append.mp hm with hm | hm
          · exact hqueue s hm
          · obtain ⟨d, hd, rfl⟩ := List.mem_map.mp hm
            have hsucc := (List.mem_filter.mp hd).1
            exact ⟨h.succ hI₁ hstep.place hsucc, hr (value, known) rfl,
              .inr ⟨rfl, hstep.place, hsucc⟩⟩
        obtain ⟨k, f', hrun, hw', hI'⟩ := ih _ (visited ++ fresh.map fun s => (step.block, s))
          (count + c) hI₁ hnext
        exact ⟨k, f', hrun, hw.trans hw', hI'⟩

theorem propagate {x : Timeline} (h : Sustains x.var P I) (hI : I f) (hu : f.frozen = false)
    (hx : f.timelines.get? t = some x) (hb : P x.block) (cache : Option IncomingCache) :
    ∃ k f', Edit.propagate t cache f = .ok k f' ∧ Weaves f f' ∧ I f' := by
  rw [Edit.propagate, Edit.bind_eq (Edit.unfrozen_eq hu _), Edit.bind_eq Edit.get_eq,
    Edit.announce, Edit.bind_eq Edit.get_eq, timelineAt_of_get? hx]
  split
  · exact ⟨0, f, rfl, .refl (h.linked hI), hI⟩
  refine h.spread rfl _ _ 0 hI fun step hm => ?_
  obtain ⟨⟨s, i⟩, hs, rfl⟩ := List.mem_map.mp hm
  refine ⟨h.succ hI hb (List.fst_mem_of_mem_zipIdx hs), fun u hu => ?_, .inl rfl⟩
  cases hu
  exact ⟨x, hx, rfl⟩

end Sustains

end

end DefFlow.Flow

/-! ## Answering functions -/

namespace DefFlow.Flow

open Func

section

variable {f f' : Func} {b : NodeId} {v : VarId} {t : TimelineId} {n : IncomingId}
  {T : Option TimelineId}

/-! ## Binding a node -/

/-- An edit of targets only leaves what every block sees. -/
theorem Weaves.answers (hw : Weaves f f') (h : f.Ready) (hv : SameView f f') : Answers f f' where
  ready := ⟨hw.toSameGraph.forest h.forest, hw.linked.tables, hw.frozen.trans h.unfrozen,
    hw.retells h.forest h.retells⟩
  keeps := hw.toKeeps
  held := hw.held
  view _ hb := hv.view h.forest (hw.toSameGraph.forest h.forest) h.tables hw.linked.tables hb
  edged := hw.edged
  housed hh := fun {c w} hn => by
    rw [hw.blocks]
    refine hh (v := w) fun hnil => hn ?_
    rwa [← hw.linked.tables.joined?_eq_none, hv.joined?, h.tables.joined?_eq_none]

theorem rebind_granted (h : f.Ready) (hl : f.Linked) {i : Incoming}
    (hi : f.incoming.get? n = some i) (hT : f.Target (f.timelineAt i.owner).var T) :
    ∃ c f', Edit.rebind n T f = .ok c f' ∧ Weaves f f' ∧ Answers f f' := by
  obtain ⟨c, f', hrun, ht, hb⟩ := rebind_ok hl.tables hi hT
  have hw := rebind_weaves hl hi hT hrun
  refine ⟨c, f', hrun, hw, hw.answers h ⟨hw.blocks, hw.preds, fun b v => ?_, fun b v => ?_,
    fun b v => locals_of_held (hw.held b v)⟩⟩
  · exact hl.tables.explicit?_congr ht (fun _ => hw.id) (locals_of_held (hw.held b v))
        (hb.joinNodes b v)
  · rw [ht.joined?_eq, hl.tables.joined?_eq, hb.joinNodes, hb.same.id]

theorem valueLeaving_granted (h : f.Ready) (hl : f.Linked) (hb : b ∈ f.blocks) (v : VarId) :
    ∃ T f', Edit.valueLeaving b v f = .ok T f' ∧ Weaves f f' ∧ Answers f f' ∧ f'.Target v T := by
  obtain ⟨T, f', hrun, ha⟩ := h.valueLeaving hb v
  obtain ⟨x, hx⟩ := h.forest.stored_block hb
  obtain ⟨hw, hT⟩ := valueLeaving_weaves hl (by rw [hx]; rfl) hrun
  exact ⟨T, f', hrun, hw, ha, hT⟩

/-! ## Walking -/

/-- A timeline of the body is announced, and every block of the body sees what it saw before. -/
theorem propagate_granted (h : f.Ready) (hl : f.Linked) {x : Timeline}
    (hx : f.timelines.get? t = some x) (hb : x.block ∈ f.blocks) (cache : Option IncomingCache) :
    ∃ k f', Edit.propagate t cache f = .ok k f' ∧ Weaves f f' ∧ Answers f f' := by
  have hblocks : ∀ {g}, Weaves f g → g.blocks = f.blocks := fun hw => hw.blocks
  have hsustains : Sustains x.var (· ∈ f.blocks) fun g => Weaves f g ∧ Answers f g := {
    linked := fun hg => hg.1.linked
    stored := fun hg hb => by
      obtain ⟨y, hy⟩ := hg.2.ready.forest.stored_block (hblocks hg.1 ▸ hb)
      rw [hy]
      rfl
    succ := fun hg hb hs => by
      rw [← hblocks hg.1] at hb ⊢
      exact hg.2.ready.forest.succ_mem hb hs
    rebind := fun hg hi hT => by
      obtain ⟨c, g', hrun, hw, ha⟩ := rebind_granted hg.2.ready hg.1.linked hi hT
      exact ⟨c, g', hrun, hg.1.trans hw, hg.2.trans ha⟩
    leaving := fun hg hb _ => by
      obtain ⟨T, g', hrun, hw, ha, -⟩ :=
        valueLeaving_granted hg.2.ready hg.1.linked (hblocks hg.1 ▸ hb) x.var
      exact ⟨T, g', hrun, hg.1.trans hw, hg.2.trans ha⟩ }
  obtain ⟨k, f', hrun, -, hg⟩ := hsustains.propagate ⟨.refl hl, .refl h⟩ h.unfrozen hx hb cache
  exact ⟨k, f', hrun, hg⟩

end

end DefFlow.Flow
