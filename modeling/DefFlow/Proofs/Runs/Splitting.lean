import DefFlow.Proofs.Edits.Progress
import DefFlow.Proofs.Edits.Walk
import DefFlow.Proofs.Runs.Recall

/-!
# Splits that are refused

A block can be split at every position behind its phis, unless it is the condition of a loop, in
whatever tree it stands: its timelines can be divided, and what the second half defines can be
announced. The second half of the condition of a fork has to be put beside the fork, though, and
that of the block after a loop beside the loop. Where these have no parent the split is refused,
but only after the block has been cut.
-/

set_option autoImplicit false

namespace DefFlow.Flow

open Func Component

section

variable {f f' f₁ f₂ : Func} {b b' : NodeId} {v : VarId} {t : TimelineId} {n : Nat}

/-! ## Announcements in any tree -/

/-- The value that leaves a block with a parent can be asked for. -/
theorem Func.Consistent.valueLeaving_ok (h : f.Consistent) (hb : (f.nodes.get? b).isSome)
    (hp : f.hasParent b = true) (v : VarId) :
    ∃ T f', Edit.valueLeaving b v f = .ok T f' ∧ Weaves f f' ∧ f'.Target v T := by
  obtain ⟨s, g, hstack, r, hr⟩ := h.stackAt_ok hb hp v
  have hrun : ∃ T f', Edit.valueLeaving b v f = .ok T f' := by
    rw [Edit.valueLeaving, Edit.bind_eq Edit.get_eq]
    cases f.explicit? b v with
    | some t => exact ⟨_, _, rfl⟩
    | none =>
      have hresolve : Edit.resolveAt b v f = .ok r g := (Edit.bind_eq hstack).trans (Edit.ask_eq hr)
      exact ⟨_, _, Edit.bind_eq hresolve⟩
  obtain ⟨T, f', hrun⟩ := hrun
  exact ⟨T, f', hrun, valueLeaving_weaves h.linked hb hrun⟩

/-- A timeline of a function that can be edited can be announced, wherever its block is. -/
theorem propagate_anywhere (h : f.Consistent) (hu : f.frozen = false) {x : Timeline}
    (hx : f.timelines.get? t = some x) (cache : Option IncomingCache) :
    ∃ k f', Edit.propagate t cache f = .ok k f' ∧ Weaves f f' := by
  have hconsistent : ∀ {g}, Weaves f g → g.Consistent := fun hw => hw.toRelinks.consistent h
  have hsustains : Sustains x.var (fun b => (f.nodes.get? b).isSome) (Weaves f) := {
    linked := fun hg => hg.linked
    stored := fun hg hb => (hg.stored _).trans hb
    succ := fun {g b s} hg hb hs => by
      rw [← hg.stored] at hb ⊢
      have hs := ((hconsistent hg).forest.mem_of_succ
          (((hconsistent hg).stocked.stored b).mpr hb) hs).2
      exact ((hconsistent hg).stocked.stored s).mp hs
    rebind := fun hg hi hT => by
      obtain ⟨c, g', hrun, -, -⟩ := rebind_ok hg.linked.tables hi hT
      exact ⟨c, g', hrun, hg.trans (rebind_weaves hg.linked hi hT hrun)⟩
    leaving := fun {g b s} hg hb hs => by
      rw [← hg.stored] at hb
      have hparent := ((hconsistent hg).forest.mem_of_succ
        (((hconsistent hg).stocked.stored b).mpr hb) hs).1
      obtain ⟨T, g', hrun, hw, -⟩ := (hconsistent hg).valueLeaving_ok hb hparent x.var
      exact ⟨T, g', hrun, hg.trans hw⟩ }
  obtain ⟨k, f', hrun, hw, -⟩ := hsustains.propagate (.refl h.linked) hu hx
    (stored_of_timelineId? (h.linked.tables.listed hx)) cache
  exact ⟨k, f', hrun, hw⟩

/-! ## Settling the halves -/

theorem splitTimeline_granted (t : TimelineId) (b' : NodeId) (f : Func) :
    (Edit.splitTimeline t b').Granted f := by
  refine .step Edit.get_eq ?_
  dsimp only
  split
  · exact ⟨_, _, rfl⟩
  · refine .bind ?_ fun t' f' _ => ⟨_, _, rfl⟩
    refine .step Edit.get_eq ?_
    split <;> exact ⟨_, _, rfl⟩

theorem splitTimelines_granted (b' : NodeId) (lists : List (VarId × TimelineId)) (f : Func) :
    Edit.Granted (lists.filterMapM fun e => Edit.splitTimeline e.2 b') f := by
  induction lists generalizing f with
  | nil => exact ⟨_, _, rfl⟩
  | cons e lists ih =>
    rw [List.filterMapM_cons]
    refine .bind (splitTimeline_granted e.2 b' f) fun r f₁ _ => ?_
    cases r with
    | none => exact ih f₁
    | some t => exact .bind (ih f₁) fun out f₂ _ => ⟨_, _, rfl⟩

theorem moveEdges_granted (b b' : NodeId) (f : Func) : (Edit.moveEdges b b').Granted f := by
  have hloop : ∃ f', Edit.moveEdges b b' f = .ok () f' ∧ True := by
    rw [Edit.moveEdges, Edit.bind_eq Edit.get_eq]
    refine Edit.forIn_run (k := fun _ => pure ()) (fun _ _ => True) (fun _ n _ g _ _ => ?_) trivial
    by_cases hmoves : (decide ((f.incomingAt n).pred = b) &&
        (f.succs b').contains (f.timelineAt (f.incomingAt n).owner).block) = true
    · exact ⟨_, by rw [if_pos hmoves]; rfl, trivial⟩
    · exact ⟨g, by rw [if_neg hmoves]; rfl, trivial⟩
  exact ⟨(), hloop.imp fun _ h => h.1⟩

theorem settleHalves_granted (h : f.WellFormed) (hu : f.frozen = false)
    (hb : (f.nodes.get? b).isSome)
    (hh : Halves b f.nodes.next n f f₁) (hmemo : f₁.memo = f.memo)
    (hphi : (f.blockAt b).phiCount ≤ n) (hr : Restocks f₁ f₂) :
    (Edit.settleHalves b f.nodes.next (f.blockAt b).timelines).Granted f₂ := by
  refine .bind (splitTimelines_granted _ _ _) fun out f₃ hparted => ?_
  refine .bind (moveEdges_granted _ _ _) fun u f₄ hmoved => ?_
  refine .bind ⟨_, _, rfl⟩ fun u' f₅ htouch => ?_
  obtain ⟨hposts, hmoves, hcorrect, hout⟩ :=
    halves_memoCorrect h hb hh hmemo hphi hr hparted hmoved htouch
  have hu₅ : f₅.frozen = false := by
    rw [hmoves.rest]
    exact hposts.frozen.trans (hr.frozen.trans (hh.frozen.trans hu))
  obtain ⟨f', hloop, -⟩ : ∃ f', (do
      for t in out do
        let _ ← Edit.propagate t (some (.ofBlocks [f.nodes.next]))
      return f.nodes.next : Edit NodeId) f₅ = .ok f.nodes.next f' ∧ Weaves f₅ f' := by
    refine Edit.forIn_run (k := fun _ => pure f.nodes.next) (fun _ g => Weaves f₅ g)
      (fun done t rest g hl hg => ?_) (.refl hcorrect.linked)
    obtain ⟨c, w, hid⟩ := hout t (hl ▸ List.mem_append_right _ List.mem_cons_self)
    obtain ⟨x, hx, -⟩ := hg.linked.tables.placed (hg.id hid)
    obtain ⟨k, g', hrun, hw⟩ := propagate_anywhere (hg.toRelinks.consistent hcorrect.toConsistent)
      (hg.frozen.trans hu₅) hx _
    exact ⟨g', by rw [Edit.bind_eq hrun]; rfl, hg.trans hw⟩
  exact ⟨_, f', hloop⟩

/-! ## Refusals -/

def Func.splitRefusal? (f : Func) (b : ComponentRef) (position : Int) : Option EditError :=
  if position < (f.blockAt b.id).phiCount ∨ (f.code b.id).length < position then
    some ⟨.split, .splitPosition b.label position⟩
  else
    match f.parent? b.id with
    | none => none
    | some (s, role) =>
      if role = .loopCondition then some ⟨.split, .splitLoopCondition b.label⟩
      else if f.hasParent s then none
      else role.spoken.map fun kind => ⟨.replaceInParent, .detachedComponent kind s⟩

/-- A block has been cut, and nothing else has been done with its two halves. -/
structure CutOnly (b : NodeId) (n : Nat) (f f' : Func) : Prop where
  front : f'.code b = (f.code b).take n
  back : f'.code f.nodes.next = (f.code b).drop n
  timelines : f'.timelines = f.timelines
  incoming : f'.incoming = f.incoming

section

variable {ref : ComponentRef} {position : Int}

theorem split_out_of_place (hu : f.frozen = false) (hown : ref.owner = f.handle)
    (hout : position < (f.blockAt ref.id).phiCount ∨ (f.code ref.id).length < position) :
    Edit.split ref position f = .error ⟨.split, .splitPosition ref.label position⟩ f := by
  have hno : (decide (((f.blockAt ref.id).phiCount : Int) ≤ position) &&
      decide (position ≤ (f.blockAt ref.id).instructions.length)) = false := by
    rw [Func.code] at hout
    rw [Bool.and_eq_false_iff, decide_eq_false_iff_not, decide_eq_false_iff_not]
    omega
  rw [Edit.split, Edit.bind_eq (Edit.unfrozen_eq hu _), Edit.bind_eq Edit.get_eq,
    Edit.bind_eq (Edit.require_eq (decide_eq_true hown) _ _)]
  exact Edit.bind_error (by rw [Edit.require, hno]; rfl)

theorem split_loopCondition {s : NodeId} (hu : f.frozen = false) (hown : ref.owner = f.handle)
    (hin : ((f.blockAt ref.id).phiCount : Int) ≤ position ∧ position ≤ (f.code ref.id).length)
    (hp : f.parent? ref.id = some (s, .loopCondition)) :
    Edit.split ref position f = .error ⟨.split, .splitLoopCondition ref.label⟩ f := by
  rw [Edit.split, Edit.bind_eq (Edit.unfrozen_eq hu _), Edit.bind_eq Edit.get_eq,
    Edit.bind_eq (Edit.require_eq (decide_eq_true hown) _ _),
    Edit.bind_eq (Edit.require_eq (by simpa [Func.code] using hin) _ _)]
  exact Edit.bind_error (by rw [hp]; rfl)

theorem split_granted (h : f.WellFormed) (hu : f.frozen = false) (hb : (f.nodes.get? ref.id).isSome)
    (hs : f.Splits ref position)
    (hroom : ∀ s role, f.parent? ref.id = some (s, role) → role.spoken.isSome →
      f.hasParent s = true) : (Edit.split ref position).Granted f := by
  obtain ⟨f₁, hh, hmemo, hstocked, heq⟩ := split_eq h hu hb hs
  have hparent := parent?_of_adds hh.toAdds
  have hnew : (f₁.nodes.get? f.nodes.next).isSome := by
    rw [hh.stored, decide_eq_true rfl, Bool.true_or]
  have hloop : ∀ s, f₁.parent? ref.id ≠ some (s, .loopCondition) := fun s hp =>
    hs.parent s (hparent _ ▸ hp)
  obtain ⟨u, f₂, hplaced⟩ := placeSecondHalf_granted hstocked (hh.bodyHeld.trans h.held)
    (hh.frozen.trans hu) hnew (hh.detached ▸ List.mem_append_right _ List.mem_cons_self)
    (ne_next_of_stored hb) hloop fun s role hp hr => by
      rw [hasParent, hparent]
      exact hroom s role (hparent _ ▸ hp) hr
  have hr := placeSecondHalf_restocks hstocked (by rw [hh.stored, hb, Bool.or_true]) hnew hloop
    hplaced
  obtain ⟨b', f', hfreshNodes⟩ := settleHalves_granted h hu hb hh hmemo hs.phis_le hr
  exact ⟨b', f', heq.trans ((Edit.bind_eq hplaced).trans hfreshNodes)⟩

/-- Where the second half has to be put beside a structure without a parent, the split is refused
when the block has been cut already. -/
theorem split_rootless {s : NodeId} {role : Role} {k : Kind} (h : f.WellFormed)
    (hu : f.frozen = false)
    (hb : (f.nodes.get? ref.id).isSome) (hs : f.Splits ref position)
    (hp : f.parent? ref.id = some (s, role)) (hk : role.spoken = some k)
    (hout : f.hasParent s = false) :
    ∃ f', Edit.split ref position f = .error ⟨.replaceInParent, .detachedComponent k s⟩ f' ∧
      CutOnly ref.id position.toNat f f' := by
  obtain ⟨f₁, hh, -, hstocked, heq⟩ := split_eq h hu hb hs
  have hparent := parent?_of_adds hh.toAdds
  obtain ⟨f', hrefused, hr⟩ := placeSecondHalf_refused hstocked (hh.bodyHeld.trans h.held)
    (hh.frozen.trans hu) (by rw [hh.stored, decide_eq_true rfl, Bool.true_or])
    (hh.detached ▸ List.mem_append_right _ List.mem_cons_self) ((hparent _).trans hp) hk
    (by rw [hasParent, hparent]; exact hout)
  refine ⟨f', heq.trans (Edit.bind_error hrefused), ?_⟩
  exact ⟨(hr.code _).trans hh.front, (hr.code _).trans hh.back, hr.timelines.trans hh.timelines,
    hr.incoming.trans hh.incoming⟩

theorem splits_of_no_refusal (hown : ref.owner = f.handle)
    (hnone : f.splitRefusal? ref position = none) : f.Splits ref position ∧
      ∀ s role, f.parent? ref.id = some (s, role) → role.spoken.isSome → f.hasParent s = true := by
  rw [splitRefusal?] at hnone
  split at hnone
  · cases hnone
  next hin =>
  rw [not_or, not_lt, not_lt] at hin
  refine ⟨⟨hown, hin.1, hin.2, fun s hp => ?_⟩, fun s role hp hspoken => ?_⟩
  · rw [hp] at hnone
    cases hnone
  · obtain ⟨k, hk⟩ := Option.isSome_iff_exists.mp hspoken
    rw [hp] at hnone
    dsimp only at hnone
    split at hnone
    · cases hnone
    split at hnone
    · assumption
    · rw [hk] at hnone
      cases hnone

end

/-- Whatever has been done to a function, a split is refused if the position is not behind the phis
of the block and within it, or the block is the condition of a loop, and then the function stays as
it is. It is refused as well, with the block cut already, if the block is the condition of a fork or
follows a loop and the structure has no parent. Every other split is granted, in whatever tree. -/
theorem split_refused_only_for_place {b : ComponentRef} (h : Reached f) (hu : f.frozen = false)
    (hb : f.hasBlock b.id = true) (hown : b.owner = f.handle) (position : Int) :
    (f.splitRefusal? b position = none → ∃ b' f', Edit.split b position f = .ok b' f') ∧
      ∀ e, f.splitRefusal? b position = some e → ∃ f', Edit.split b position f = .error e f' ∧
        (e.operation = .split ∧ f' = f ∨
          e.operation = .replaceInParent ∧ CutOnly b.id position.toNat f f') := by
  have hk := h.wellFormed
  refine ⟨fun hnone => ?_, fun e he => ?_⟩
  · obtain ⟨hs, hroom⟩ := splits_of_no_refusal hown hnone
    exact split_granted hk hu hb hs hroom
  rw [splitRefusal?] at he
  split at he
  · next hout =>
    cases he
    exact ⟨f, split_out_of_place hu hown hout, .inl ⟨rfl, rfl⟩⟩
  next hin =>
  rw [not_or, not_lt, not_lt] at hin
  split at he
  · cases he
  next s role hp =>
  split at he
  · next hloop =>
    cases he
    exact ⟨f, split_loopCondition hu hown hin (hloop ▸ hp), .inl ⟨rfl, rfl⟩⟩
  next hloop =>
  split at he
  · cases he
  next hout =>
  obtain ⟨k, hspoken, rfl⟩ := Option.map_eq_some_iff.mp he
  have hs : f.Splits b position := ⟨hown, hin.1, hin.2, fun s' hs' => by
    rw [hp] at hs'
    cases hs'
    exact hloop rfl⟩
  obtain ⟨f', hrun, hcut⟩ := split_rootless hk hu hb hs hp hspoken (Bool.not_eq_true _ ▸ hout)
  exact ⟨f', hrun, .inr ⟨rfl, hcut⟩⟩

def asideFork : List Request :=
  [.addVariable "x" .bool, .newFork none [], .appendInst 3 .undef (some ⟨0, 1, "x", .bool, 0⟩) []]

theorem split_cuts_aside_fork : ∃ f f', Reached f ∧
    Edit.split ⟨0, 3, .block, "cond_0"⟩ 0 f =
      .error ⟨.replaceInParent, .detachedComponent .fork 4⟩ f' ∧
    f.code 3 = [1] ∧ f'.code 3 = [] ∧ f'.code f.nodes.next = [1] := by
  obtain ⟨f, hf, hfacts⟩ := Reached.exists_of_requests 0 "f" asideFork
    (fun f => decide (f.frozen = false ∧ f.hasBlock 3 = true ∧ f.handle = 0 ∧ f.code 3 = [1] ∧
      f.splitRefusal? ⟨0, 3, .block, "cond_0"⟩ 0 =
        some ⟨.replaceInParent, .detachedComponent .fork 4⟩)) (by decide +kernel)
  obtain ⟨hu, hb, hown, hcode, hrefusal⟩ := of_decide_eq_true hfacts
  obtain ⟨f', hrun, hcut⟩ := (split_refused_only_for_place (b := ⟨0, 3, .block, "cond_0"⟩) hf hu hb
    hown.symm 0).2 _ hrefusal
  obtain ⟨-, hcut⟩ := hcut.resolve_left nofun
  refine ⟨f, f', hf, hrun, hcode, ?_, ?_⟩
  · rw [hcut.front, hcode]
    rfl
  · rw [hcut.back, hcode]
    rfl

end

end DefFlow.Flow
