import DefFlow.Proofs.Edits.Flatten
import DefFlow.Proofs.Edits.Phi
import DefFlow.Proofs.Edits.Remove
import DefFlow.Proofs.Edits.Undefined
import DefFlow.Proofs.Reaching.Expansion
import Mathlib.Logic.Relation
import Mathlib.Tactic.IntervalCases

/-!
# Runs of calls

A function that has no nodes yet is sound, every edit and every question about a block of
its body keeps it sound, and so does a run of them. Main statement: whatever calls a function has
gone through, the answer about a position expands to exactly what reaches the position along the
paths.
-/

set_option autoImplicit false

namespace DefFlow.Flow

open Func

/-- A function that can be edited, in which no join has been built, and to whose entry nothing
leads: control that has left it does not come back. -/
structure Func.Unjoined (f : Func) : Prop where
  forest : f.Forest
  enters : f.Enters
  tables : f.Tables
  scheduled : f.Scheduled
  unfrozen : f.frozen = false
  memo : f.Remembers
  nodes : ∀ n, f.incoming.get? n = none

theorem Func.Unjoined.sound {f : Func} (h : f.Unjoined) : f.Sound where
  nodesFresh := {
    searchable := ⟨h.forest, h.enters, h.tables, h.unfrozen, h.memo⟩
    complete := fun {b v} _ hne => absurd (h.tables.joinNodes_of_no_nodes h.nodes b v) hne
    inside := fun {b v} hne => absurd (h.tables.joinNodes_of_no_nodes h.nodes b v) hne
    fresh := fun {b v} _ he =>
      absurd (h.tables.joinNodes_of_no_nodes h.nodes b v) (ne_nil_of_mem_feeds he) }
  scheduled := h.scheduled

theorem Func.unjoined_of_blank {f : Func} (hf : f.Forest) (he : f.Enters)
    (hblank : ∀ b, (f.blockAt b).instructions = [] ∧ (f.blockAt b).phiCount = 0 ∧
      (f.blockAt b).timelines = []) (hi : f.insts = .empty) (ht : f.timelines = .empty)
    (hn : f.incoming = .empty) (hfrozen : f.frozen = false) (hm : f.memo = []) : f.Unjoined := by
  have hid : ∀ b v, f.timelineId? b v = none := fun b v => by
    rw [Func.timelineId?, (hblank b).2.2]
    rfl
  have hinst : ∀ i, f.insts.get? i = none := fun i => by rw [hi, Arena.get?_empty]
  have htl : ∀ t, f.timelines.get? t = none := fun t => by rw [ht, Arena.get?_empty]
  have hnode : ∀ n, f.incoming.get? n = none := fun n => by rw [hn, Arena.get?_empty]
  have hcode : ∀ b, f.code b = [] := fun b => (hblank b).1
  exact {
    forest := hf
    enters := he
    tables := {
      placed := fun {b v t} h => by rw [hid] at h; cases h
      listed := fun {t x} h => by rw [htl] at h; cases h
      sorted := fun b => by rw [(hblank b).2.2]; exact List.Pairwise.nil
      owner := fun {t x n} h => by rw [htl] at h; cases h
      node := fun {n i} h => by rw [hnode] at h; cases h
      nodes_nodup := fun {t x} h => by rw [htl] at h; cases h
      target := fun {n i t} h => by rw [hnode] at h; cases h
      referrer := fun {t x n} h => by rw [htl] at h; cases h
      referrers_nodup := fun {t x} h => by rw [htl] at h; cases h }
    scheduled := {
      place := fun {b k i} h => by rw [hcode] at h; cases h
      home := fun {i x b} h => by rw [hinst] at h; cases h
      phis := fun b => by rw [(hblank b).2.1]; exact Nat.zero_le _
      locals := fun b v => by rw [locals_of_none (hid b v), hcode]; rfl }
    unfrozen := hfrozen
    memo := remembers_of_nil hm
    nodes := hnode }

/-! A new function has a body without blocks. -/

theorem get?_nodes_new (handle : Nat) (name : String) (b : NodeId) :
    (Func.new handle name).nodes.get? b = none := by
  rw [show (Func.new handle name).nodes = Arena.empty.skip.skip from rfl, Arena.get?_skip,
    Arena.get?_skip, Arena.get?_empty]

theorem blockAt_new (handle : Nat) (name : String) (b : NodeId) :
    (Func.new handle name).blockAt b = default := by
  rw [Func.blockAt, get?_nodes_new]
  rfl

theorem timeline?_new (handle : Nat) (name : String) (b : NodeId) (v : VarId) :
    (Func.new handle name).timeline? b v = none := by
  rw [Func.timeline?, Func.timelineId?, blockAt_new]
  rfl

theorem bounded_new {handle : Nat} {name : String} {i : Nat}
    (hi : i ∈ Component.idsAll (Func.new handle name).trees) : 1 < i ∧ i ≤ 2 := by
  obtain rfl := List.mem_singleton.mp hi
  exact ⟨Nat.lt_add_one 1, Nat.le_refl 2⟩

theorem new_unjoined (handle : Nat) (name : String) : (Func.new handle name).Unjoined := by
  refine unjoined_of_blank ⟨rfl, List.nodup_singleton 2, fun i hi => bounded_new hi, ?_⟩ ?_
    (fun b => by rw [blockAt_new]; exact ⟨rfl, rfl, rfl⟩) rfl rfl rfl rfl rfl
  · rintro b ⟨⟩
  · rintro b ⟨⟩

/-- A block that ends in a fork of two further ones, which meet in a fourth. -/
def diamond : Func := { Func.new 0 "diamond" with
  body := .seq 2 [.fork 3 4 [.block 5, .block 6], .block 7]
  nodes := (((Arena.empty.skip.skip.skip.push ⟨"fork", [], 0, []⟩).push
    ⟨"left", [], 0, []⟩).push ⟨"right", [], 0, []⟩).push ⟨"end", [], 0, []⟩
  blockCount := 4
  vars := [⟨0, 1, "x", .bool, 0⟩] }

theorem diamond_unjoined : diamond.Unjoined := by
  have hforest : diamond.Forest := ⟨rfl, by decide, by decide, by decide⟩
  refine unjoined_of_blank hforest (fun b hb => ?_) (fun (b : Nat) => ?_) rfl rfl rfl rfl rfl
  · cases hb
    decide
  · by_cases hb : b < 8
    · interval_cases b <;> decide
    · have hsize : diamond.nodes.size = 7 := by decide
      rw [Func.blockAt, Arena.get?_eq_none_of_lt _ (by omega)]
      decide

/-! ## Questions -/

section

variable {f f' : Func} {b : NodeId} {v : VarId}

theorem Refines.scheduled (h : Refines f f') (hs : f.Scheduled) : f'.Scheduled :=
  hs.congr h.keeps.instructions h.keeps.phiCount h.locals fun i => by rw [h.keeps.insts]

theorem stackAt_sound (h : f.Sound) (hb : b ∈ f.blocks) {s : Stack}
    (hrun : Edit.stackAt b v f = .ok s f') : f'.Sound ∧ Refines f f' := by
  obtain ⟨s', f₁, hrun', hw, hres, _⟩ := stackAt_ok h.nodesFresh.searchable hb v
  rw [hrun'] at hrun
  cases hrun
  have hr := hres.refines h.nodesFresh.searchable
  exact ⟨⟨h.nodesFresh.refines hw hr, hr.scheduled h.scheduled⟩, hr⟩

theorem resolveAt_sound (h : f.Sound) (hb : b ∈ f.blocks) {r : Resolution}
    (hrun : Edit.resolveAt b v f = .ok r f') : f'.Sound ∧ Refines f f' := by
  obtain ⟨s, f₁, hstack, hrun⟩ := Edit.bind_ok hrun
  obtain ⟨_, rfl⟩ := Edit.ask_ok hrun
  exact stackAt_sound h hb hstack

theorem remembers_probed (h : f.Remembers) (b : NodeId) (v : VarId) (s : Stack) :
    ({ f with memo := (⟨b, v, true⟩, s) :: f.memo } : Func).Remembers := by
  intro c w s' hs hc
  rw [lookup_cons_of_ne (by simp)] at hs
  obtain ⟨r, hr, hshows⟩ := h hs hc
  have hview := sameView_memo f ((⟨b, v, true⟩, s) :: f.memo)
  exact ⟨r, hview.resolution hr, hview.shows hshows⟩

theorem reprobe_sound (h : f.Sound) {c : ComponentRef} {x : Variable} {r : Resolution}
    (hrun : Edit.reprobe c x f = .ok r f') : f'.Sound := by
  rw [Edit.reprobe, Edit.ownQuery, bind_assoc, Edit.bind_eq Edit.get_eq] at hrun
  obtain ⟨-, hrun⟩ := Edit.require_bind_ok hrun
  obtain ⟨s, f₁, hanswer, hresolution⟩ := Edit.bind_ok hrun
  obtain rfl := (Edit.ask_ok hresolution).2
  -- A probe builds nothing.
  obtain ⟨-, ⟨-, rfl⟩ | ⟨-, s₀, g, -, rfl, ⟨-, -, rfl⟩ | ⟨hbuilds, -⟩⟩⟩ := Edit.answer_cases hanswer
  · exact h
  · exact ⟨(h.nodesFresh.calm.memo _).nodesFresh
        (remembers_probed h.nodesFresh.searchable.memo c.id x.id s),
      h.scheduled.congr (fun _ => rfl) (fun _ => rfl) (fun _ _ => rfl) fun _ => rfl⟩
  · cases hbuilds

theorem resolveAll_sound (h : f.Sound) {n : Nat} (hrun : Edit.resolveAll f = .ok n f') :
    f'.Sound ∧ Refines f f' := by
  refine Edit.resolveAll_ok (I := fun g => g.Sound ∧ Refines f g) (fun hb _ _ => hb)
    (fun {b v s g g'} hb hg hstack => ?_) ⟨h, .refl h.nodesFresh.searchable.tables⟩ hrun
  obtain ⟨hg, hr⟩ := hg
  obtain ⟨hg', hr'⟩ := stackAt_sound hg (hr.keeps.blocks ▸ hb) hstack
  exact ⟨hg', hr.trans h.nodesFresh.searchable.forest hr'⟩

end

/-! ## Calls -/

/-- A call that has succeeded, on a block of the body or on the function as a whole. A block of any
tree can be probed. -/
inductive Calls (f f' : Func) : Prop
  | append {b : NodeId} {code : Opcode} {dest : Option Variable} {args : List Arg} {i : InstId}
      (hb : b ∈ f.blocks) (h : Edit.appendInst b code dest args f = .ok i f')
  | prepend {b : NodeId} {code : Opcode} {dest : Option Variable} {args : List Arg} {i : InstId}
      (hb : b ∈ f.blocks) (h : Edit.prependInst b code dest args f = .ok i f')
  | insertBefore {b : NodeId} {r : InstRef} {code : Opcode} {dest : Option Variable}
      {args : List Arg} {i : InstId} (hb : b ∈ f.blocks)
      (h : Edit.insertInstBefore b r code dest args f = .ok i f')
  | remove {b : NodeId} {r : InstRef} {u : Unit} (hb : b ∈ f.blocks)
      (h : Edit.removeInst b r f = .ok u f')
  | createPhi {b : NodeId} {v : Variable} {i : InstId} (hb : b ∈ f.blocks)
      (h : Edit.createPhi b v f = .ok i f')
  | split {b : ComponentRef} {position : Int} {b' : NodeId} (hb : b.id ∈ f.blocks)
      (h : Edit.split b position f = .ok b' f')
  | flatten {c d : NodeId} (h : Edit.flatten c f = .ok d f')
  | defineUndefined {vars : List Variable} (h : Edit.defineUndefined f = .ok vars f')
  | resolve {b : ComponentRef} {v : Variable} {r : Resolution} (hb : b.id ∈ f.blocks)
      (h : Edit.resolve b v f = .ok r f')
  | probe {b : ComponentRef} {v : Variable} {r : Resolution} (hb : (f.nodes.get? b.id).isSome)
      (h : Edit.reprobe b v f = .ok r f')
  | resolveAll {n : Nat} (h : Edit.resolveAll f = .ok n f')

abbrev Runs : Func → Func → Prop := Relation.ReflTransGen Calls

theorem Calls.sound {f f' : Func} (hc : Calls f f') (h : f.Sound) : f'.Sound := by
  cases hc with
  | append hb hrun => exact (appendInst_ok h hb hrun).1
  | prepend hb hrun => exact prependInst_ok h hb hrun
  | insertBefore hb hrun => exact insertInstBefore_ok h hb hrun
  | remove hb hrun => exact removeInst_ok h hb hrun
  | createPhi hb hrun => exact createPhi_ok h hb hrun
  | split hb hrun => exact split_ok h hb hrun
  | flatten hrun => exact flatten_ok h hrun
  | defineUndefined hrun => exact defineUndefined_ok h hrun
  | resolve hb hrun =>
    rw [Edit.resolve, Edit.ownQuery, bind_assoc, Edit.bind_eq Edit.get_eq] at hrun
    exact (resolveAt_sound h hb (Edit.require_bind_ok hrun).2).1
  | probe _ hrun => exact reprobe_sound h hrun
  | resolveAll hrun => exact (resolveAll_sound h hrun).1

theorem Runs.sound {f f' : Func} (hr : Runs f f') (h : f.Sound) : f'.Sound := by
  induction hr with
  | refl => exact h
  | tail _ hc ih => exact hc.sound ih

end DefFlow.Flow

/-! ## Questions about positions -/

namespace DefFlow.Flow

open Func

section

variable {f : Func}

theorem Func.Sound.reachingAt_ok (h : f.Sound) {ref : ComponentRef} {x : Variable} {position : Nat}
    (hown : ref.owner = f.handle ∧ x.owner = f.handle) (hb : ref.id ∈ f.blocks)
    (hp : position ≤ (f.code ref.id).length) :
    ∃ r f', Edit.reachingAt ref position x f = .ok r f' ∧
      ∀ d, Expands f' r d ↔ f.Reaches x.id ref.id position d := by
  have hsearchable := h.nodesFresh.searchable
  rw [Edit.reachingAt, Edit.bind_eq Edit.get_eq]
  cases hl : f.latestDefBefore? ref.id position x.id with
  | some i =>
    refine ⟨.defined i, f, rfl, fun d => ?_⟩
    rw [reaches_of_latest h.scheduled hsearchable.forest hsearchable.enters hb hp hl]
    constructor
    · rintro ⟨⟩
      rfl
    · rintro rfl
      exact .defined i
  | none =>
    obtain ⟨r, f', hrun, hw, hres, hshows⟩ := resolveAt_ok hsearchable hb x.id
    have hr := hres.refines hsearchable
    have hquery : Edit.resolve ref x f = .ok r f' := by
      rw [Edit.resolve, Edit.ownQuery, bind_assoc, Edit.bind_eq Edit.get_eq,
        Edit.bind_eq (Edit.require_eq (by simpa using hown) _ _)]
      exact hrun
    refine ⟨Edit.reachingOf f' r, f', ?_, fun d => ?_⟩
    · dsimp only
      rw [Edit.bind_eq hquery]
      rfl
    · rw [(h.nodesFresh.refines hw hr).expands_answer_iff (hr.keeps.blocks ▸ hb) hshows,
        reaches_of_quiet h.scheduled hsearchable.forest hsearchable.enters hb hp hl, hr.keeps.preds,
        hr.defining, hr.lastDef]

/-- After any run of calls the answer about a position expands to exactly the definitions
that reach it, and to nothing defined if a path from the entry does. -/
theorem reachingAt_expands_to_reaching {f g : Func} (hf : f.Unjoined) (hrun : Runs f g)
    {ref : ComponentRef} {x : Variable} {position : Nat}
    (hown : ref.owner = g.handle ∧ x.owner = g.handle) (hb : ref.id ∈ g.blocks)
    (hp : position ≤ (g.code ref.id).length) :
    ∃ r g', Edit.reachingAt ref position x g = .ok r g' ∧
      ∀ d, Expands g' r d ↔ g.Reaches x.id ref.id position d :=
  (hrun.sound hf.sound).reachingAt_ok hown hb hp

/-- A definition in one of the branches is seen where they meet, and so is that the other
branch has none. -/
theorem reachingAt_expands_behind_fork : ∃ i g r g',
    Edit.appendInst 5 .undef (some ⟨0, 1, "x", .bool, 0⟩) [] diamond = .ok i g ∧
    Edit.reachingAt ⟨0, 7, .block, "end"⟩ 0 ⟨0, 1, "x", .bool, 0⟩ g = .ok r g' ∧
    ∀ d, Expands g' r d ↔ g.Reaches 1 7 0 d := by
  obtain ⟨i, g, happend⟩ : ∃ i g,
    Edit.appendInst 5 .undef (some ⟨0, 1, "x", .bool, 0⟩) [] diamond = .ok i g := ⟨_, _, rfl⟩
  have hin : 5 ∈ diamond.blocks := by decide
  have hsame := (appendInst_ok diamond_unjoined.sound hin happend).2
  have hcalls : Runs diamond g := .single (.append hin happend)
  obtain ⟨r, g', hrun, hexpands⟩ := @reachingAt_expands_to_reaching _ _ diamond_unjoined hcalls
    ⟨0, 7, .block, "end"⟩ ⟨0, 1, "x", .bool, 0⟩ 0
    ⟨hsame.handle.symm, hsame.handle.symm⟩ (hsame.blocks ▸ by decide) (Nat.zero_le _)
  exact ⟨i, g, r, g', happend, hrun, hexpands⟩

end

end DefFlow.Flow
