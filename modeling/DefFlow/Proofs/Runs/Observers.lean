import DefFlow.Proofs.Runs.Recall

/-!
# Who observes what

In every function that is reached, the lists of a block agree with its code: instructions know
their places, the phis come first, the timelines list the definitions, and each use is listed
once, for the definition that it observes. So a use observes what its place sees.
-/

set_option autoImplicit false

namespace DefFlow.Flow

open Func Account

namespace Func

/-- The uses that a block lists for a definition of `v`, or for what flows in. -/
def observers (f : Func) (b : NodeId) (v : VarId) (holder : Option InstId) : List UseSite :=
  match f.timeline? b v with
  | some t => t.usesOf holder
  | none => []

def lastDefBefore (f : Func) (b : NodeId) (v : VarId) (n : Nat) : Option InstId :=
  (((f.code b).take n).filter (f.defines v)).getLast?

def Earlier (f : Func) (u w : UseSite) : Prop :=
  f.indexOf u.inst < f.indexOf w.inst ∨ f.indexOf u.inst = f.indexOf w.inst ∧ u.slot < w.slot

structure InOrder (f : Func) (b : NodeId) : Prop where
  placed : ∀ {k i}, (f.code b)[k]? = some i →
    ∃ x, f.insts.get? i = some x ∧ x.block = some b ∧ x.index = k
  phis : ∀ {k i}, (f.code b)[k]? = some i → ((f.inst i).op = .phi ↔ k < (f.blockAt b).phiCount)
  phi_count : (f.blockAt b).phiCount ≤ (f.code b).length
  one_phi : ∀ {i j v}, i ∈ f.code b → j ∈ f.code b → (f.inst i).op = .phi → (f.inst j).op = .phi →
    f.defines v i = true → f.defines v j = true → i = j
  defs : ∀ v, f.locals b v = (f.code b).filter (f.defines v)
  ascending : ∀ v, (f.locals b v).Pairwise fun i j => f.indexOf i < f.indexOf j
  /-- A use is listed once, for the last definition before its instruction. -/
  once : ∀ {v u}, f.UsedAt b v u → ∀ holder, (f.observers b v holder).count u =
    if holder = f.lastDefBefore b v (f.indexOf u.inst) then 1 else 0
  only : ∀ {v u holder}, u ∈ f.observers b v holder → f.UsedAt b v u
  sorted : ∀ v holder, (f.observers b v holder).Pairwise f.Earlier

end Func

section

variable {f : Func} {b : NodeId} {v : VarId} {i : InstId} {u w : UseSite} {k : Nat}

theorem siteBefore_iff : f.siteBefore u w = true ↔ f.Earlier u w := by
  rw [siteBefore, Earlier]
  split
  · next h => simp [h]
  · next h => simp [h]

theorem observers_eq (f : Func) (b : NodeId) (v : VarId) (holder : Option InstId) :
    f.observers b v holder = (f.account b v).uses holder := by
  rw [observers]
  cases h : f.timeline? b v with
  | none =>
    rw [account_of_none h]
    cases holder <;> rfl
  | some t =>
    rw [account_of_some h]
    exact uses_account t holder

theorem lastDefBefore_eq (f : Func) (b : NodeId) (v : VarId) (n : Nat) :
    f.lastDefBefore b v n = lastDef (f.eventsTo b v n) := by
  rw [lastDefBefore, lastDef, eventsTo, defsIn_flatMap]

theorem mem_usesIn_events (h : f.Scheduled) : f.UsedAt b v u ↔ u ∈ usesIn (f.events b v) := by
  rw [events, mem_usesIn_flatMap, ← h.seated.block_iff]
  exact ⟨fun hu => ⟨hu.block, hu.operand⟩, fun hu => ⟨hu.1, hu.2⟩⟩

namespace Func.WellFormed

/-- Everything that a block lists of `v` are its uses there. -/
theorem allUses (h : f.WellFormed) (b : NodeId) (v : VarId) :
    (f.account b v).allUses = usesIn (f.events b v) := by
  rw [h.books, allUses_ledger]

theorem allUses_nodup (h : f.WellFormed) (b : NodeId) (v : VarId) :
    (f.account b v).allUses.Nodup := by
  rw [h.allUses]
  exact h.scheduled.usesIn_nodup b v

/-- The definition in force at the instruction of a use holds the use. -/
theorem mem_uses (h : f.WellFormed) (hu : f.UsedAt b v u) :
    u ∈ (f.account b v).uses (f.lastDefBefore b v (f.indexOf u.inst)) := by
  have hi := h.scheduled.getElem?_of_block hu.block
  obtain ⟨U, _, hU⟩ := uses_prepend (A := f.eventsTo b v (f.indexOf u.inst))
    (a := ledger (f.eventsOf v u.inst ++ f.eventsFrom b v (f.indexOf u.inst + 1))) (by
      have hn := h.scheduled.defsIn_nodup b v
      rw [events_at hi, defsIn_append] at hn
      exact (List.nodup_append.mp hn).1)
  rw [h.books, events_at hi, ledger_append, lastDefBefore_eq, hU, eventsOf, List.append_assoc,
    ledger_append, prepend_uses]
  refine List.mem_append_right _ (List.mem_append_left _ ?_)
  exact mem_usesOn.mpr ⟨rfl, hu.operand⟩

theorem observed? (h : f.WellFormed) (hu : f.UsedAt b v u) :
    f.observed? u = f.lastDefBefore b v (f.indexOf u.inst) := by
  have hmem := h.mem_uses hu
  have hvar : f.useVariable u = v := by rw [useVariable, hu.operand]
  rw [Func.observed?, hu.block, Option.bind_some, hvar]
  cases ht : f.timeline? b v with
  | none =>
    rw [account_of_none ht] at hmem
    exact absurd ((uses_sublist _ _).subset hmem) List.not_mem_nil
  | some t =>
    have hdefs : ((f.account b v).locals.map Local.inst).Nodup := by
      rw [h.books, map_inst_ledger]
      exact h.scheduled.defsIn_nodup b v
    have hfind := find_holder (h.allUses_nodup b v) hdefs hmem
    rw [account_of_some ht] at hfind
    exact hfind

theorem phi_iff (h : f.WellFormed) (hi : (f.code b)[k]? = some i) :
    (f.inst i).op = .phi ↔ k < (f.blockAt b).phiCount := by
  constructor
  · intro hp
    by_contra hk
    refine h.phisFirst.rest b i (List.mem_iff_getElem?.mpr ⟨k - (f.blockAt b).phiCount, ?_⟩) hp
    rw [plain, List.getElem?_drop, Nat.add_sub_cancel' (Nat.le_of_not_lt hk), hi]
  · intro hk
    refine (h.phisFirst.first b i (List.mem_iff_getElem?.mpr ⟨k, ?_⟩)).1
    rw [Func.phis, List.getElem?_take_of_lt hk, hi]

theorem mem_phis (h : f.WellFormed) (hi : i ∈ f.code b) (hp : (f.inst i).op = .phi) :
    i ∈ f.phis b := by
  obtain ⟨k, hk⟩ := List.mem_iff_getElem?.mp hi
  refine List.mem_iff_getElem?.mpr ⟨k, ?_⟩
  rw [Func.phis, List.getElem?_take_of_lt ((h.phi_iff hk).mp hp), hk]

theorem inOrder (h : f.WellFormed) (b : NodeId) : f.InOrder b where
  placed := h.scheduled.place
  phis := h.phi_iff
  phi_count := h.scheduled.phis b
  one_phi := fun {i j v} hi hj hpi hpj hdi hdj => by
    have hsymm : Std.Symm fun i j => ∀ v, f.defines v i = true → f.defines v j = false :=
      ⟨fun i j hij v hj => by
        by_contra hi
        rw [hij v (by simpa using hi)] at hj
        cases hj⟩
    by_contra hne
    have := (h.phisFirst.apart b).forall (h.mem_phis hi hpi) (h.mem_phis hj hpj) hne v hdi
    rw [hdj] at this
    cases this
  defs := h.scheduled.locals b
  ascending v := by
    rw [h.scheduled.locals]
    exact (h.scheduled.pairwise_code b).filter _
  once := fun {v u} hu holder => by
    rw [observers_eq]
    have hmem := h.mem_uses hu
    split
    · next he =>
      rw [he]
      exact List.count_eq_one_of_mem ((uses_sublist _ _).nodup (h.allUses_nodup b v)) hmem
    · next he =>
      exact List.count_eq_zero.mpr fun hm => he (holder_unique (h.allUses_nodup b v) hm hmem)
  only := fun {v u holder} hu => by
    rw [observers_eq] at hu
    rw [mem_usesIn_events h.scheduled, ← h.allUses]
    exact (uses_sublist _ _).subset hu
  sorted v holder := by
    rw [observers_eq]
    have hsorted := pairwise_usesIn (h.scheduled.pairwise_code b) v
    rw [← events, ← h.allUses] at hsorted
    exact (hsorted.sublist (uses_sublist _ _)).imp siteBefore_iff.mp

theorem usedAt_of_waiting (h : f.WellFormed) (hu : u ∈ f.waiting b v) : f.UsedAt b v u := by
  rw [mem_usesIn_events h.scheduled, ← h.allUses]
  exact List.mem_append_left _ hu

theorem reachingDef_eq (h : f.WellFormed) (hu : f.UsedAt b v u) {c : ComponentRef} {x : Variable}
    (hc : c.owner = f.handle) (hb : c.id = b) (hx : x.owner = f.handle) (hv : x.id = v) :
    Edit.reachingDef u f = Edit.reachingAt c (f.indexOf u.inst) x f := by
  have hvar : f.useVariable u = v := by rw [useVariable, hu.operand]
  have hsame : f.latestDefBefore? c.id (f.indexOf u.inst) x.id = f.observed? u := by
    rw [hb, hv, h.observed? hu, h.scheduled.latestDefBefore?, lastDefBefore]
  have hown : Edit.ownQuery c x f = .ok () f := ownQuery_eq hc hx
  rw [Edit.reachingDef, Edit.bind_eq Edit.get_eq, Edit.reachingAt, Edit.bind_eq Edit.get_eq, hsame,
    hu.block]
  cases f.observed? u with
  | some i => rfl
  | none =>
    have hresolve : Edit.resolve c x f = Edit.resolveAt b v f := by
      rw [Edit.resolve, Edit.bind_eq hown, hb, hv]
    dsimp only
    rw [hvar]
    show EStateM.bind _ _ f = EStateM.bind _ _ f
    rw [EStateM.bind, EStateM.bind, hresolve]

end Func.WellFormed

/-! ## Every run -/

theorem Reached.lists_agree (h : Reached f) : (∀ b, f.InOrder b) ∧
    ∀ {b v u}, f.UsedAt b v u → ∀ {c : ComponentRef} {x : Variable}, c.owner = f.handle →
      c.id = b → x.owner = f.handle → x.id = v →
      Edit.reachingDef u f = Edit.reachingAt c (f.indexOf u.inst) x f :=
  ⟨h.wellFormed.inOrder, h.wellFormed.reachingDef_eq⟩

def busyBlock : List Request :=
  let x : Variable := ⟨0, 1, "x", .int 64, 0⟩
  [.addVariable "x" (.int 64), .newBlock "b", .appendElement 2 ⟨0, 3, .block, "b"⟩,
    .appendInst 3 .undef (some x) [], .appendInst 3 .add (some x) [.var x, .var x],
    .appendInst 3 .add (some x) [.var x, .var x],
    .insertInstBefore 3 ⟨0, 2⟩ .copy (some x) [.var x], .createPhi 3 x,
    .prependInst 3 .copy (some x) [.var x], .removeInst 3 ⟨0, 2⟩, .split ⟨0, 3, .block, "b"⟩ 3]

theorem busyBlock_lists_agree : ∃ f, Reached f ∧ f.code 3 = [5, 6, 1] ∧ f.code 4 = [4, 3] ∧
    f.observers 3 1 (some 5) = [⟨6, 0⟩] ∧ f.observers 4 1 none = [⟨4, 0⟩] ∧
    f.observers 4 1 (some 4) = [⟨3, 0⟩, ⟨3, 1⟩] ∧ (∀ b, f.InOrder b) ∧ f.UsedAt 4 1 ⟨3, 1⟩ ∧
    Edit.reachingDef ⟨3, 1⟩ f =
      Edit.reachingAt ⟨0, 4, .block, "b"⟩ (f.indexOf 3) ⟨0, 1, "x", .int 64, 5⟩ f := by
  obtain ⟨f, hf, hfacts⟩ := Reached.exists_of_requests 0 "f" busyBlock
    (fun f => decide (f.code 3 = [5, 6, 1] ∧ f.code 4 = [4, 3] ∧
      f.observers 3 1 (some 5) = [⟨6, 0⟩] ∧ f.observers 4 1 none = [⟨4, 0⟩] ∧
      f.observers 4 1 (some 4) = [⟨3, 0⟩, ⟨3, 1⟩] ∧ f.handle = 0 ∧ (f.inst 3).block = some 4 ∧
      (f.inst 3).operands[1]? = some (Operand.use 1))) (by decide +kernel)
  obtain ⟨hfront, hback, hphi, hwait, hcopy, hhandle, hblock, hoperand⟩ := of_decide_eq_true hfacts
  obtain ⟨horder, hreach⟩ := hf.lists_agree
  have hused : f.UsedAt 4 1 ⟨3, 1⟩ := ⟨hblock, hoperand⟩
  exact ⟨f, hf, hfront, hback, hphi, hwait, hcopy, horder, hused,
    hreach hused hhandle.symm rfl hhandle.symm rfl⟩

end

end DefFlow.Flow
