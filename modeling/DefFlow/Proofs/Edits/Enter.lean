import DefFlow.Proofs.Edits.Keep
import DefFlow.Proofs.Edits.Phi
import DefFlow.Proofs.Edits.Remove

/-!
# Entering instructions

A new instruction does nothing at first. Each operand adds one use to the ledger of its
variable, behind the uses of the instructions before it, and a destination adds one
definition, which takes over the uses behind it. So the timelines stay the ledger of the
code at every step.
-/

set_option autoImplicit false

namespace DefFlow.Flow

open Func Account

/-! ## Places in a block -/

namespace Func

def eventsTo (f : Func) (b : NodeId) (v : VarId) (k : Nat) : List Event :=
  ((f.code b).take k).flatMap (f.eventsOf v)

def eventsFrom (f : Func) (b : NodeId) (v : VarId) (k : Nat) : List Event :=
  ((f.code b).drop k).flatMap (f.eventsOf v)

variable {f : Func} {b : NodeId} {v : VarId} {k : Nat} {i : InstId} {u : UseSite}

theorem events_cut (f : Func) (b : NodeId) (v : VarId) (k : Nat) :
    f.events b v = f.eventsTo b v k ++ f.eventsFrom b v k := by
  rw [eventsTo, eventsFrom, ← List.flatMap_append, List.take_append_drop, events]

theorem eventsFrom_eq (hi : (f.code b)[k]? = some i) (v : VarId) :
    f.eventsFrom b v k = f.eventsOf v i ++ f.eventsFrom b v (k + 1) := by
  obtain ⟨hk, rfl⟩ := List.getElem?_eq_some_iff.mp hi
  rw [eventsFrom, List.drop_eq_getElem_cons hk, List.flatMap_cons, eventsFrom]

theorem events_at (hi : (f.code b)[k]? = some i) (v : VarId) :
    f.events b v = f.eventsTo b v k ++ (f.eventsOf v i ++ f.eventsFrom b v (k + 1)) := by
  rw [events_cut f b v k, eventsFrom_eq hi]

theorem Scheduled.live (h : f.Scheduled) (hi : (f.code b)[k]? = some i) :
    (f.insts.get? i).isSome := by
  obtain ⟨x, hx, _⟩ := h.place hi
  rw [hx]
  rfl

theorem Scheduled.index_take (h : f.Scheduled) {j : InstId} (hj : j ∈ (f.code b).take k) :
    f.indexOf j < k := by
  obtain ⟨n, hn⟩ := List.mem_iff_getElem?.mp hj
  rw [List.getElem?_take] at hn
  split at hn
  · next hlt =>
    rw [h.indexOf hn]
    exact hlt
  · cases hn

theorem Scheduled.index_drop (h : f.Scheduled) {j : InstId} (hj : j ∈ (f.code b).drop k) :
    k ≤ f.indexOf j := by
  obtain ⟨n, hn⟩ := List.mem_iff_getElem?.mp hj
  rw [List.getElem?_drop] at hn
  rw [h.indexOf hn]
  exact Nat.le_add_right k n

theorem mem_of_defsIn {l : List InstId} (hi : i ∈ defsIn (l.flatMap (f.eventsOf v))) : i ∈ l := by
  rw [defsIn_flatMap] at hi
  exact List.mem_of_mem_filter hi

theorem mem_of_usesIn {l : List InstId} (hu : u ∈ usesIn (l.flatMap (f.eventsOf v))) :
    u.inst ∈ l := (mem_usesIn_flatMap.mp hu).1

theorem Scheduled.defsIn_nodup (h : f.Scheduled) (b : NodeId) (v : VarId) :
    (defsIn (f.events b v)).Nodup := by
  rw [events, defsIn_flatMap]
  exact (h.nodup b).filter _

/-- Only what an instruction of a block does can change what happens in the block. -/
theorem events_congr {f' : Func} (hc : f'.code b = f.code b)
    (he : ∀ j ∈ f.code b, f'.eventsOf v j = f.eventsOf v j) : f'.events b v = f.events b v := by
  rw [events, events, hc]
  exact List.flatMap_congr he

end Func

/-! ## Touching one instruction -/

structure Touches (i : InstId) (f f' : Func) : Prop extends SameGraph f f' where
  code : ∀ b, f'.code b = f.code b
  phiCount : ∀ b, (f'.blockAt b).phiCount = (f.blockAt b).phiCount
  op : ∀ j, (f'.inst j).op = (f.inst j).op
  others : ∀ j, j ≠ i → (f'.inst j).content = (f.inst j).content

section

variable {f f' f'' : Func} {b : NodeId} {v : VarId} {t : TimelineId} {i : InstId} {k : Nat}

namespace Touches

theorem refl (i : InstId) (f : Func) : Touches i f f :=
  ⟨.refl f, fun _ => rfl, fun _ => rfl, fun _ => rfl, fun _ _ => rfl⟩

theorem trans (h : Touches i f f') (h' : Touches i f' f'') : Touches i f f'' where
  toSameGraph := h.toSameGraph.trans h'.toSameGraph
  code b := (h'.code b).trans (h.code b)
  phiCount b := (h'.phiCount b).trans (h.phiCount b)
  op j := (h'.op j).trans (h.op j)
  others j hj := (h'.others j hj).trans (h.others j hj)

theorem of_keeps (h : Keeps f f') (i : InstId) : Touches i f f' where
  toSameGraph := h.toSameGraph
  code := h.instructions
  phiCount := h.phiCount
  op j := by rw [h.inst]
  others j _ := by rw [h.inst]

theorem dest (h : Touches i f f') {j : InstId} (hj : j ≠ i) :
    (f'.inst j).dest = (f.inst j).dest := congrArg (fun x => x.2.2) (h.others j hj)

theorem eventsOf (h : Touches i f f') {j : InstId} (hj : j ≠ i) (v : VarId) :
    f'.eventsOf v j = f.eventsOf v j :=
  eventsOf_congr (congrArg (fun x => x.2.1) (h.others j hj)) (h.dest hj) v

/-- What happens in a block once an instruction of it has been touched. -/
theorem events (h : Touches i f f') (hs : f.Scheduled) (hi : (f.code b)[k]? = some i)
    (c : NodeId) (v : VarId) : f'.events c v = if c = b
      then f.eventsTo b v k ++ (f'.eventsOf v i ++ f.eventsFrom b v (k + 1)) else f.events c v := by
  have hmem := List.mem_of_getElem? hi
  split
  · next hc =>
    subst hc
    have hnodup := hs.nodup c
    obtain ⟨hk, hget⟩ := List.getElem?_eq_some_iff.mp hi
    rw [← List.take_append_drop k (f.code c), List.drop_eq_getElem_cons hk, hget] at hnodup
    obtain ⟨hnot, _⟩ := List.nodup_cons.mp (List.nodup_middle.mp hnodup)
    rw [events_at (f := f') (by rw [h.code]; exact hi), eventsTo, eventsFrom, h.code,
      eventsTo, eventsFrom]
    congr 1
    · exact List.flatMap_congr fun j hj =>
        h.eventsOf (fun he => hnot (List.mem_append_left _ (he ▸ hj))) v
    · congr 1
      exact List.flatMap_congr fun j hj =>
        h.eventsOf (fun he => hnot (List.mem_append_right _ (he ▸ hj))) v
  · next hc =>
    exact events_congr (h.code c) fun j hj =>
      h.eventsOf (fun he => hc (hs.seated.block_unique (he ▸ hj) hmem)) v

end Touches

/-! ## A new instruction -/

theorem Places.eventsOf {n : Nat} {op : Opcode} (h : Places b n op i f f') (v : VarId)
    (j : InstId) : f'.eventsOf v j = f.eventsOf v j := by
  have hc := h.content j
  split at hc
  · next hj =>
    -- A number that has not been given away reads and defines nothing either.
    have hnew : f.inst j = default := by rw [hj, h.fresh, inst, Arena.get?_next]; rfl
    refine eventsOf_congr ?_ ?_ v
    · rw [hnew]
      exact congrArg (fun x => x.2.1) hc
    · rw [hnew]
      exact congrArg (fun x => x.2.2) hc
  · exact eventsOf_congr (congrArg (fun x => x.2.1) hc) (congrArg (fun x => x.2.2) hc) v

theorem Places.eventsOf_self {n : Nat} {op : Opcode} (h : Places b n op i f f') (v : VarId) :
    f'.eventsOf v i = [] := by
  have hnone : f.insts.get? i = none := by rw [h.fresh, Arena.get?_next]
  rw [h.eventsOf, Func.eventsOf, usesOn, usesOf, defines, inst, hnone]
  rfl

theorem Places.consistent {n : Nat} {op : Opcode} (h : Places b n op i f f') (hf : f.Consistent) :
    f'.Consistent := by
  refine (Rewrites.of_recodes h.toRecodes (.inl h.memo)).consistent hf (h.scheduled hf.scheduled) ?_
  refine hf.books.congr h.toSameRecords.account fun c w => ?_
  rw [events, h.code]
  split
  · next hc =>
    subst hc
    rw [List.flatMap_append, List.flatMap_cons, h.eventsOf_self, List.nil_append,
      ← List.flatMap_append, List.take_append_drop]
    exact List.flatMap_congr fun j _ => h.eventsOf w j
  · exact List.flatMap_congr fun j _ => h.eventsOf w j

/-! ## Operands -/

def Func.withOperand (f : Func) (i : InstId) (o : Operand) : Func :=
  { f with insts := f.insts.modify i fun x => { x with operands := x.operands ++ [o] } }

theorem inst_withOperand (hx : (f.insts.get? i).isSome) (o : Operand) (j : InstId) :
    (f.withOperand i o).inst j =
      if j = i then { f.inst i with operands := (f.inst i).operands ++ [o] } else f.inst j :=
  inst_changeInst hx _ j

theorem indexOf_withOperand (hx : (f.insts.get? i).isSome) (o : Operand) :
    (f.withOperand i o).indexOf = f.indexOf := by
  funext j
  rw [indexOf, inst_withOperand hx]
  split
  · next hj => rw [hj]; rfl
  · rfl

theorem touches_withOperand (hx : (f.insts.get? i).isSome) (o : Operand) :
    Touches i f (f.withOperand i o) where
  toSameGraph := (recodes_changeInst f i _).toSameGraph
  code _ := rfl
  phiCount _ := rfl
  op j := by
    rw [inst_withOperand hx]
    split
    · next hj => rw [hj]
    · rfl
  others j hj := by rw [inst_withOperand hx, if_neg hj]

theorem usesOn_withOperand (hx : (f.insts.get? i).isSome) (o : Operand) :
    (f.withOperand i o).usesOn v i = f.usesOn v i ++
      if o = .use v then [⟨i, (f.inst i).operands.length⟩] else [] := by
  rw [usesOn, usesOf, inst_withOperand hx, if_pos rfl, List.zipIdx_append, List.filterMap_append,
    List.filter_append, List.map_append, usesOn, usesOf]
  congr 1
  cases o with
  | constant c => simp
  | use w => by_cases hw : w = v <;> simp [hw]

/-- The events of an instruction that defines nothing are its uses. -/
theorem eventsOf_of_dest (hd : (f.inst i).dest = none) (v : VarId) :
    f.eventsOf v i = (f.usesOn v i).map .use := by
  rw [eventsOf, defines, hd]
  exact List.append_nil _

/-- A use behind all that an instruction has read so far is added at its place. -/
theorem account_addUse (hs : f.Scheduled) (hi : (f.code b)[k]? = some i)
    (hd : (f.inst i).dest = none) {a : Account} (ha : a = ledger (f.events b v)) :
    a.change (f.lastBefore a.locals k) (f.insertSite ⟨i, (f.inst i).operands.length⟩) =
      ledger (f.eventsTo b v k ++ ((f.usesOn v i ++ [UseSite.mk i (f.inst i).operands.length]).map
        .use ++ f.eventsFrom b v (k + 1))) := by
  have hk := hs.indexOf hi
  have hevents : f.events b v =
      (f.eventsTo b v k ++ (f.usesOn v i).map .use) ++ f.eventsFrom b v (k + 1) := by
    rw [events_at hi, eventsOf_of_dest hd, List.append_assoc]
  have hdefs := hs.defsIn_nodup b v
  rw [hevents, defsIn_append, ← map_inst_ledger (f.eventsFrom b v (k + 1))] at hdefs
  have hfront : ∀ j ∈ defsIn (f.eventsTo b v k ++ (f.usesOn v i).map .use), f.indexOf j < k := by
    intro j hj
    rw [defsIn_append, defsIn_uses, List.append_nil] at hj
    exact hs.index_take (mem_of_defsIn hj)
  have hback : ∀ j ∈ (ledger (f.eventsFrom b v (k + 1))).locals.map Local.inst,
      k ≤ f.indexOf j := by
    intro j hj
    rw [map_inst_ledger] at hj
    exact Nat.le_of_succ_le (hs.index_drop (mem_of_defsIn hj))
  rw [ha, hevents, ledger_append, lastBefore_prepend hfront hback,
    change_prepend (w := ⟨i, (f.inst i).operands.length⟩ ::
      (ledger (f.eventsFrom b v (k + 1))).waiting) hdefs]
  · rw [List.map_append, List.append_assoc, ← List.append_assoc, ledger_append]
    rfl
  · intro U hU
    refine insertSite_between (fun w hw => ?_) fun w hw => ?_
    · rcases List.mem_append.mp (hU w hw) with hm | hm
      · have hlt := hs.index_take (mem_of_usesIn (mem_usesIn.mpr hm))
        refine siteBefore_asymm (siteBefore_of_lt ?_)
        rw [hk]
        exact hlt
      · obtain ⟨w', hw', he⟩ := List.mem_map.mp hm
        cases he
        obtain ⟨hwi, ho⟩ := mem_usesOn.mp hw'
        have hslot := (List.getElem?_eq_some_iff.mp ho).1
        rw [siteBefore, if_pos (by rw [hwi])]
        exact decide_eq_false (Nat.lt_asymm hslot)
    · have hm := (allUses_ledger (f.eventsFrom b v (k + 1))) ▸
        (uses_sublist (ledger (f.eventsFrom b v (k + 1))) none).subset hw
      refine siteBefore_of_lt ?_
      rw [hk]
      exact hs.index_drop (mem_of_usesIn hm)

theorem events_withOperand (hx : (f.insts.get? i).isSome) (hs : f.Scheduled)
    (hi : (f.code b)[k]? = some i) (hd : (f.inst i).dest = none) (o : Operand) (c : NodeId)
    (w : VarId) : (f.withOperand i o).events c w =
      if c = b ∧ o = .use w then f.eventsTo b w k ++
        ((f.usesOn w i ++ [UseSite.mk i (f.inst i).operands.length]).map .use ++
          f.eventsFrom b w (k + 1))
      else f.events c w := by
  have hd' : ((f.withOperand i o).inst i).dest = none := by
    rw [inst_withOperand hx, if_pos rfl]
    exact hd
  rw [(touches_withOperand hx o).events hs hi, eventsOf_of_dest hd', usesOn_withOperand hx]
  by_cases hc : c = b
  · subst hc
    by_cases ho : o = .use w
    · simp only [ho, if_true, and_self]
    · simp only [ho, if_true, if_false, and_false, List.append_nil]
      rw [events_at hi, eventsOf_of_dest hd]
  · simp only [hc, if_false, false_and]

structure Enters (i : InstId) (n : Nat) (f f' : Func) : Prop extends Touches i f f' where
  consistent : f'.Consistent
  dest : (f'.inst i).dest = none
  operands : (f'.inst i).operands.length = n

theorem withOperand_enters {f₁ : Func} (hx : (f.insts.get? i).isSome)
    (o : Operand) (hd : (f.inst i).dest = none) (hk : Keeps (f.withOperand i o) f₁)
    (hs : f₁.Consistent) : Enters i ((f.inst i).operands.length + 1) f f₁ where
  toTouches := (touches_withOperand hx o).trans (.of_keeps hk i)
  consistent := hs
  dest := by
    rw [hk.inst, inst_withOperand hx, if_pos rfl]
    exact hd
  operands := by
    rw [hk.inst, inst_withOperand hx, if_pos rfl]
    exact List.length_append

theorem keeps_relisted {change : Timeline → Timeline} : Keeps f (f.relisted t change) :=
  ⟨sameGraph_relisted, rfl, rfl, rfl, rfl, rfl, fun _ => rfl, fun _ => rfl, fun _ => rfl⟩

theorem addUse_enters (h : f.Consistent) (hi : (f.code b)[k]? = some i)
    (hd : (f.inst i).dest = none)
    (hid : f.timelineId? b v = some t) {f₁ : Func} (hf₁ : f₁ = f.withOperand i (.use v))
    (hsched : (f₁.relisted t fun x => x.changeUses (f₁.lastBefore (f₁.timelineAt t).locals k)
      (f₁.insertSite ⟨i, (f.inst i).operands.length⟩)).Scheduled) :
    Enters i ((f.inst i).operands.length + 1) f (f₁.relisted t fun x =>
      x.changeUses (f₁.lastBefore (f₁.timelineAt t).locals k)
        (f₁.insertSite ⟨i, (f.inst i).operands.length⟩)) := by
  have hx := h.scheduled.live hi
  have hindex : f₁.indexOf = f.indexOf := hf₁ ▸ indexOf_withOperand hx _
  have hrec : Recodes f f₁ := hf₁ ▸ recodes_changeInst f i _
  have hacc : (f₁.timelineAt t).account = ledger (f.events b v) := by
    rw [hrec.timelineAt, account_at h.linked.tables hid, h.books]
  refine withOperand_enters hx (.use v) hd (hf₁ ▸ keeps_relisted) ?_
  refine ((Rewrites.of_recodes hrec (.inl (by rw [hf₁]; rfl))).trans
    (.relisted (relisting_changeUses _ _))).consistent h hsched fun c w => ?_
  have hevents : (f₁.relisted t fun x => x.changeUses (f₁.lastBefore (f₁.timelineAt t).locals k)
      (f₁.insertSite ⟨i, (f.inst i).operands.length⟩)).events c w = f₁.events c w := rfl
  rw [account_relisted (hrec.tables h.linked.tables) ((hrec.timelineId? b v).trans hid), hevents,
    hf₁, events_withOperand hx h.scheduled hi hd, ← hf₁]
  by_cases hc : c = b ∧ w = v
  · obtain ⟨rfl, rfl⟩ := hc
    rw [if_pos ⟨rfl, rfl⟩, if_pos ⟨rfl, rfl⟩, account_changeUses,
      ← account_addUse h.scheduled hi hd hacc]
    have hlast : f₁.lastBefore = f.lastBefore := by
      funext l n
      rw [lastBefore, lastBefore, hindex]
    have hins : f₁.insertSite = f.insertSite := by
      funext u l
      simp only [insertSite, siteBefore, hindex]
    rw [hlast, hins]
    rfl
  · rw [if_neg hc, if_neg fun hn => hc ⟨hn.1, (Operand.use.inj hn.2).symm⟩, ← h.books c w]
    exact hrec.account c w

theorem addOperand_enters (h : f.Consistent) (hi : (f.code b)[k]? = some i)
    (hd : (f.inst i).dest = none) {op : Operation} {slot : Nat} {a : Arg} {u : Unit}
    (hslot : (f.inst i).operands.length = slot)
    (hrun : Edit.addOperand op b i k slot a f = .ok u f') : Enters i (slot + 1) f f' := by
  subst hslot
  have hb := stored_of_code hi
  have hop := addOperand_ok h.linked.tables hb hrun
  have hsched := h.scheduled.congr hop.code hop.phiCount hop.locals hop.standing
  cases a with
  | constant c =>
    have hx := h.scheduled.live hi
    cases hrun
    refine withOperand_enters hx (.constant c) hd (.refl _) ?_
    refine (Rewrites.of_recodes (recodes_changeInst f i _) (.inl rfl)).consistent h hsched ?_
    refine h.books.congr (fun _ _ => rfl) fun c w => ?_
    refine (events_withOperand hx h.scheduled hi hd _ c w).trans (if_neg ?_)
    rintro ⟨_, ho⟩
    cases ho
  | var w =>
    rw [Edit.addOperand, Edit.bind_eq Edit.get_eq] at hrun
    obtain ⟨_, hrun⟩ := Edit.require_bind_ok hrun
    obtain ⟨t, f₁, htl, hrun⟩ := Edit.bind_ok hrun
    obtain ⟨hw, hid⟩ := timelineFor_weaves h.linked hb htl
    rw [Edit.bind_eq (Edit.changeInst_eq _ _), Edit.bind_eq Edit.get_eq] at hrun
    cases hrun
    have hlen : (f.inst i).operands.length = (f₁.inst i).operands.length := by rw [hw.inst]
    have he := addUse_enters (hw.toRelinks.consistent h) (by rw [code, hw.instructions]; exact hi)
      (by rw [hw.inst]; exact hd) hid rfl (hlen ▸ hsched)
    rw [← hlen] at he
    exact ⟨(Touches.of_keeps hw.toKeeps i).trans he.toTouches, he.consistent, he.dest, he.operands⟩

/-- The operands of a new instruction, one after the other. -/
theorem operands_enter (h : f.Consistent) (hi : (f.code b)[k]? = some i)
    (hd : (f.inst i).dest = none) (ho : (f.inst i).operands = []) {op : Operation}
    {args : List Arg} {m : PUnit → Edit InstId} {j : InstId}
    (hrun : (forIn args.zipIdx PUnit.unit (fun (x : Arg × Nat) _ => do
      Edit.addOperand op b i k x.2 x.1
      pure (ForInStep.yield PUnit.unit)) >>= m) f = .ok j f') :
    ∃ f₁, Enters i args.length f f₁ ∧ m ⟨⟩ f₁ = .ok j f' := by
  have hstart : Enters i 0 f f := ⟨.refl i f, h, hd, by rw [ho]; rfl⟩
  obtain ⟨f₁, h₁, hrest⟩ := Edit.forIn_ok (fun done f₁ => Enters i done.length f f₁) (by
    intro done a rest f₁ s f₂ hl h₁ hstep
    obtain ⟨_, f₃, hadd, hstep⟩ := Edit.bind_ok hstep
    cases hstep
    have hslot : a.2 = done.length := by
      have hm := congrArg (fun l => l[done.length]?) hl
      simp only [List.getElem?_append_right (Nat.le_refl _), Nat.sub_self,
        List.getElem?_cons_zero, List.getElem?_zipIdx, Nat.zero_add,
        Option.map_eq_some_iff] at hm
      obtain ⟨_, _, rfl⟩ := hm
      rfl
    have h₂ := addOperand_enters h₁.consistent (by rw [h₁.code]; exact hi) h₁.dest
      (h₁.operands.trans hslot.symm) hadd
    refine ⟨rfl, h₁.toTouches.trans h₂.toTouches, h₂.consistent, h₂.dest, ?_⟩
    rw [h₂.operands, hslot, List.length_append]
    rfl) hstart hrun
  rw [List.length_zipIdx] at h₁
  exact ⟨f₁, h₁, hrest⟩

/-! ## Definitions -/

theorem touches_assigned (hx : (f.insts.get? i).isSome) (d : Def)
    (vars : List Variable) : Touches i f (f.assigned i d vars) where
  toSameGraph := recodes_assigned.toSameGraph
  code _ := rfl
  phiCount _ := rfl
  op j := by
    rw [inst_assigned hx]
    split
    · next hj => rw [hj]
    · rfl
  others j hj := by rw [inst_assigned hx, if_neg hj]

theorem events_assigned (hx : (f.insts.get? i).isSome) (hs : f.Scheduled)
    (hi : (f.code b)[k]? = some i) (hd : (f.inst i).dest = none) (d : Def) (vars : List Variable)
    (c : NodeId) (w : VarId) : (f.assigned i d vars).events c w =
      if c = b ∧ w = d.var then (f.eventsTo b w k ++ (f.usesOn w i).map .use) ++
        .define i :: f.eventsFrom b w (k + 1)
      else f.events c w := by
  have huses : (f.assigned i d vars).usesOn w i = f.usesOn w i := by
    rw [usesOn, usesOn, usesOf, usesOf, inst_assigned hx, if_pos rfl]
  have hdefines : (f.assigned i d vars).defines w i = decide (d.var = w) := by
    rw [defines, inst_assigned hx, if_pos rfl]
    rfl
  rw [(touches_assigned hx d vars).events hs hi, eventsOf, huses, hdefines]
  by_cases hc : c = b
  · subst hc
    by_cases hw : w = d.var
    · simp [hw]
    · simp only [hw, Ne.symm hw, decide_false, and_false, if_true, if_false, Bool.false_eq_true]
      rw [events_at hi, eventsOf_of_dest hd, List.append_nil]
  · rw [if_neg hc, if_neg fun hn => hc hn.1]

structure Func.Flanks (f : Func) (k : Nat) (A B : List Event) : Prop where
  def_front : ∀ j ∈ defsIn A, f.indexOf j < k
  use_front : ∀ u, Event.use u ∈ A → f.indexOf u.inst ≤ k
  def_back : ∀ j ∈ defsIn B, k < f.indexOf j
  use_back : ∀ u ∈ (ledger B).waiting, k < f.indexOf u.inst

theorem Func.Scheduled.flanks (hs : f.Scheduled) (hi : (f.code b)[k]? = some i) (v : VarId) :
    f.Flanks k (f.eventsTo b v k ++ (f.usesOn v i).map .use) (f.eventsFrom b v (k + 1)) where
  def_front j hj := by
    rw [defsIn_append, defsIn_uses, List.append_nil] at hj
    exact hs.index_take (mem_of_defsIn hj)
  use_front u hu := by
    rcases List.mem_append.mp hu with hu | hu
    · exact Nat.le_of_lt (hs.index_take (mem_of_usesIn (mem_usesIn.mpr hu)))
    · obtain ⟨w, hw, he⟩ := List.mem_map.mp hu
      cases he
      rw [(mem_usesOn.mp hw).1, hs.indexOf hi]
  def_back j hj := hs.index_drop (mem_of_defsIn hj)
  use_back u hu := hs.index_drop (mem_of_usesIn
    (allUses_ledger (f.eventsFrom b v (k + 1)) ▸ (uses_sublist _ none).subset hu))

namespace Func.Flanks

variable {A B : List Event} {x : Timeline}

theorem lastBefore (h : f.Flanks k A B) (hx : x.account = prepend A (ledger B)) :
    f.lastBefore x.locals k = Flow.lastDef A := by
  have hlast := lastBefore_prepend (a := ledger B) h.def_front fun j hj =>
    Nat.le_of_lt (h.def_back j (map_inst_ledger B ▸ hj))
  rw [← hx] at hlast
  exact hlast

/-- A definition at the place is listed between those of the two sides. -/
theorem localsWith (h : f.Flanks k A B) (hx : x.account = prepend A (ledger B))
    (hk : f.indexOf i = k) : (⟨x.waiting, x.localsWith f.indexOf i⟩ : Account) =
      prepend A ⟨(ledger B).waiting, ⟨i, []⟩ :: (ledger B).locals⟩ := by
  obtain ⟨ls, hls, hinst, hrest⟩ := prepend_locals A (ledger B)
  have hloc : x.locals = ls ++ (ledger B).locals := (congrArg Account.locals hx).trans hls
  obtain ⟨htake, hdrop⟩ := span_between (p := fun l : Local => decide (f.indexOf l.inst ≤ k))
    (l := ls) (r := (ledger B).locals)
    (fun l hl => decide_eq_true
      (Nat.le_of_lt (h.def_front l.inst (hinst ▸ List.mem_map_of_mem hl))))
    fun l hl => decide_eq_false (Nat.not_le.mpr
      (h.def_back l.inst (map_inst_ledger B ▸ List.mem_map_of_mem hl)))
  rw [hrest, Timeline.localsWith, hk, hloc, htake, hdrop, ← hx]
  rfl

/-- The uses that the last definition before the place holds from behind it. -/
theorem usesBehind (h : f.Flanks k A B) (hx : x.account = prepend A (ledger B))
    (hn : (defsIn A).Nodup) :
    (x.usesOf (Flow.lastDef A)).filter (fun u => decide (k < f.indexOf u.inst)) =
      (ledger B).waiting := by
  obtain ⟨U, hU, huses⟩ := uses_prepend (a := ledger B) hn
  rw [uses_account, hx, huses, List.filter_append, List.filter_eq_nil_iff.mpr,
    List.filter_eq_self.mpr, List.nil_append]
  · exact fun u hu => decide_eq_true (h.use_back u hu)
  · exact fun u hu hk => absurd (of_decide_eq_true hk) (Nat.not_lt.mpr (h.use_front u (hU u hu)))

end Func.Flanks

/-- The uses that wait behind a new definition are given to it. -/
theorem change_define {B : List Event} (hi : i ∉ defsIn B) :
    change ⟨[], ⟨i, []⟩ :: (ledger B).locals⟩ (some i) (fun _ => (ledger B).waiting) =
      ledger (.define i :: B) := by
  have hsame := congrArg Account.locals (change_of_not_mem (a := ledger B)
    (g := fun _ => (ledger B).waiting) (by rw [map_inst_ledger]; exact hi))
  simp only [change, List.map_cons, if_true] at hsame ⊢
  rw [hsame]
  rfl

theorem account_define (hs : f.Scheduled) (hi : (f.code b)[k]? = some i)
    (hd : (f.inst i).dest = none) {x y : Timeline} (hx : x.account = ledger (f.events b v))
    (hy : y.account = ⟨x.waiting, x.localsWith f.indexOf i⟩) :
    ((y.account.change (f.lastBefore x.locals k) fun us =>
        us.filter fun u => !decide (k < f.indexOf u.inst)).change (some i) fun _ =>
      (x.usesOf (f.lastBefore x.locals k)).filter fun u => k < f.indexOf u.inst) =
      ledger ((f.eventsTo b v k ++ (f.usesOn v i).map .use) ++
        .define i :: f.eventsFrom b v (k + 1)) := by
  have hk := hs.indexOf hi
  have hflanks := hs.flanks hi v
  have hn := hs.defsIn_nodup b v
  rw [events_at hi, eventsOf_of_dest hd, ← List.append_assoc] at hx hn
  generalize f.eventsTo b v k ++ (f.usesOn v i).map Event.use = A at *
  generalize f.eventsFrom b v (k + 1) = B at *
  have hnodup : (defsIn A ++ i :: defsIn B).Nodup := by
    rw [defsIn_append] at hn
    refine List.nodup_middle.mpr (List.nodup_cons.mpr ⟨fun hm => ?_, hn⟩)
    rcases List.mem_append.mp hm with hm | hm
    · exact Nat.lt_irrefl k (hk ▸ hflanks.def_front i hm)
    · exact Nat.lt_irrefl k (hk ▸ hflanks.def_back i hm)
  rw [ledger_append] at hx
  rw [hflanks.lastBefore hx, hflanks.usesBehind hx (List.Nodup.of_append_left hnodup), hy,
    hflanks.localsWith hx hk, change_prepend (w := []), change_prepend_of_not_mem, ledger_append,
    change_define (List.nodup_cons.mp (List.nodup_append.mp hnodup).2.1).1]
  · exact fun hm => (List.nodup_append.mp hnodup).2.2 i hm i List.mem_cons_self rfl
  · rw [List.map_cons, map_inst_ledger]
    exact hnodup
  · intro U hU
    rw [List.filter_append, List.filter_eq_self.mpr, List.filter_eq_nil_iff.mpr]
    · intro u hu
      simpa using hflanks.use_back u hu
    · intro u hu
      simpa using hflanks.use_front u (hU u hu)

structure Sets (b : NodeId) (i : InstId) (v : VarId) (t : TimelineId) (f f' : Func) : Prop
    extends Touches i f f' where
  consistent : f'.Consistent
  dest : ∃ n, (f'.inst i).dest = some ⟨v, n⟩
  id : f'.timelineId? b v = some t

theorem Sets.relinks (h : Sets b i v t f f') (hw : Relinks f' f'') : Sets b i v t f f'' where
  toTouches := h.toTouches.trans (.of_keeps hw.toKeeps i)
  consistent := hw.consistent h.consistent
  dest := by
    rw [hw.inst]
    exact h.dest
  id := hw.id h.id

theorem defineAt_sets (h : f.Consistent) (hid : f.timelineId? b v = some t)
    (hi : (f.code b)[k]? = some i) (hd : (f.inst i).dest = none) {u : Unit}
    (hrun : Edit.defineAt t i v f = .ok u f') : Sets b i v t f f' := by
  have hsched := (defineAt_ok h.scheduled h.linked.tables hid hi hd hrun).1.scheduled
  have hx := h.scheduled.live hi
  have hk := h.scheduled.indexOf hi
  have hf' := defineAt_shape hrun
  rw [hk] at hf'
  let d : Def := ⟨v, (f.varAt v).defs + 1⟩
  let vars := f.counting v
  have hrec : Recodes f (f.assigned i d vars) := recodes_assigned
  have hw₁ : Rewrites f (f.entered t i v) :=
    ((Rewrites.of_recodes hrec (.inl rfl)).trans (.relisted (relisting_localsWith _))).forget
  have hw₂ := hw₁.trans (.relisted (t := t) (relisting_changeUses
    (f.lastBefore (f.timelineAt t).locals k) fun us =>
      us.filter fun u => !decide (k < f.indexOf u.inst)))
  have hw₃ := hw₂.trans (.relisted (t := t) (relisting_changeUses (some i) fun _ =>
    ((f.timelineAt t).usesOf (f.lastBefore (f.timelineAt t).locals k)).filter
      fun u => k < f.indexOf u.inst))
  rw [← hf'] at hw₃
  have hkeeps : Keeps (f.assigned i d vars) f' := hf' ▸
    ⟨⟨rfl, rfl, rfl, rfl, rfl, rfl, fun _ => rfl⟩, rfl, rfl, rfl, rfl, rfl, fun _ => rfl,
      fun _ => rfl, fun _ => rfl⟩
  refine {
    toTouches := (touches_assigned hx d vars).trans (.of_keeps hkeeps i)
    consistent := hw₃.consistent h hsched fun c w => ?_
    dest := ⟨d.number, ?_⟩
    id := (hw₃.timelineId? b v).trans hid }
  · have ht := h.linked.tables
    have hevents : f'.events c w = (f.assigned i d vars).events c w := by rw [hf']; rfl
    rw [hevents, events_assigned hx h.scheduled hi hd, show d.var = v from rfl]
    have ht₁ := hw₁.tables ht
    have ht₂ := hw₂.tables ht
    have hid₁ := (hw₁.timelineId? b v).trans hid
    have hid₂ := (hw₂.timelineId? b v).trans hid
    have hfirst : (f.entered t i v).account c w = if c = b ∧ w = v then
        ⟨(f.timelineAt t).waiting, (f.timelineAt t).localsWith f.indexOf i⟩ else f.account c w :=
      account_relisted (hrec.tables ht) hid c w
    rw [hf', account_relisted ht₂ hid₂, account_relisted ht₁ hid₁, hfirst]
    by_cases hc : c = b ∧ w = v
    · obtain ⟨rfl, rfl⟩ := hc
      simp only [and_self, if_true] at hfirst ⊢
      rw [account_changeUses, account_at ht₂ hid₂, account_relisted ht₁ hid₁, if_pos ⟨rfl, rfl⟩,
        account_changeUses]
      refine account_define h.scheduled hi hd ?_ ?_
      · rw [account_at ht hid, h.books]
      · rw [account_at ht₁ hid₁, hfirst]
    · simp only [if_neg hc]
      exact h.books c w
  · rw [hkeeps.inst, inst_assigned hx, if_pos rfl]

theorem define_sets (h : f.Consistent) (hi : (f.code b)[k]? = some i) (hd : (f.inst i).dest = none)
    {u : Unit} (hrun : Edit.define b i v f = .ok u f') : ∃ t, Sets b i v t f f' := by
  obtain ⟨t, f₁, htl, hrun⟩ := Edit.bind_ok hrun
  obtain ⟨hw, hid⟩ := timelineFor_weaves h.linked (stored_of_code hi) htl
  rw [Edit.bind_eq Edit.get_eq] at hrun
  obtain ⟨_, f₂, hat, hrun⟩ := Edit.bind_ok hrun
  have h₂ := defineAt_sets (hw.toRelinks.consistent h) hid (by rw [code, hw.instructions]; exact hi)
    (by rw [hw.inst]; exact hd) hat
  have hset : Sets b i v t f f₂ :=
    ⟨(Touches.of_keeps hw.toKeeps i).trans h₂.toTouches, h₂.consistent, h₂.dest, h₂.id⟩
  refine ⟨t, ?_⟩
  split at hrun
  · cases hrun
    exact hset
  · obtain ⟨_, f₃, hprop, hrun⟩ := Edit.bind_ok hrun
    cases hrun
    obtain ⟨x, hx, _⟩ := hset.consistent.linked.tables.placed hset.id
    exact hset.relinks (propagate_weaves hset.consistent.linked (by rw [hx]; rfl) hprop).toRelinks

/-! ## Whole insertions -/

theorem Places.op_self {n : Nat} {op : Opcode} (h : Places b n op i f f') :
    (f'.inst i).op = op := by
  have hc := h.content i
  rw [if_pos rfl] at hc
  exact congrArg Prod.fst hc

/-- The instructions that stood in a block before say what they said. -/
theorem Places.old {n : Nat} {op : Opcode} (h : Places b n op i f f') (hs : f.Scheduled)
    (ho : ∀ j, j ≠ i → (f''.inst j).content = (f'.inst j).content) {c : NodeId} {j : InstId}
    (hj : j ∈ f.code c) :
    (f''.inst j).op = (f.inst j).op ∧ (f''.inst j).dest = (f.inst j).dest := by
  have hne : j ≠ i := h.fresh ▸ hs.seated.live hj
  have hc := (ho j hne).trans (h.content j)
  rw [if_neg hne] at hc
  exact ⟨congrArg Prod.fst hc, congrArg (fun x => x.2.2) hc⟩

theorem Func.PhisFirst.insert {n : Nat} {op : Opcode} {f₁ : Func} (h : f.PhisFirst)
    (hp : Places b n op i f f₁) (hs : f.Scheduled) (ht : Touches i f₁ f')
    (hphi : (f.blockAt b).phiCount ≤ n) (hlen : n ≤ (f.code b).length) (hop : op ≠ .phi) :
    f'.PhisFirst := by
  have hcode : ∀ c, f'.code c =
      if c = b then (f.code b).take n ++ i :: (f.code b).drop n else f.code c := fun c => by
    rw [ht.code, hp.code]
  have hcount : ∀ c, (f'.blockAt c).phiCount = (f.blockAt c).phiCount := fun c => by
    rw [ht.phiCount, hp.phiCount]
  have hphis : ∀ c, f'.phis c = f.phis c := by
    intro c
    rw [phis, phis, hcount, hcode]
    split
    · next hc =>
      subst hc
      rw [List.take_append_of_le_length (by rw [List.length_take_of_le hlen]; exact hphi),
        List.take_take, Nat.min_eq_left hphi]
    · rfl
  have hplain : ∀ {c j}, j ∈ f'.plain c → j = i ∨ j ∈ f.plain c := by
    intro c j hj
    rw [plain, hcount, hcode] at hj
    split at hj
    · next hc =>
      subst hc
      rw [List.drop_append_of_le_length (by rw [List.length_take_of_le hlen]; exact hphi)] at hj
      rcases List.mem_append.mp hj with hj | hj
      · rw [List.drop_take] at hj
        exact .inr (List.mem_of_mem_take hj)
      · rcases List.mem_cons.mp hj with hj | hj
        · exact .inl hj
        · rw [← Nat.add_sub_cancel' hphi, ← List.drop_drop] at hj
          exact .inr (List.mem_of_mem_drop hj)
    · exact .inr hj
  refine ⟨fun c j hj => ?_, fun c j hj => ?_, fun c => ?_⟩
  · rw [hphis] at hj
    obtain ⟨hjop, hjd⟩ := hp.old hs ht.others (List.mem_of_mem_take hj)
    rw [hjop, hjd]
    exact h.first c j hj
  · rcases hplain hj with rfl | hj
    · rw [ht.op, hp.op_self]
      exact hop
    · rw [(hp.old hs ht.others (List.mem_of_mem_drop hj)).1]
      exact h.rest c j hj
  · rw [hphis]
    refine (h.apart c).imp_of_mem fun {j l} hj hl hjl w => ?_
    rw [defines_congr (hp.old hs ht.others (List.mem_of_mem_take hj)).2,
      defines_congr (hp.old hs ht.others (List.mem_of_mem_take hl)).2]
    exact hjl w

theorem insertable_no_phi {op : Operation} {n : Nat} {code : Opcode} {dest : Option Variable}
    {args : List Arg} {u : Unit} (h : Edit.insertable op b n code dest args f = .ok u f') :
    code ≠ .phi := by
  obtain ⟨_, h₁⟩ := Edit.unfrozen_bind_ok h
  have hp := (Edit.require_bind_ok h₁).1
  rw [Bool.and_eq_true, decide_eq_true_eq, decide_eq_true_eq] at hp
  exact hp.2

/-- A new instruction is placed, and nothing but this instruction is touched from then on. -/
theorem insertInst_places (h : f.WellFormed) (hb : (f.nodes.get? b).isSome)
    {op : Operation} {n : Nat}
    (hn : n ≤ (f.code b).length) {code : Opcode} {dest : Option Variable} {args : List Arg}
    (hrun : Edit.insertInst op b n code dest args f = .ok i f') :
    ∃ f₁, Places b n code i f f₁ ∧ Touches i f₁ f' ∧ f'.Consistent ∧ f'.memo = [] := by
  obtain ⟨_, f₀, hcheck, hrun₀⟩ := Edit.bind_ok hrun
  obtain ⟨j, f₁, hplace, hpl⟩ := placeInst_ok h.scheduled hb hn code
  rw [insertable_ok hcheck, Edit.bind_eq hplace] at hrun₀
  have hops : (f₁.inst j).operands = [] := by
    have hc := hpl.content j
    rw [if_pos rfl] at hc
    exact congrArg (fun x => x.2.1) hc
  obtain ⟨f₂, he, hrun₁⟩ := operands_enter (hpl.consistent h.toConsistent) (hpl.getElem? hn)
    hpl.dest_eq_none hops hrun₀
  have forgotten : ∀ {g : Func}, Touches j f₁ g → g.Consistent →
      Touches j f₁ { g with memo := [] } ∧ ({ g with memo := [] } : Func).Consistent := by
    intro g ht hg
    have hw := Relinks.forget hg.linked
    exact ⟨ht.trans (.of_keeps hw.toKeeps j), hw.consistent hg⟩
  cases dest with
  | none =>
    cases hrun₁
    obtain ⟨ht, hs⟩ := forgotten he.toTouches he.consistent
    exact ⟨f₁, hpl, ht, hs, rfl⟩
  | some v =>
    obtain ⟨_, f₃, hdef, hrun₂⟩ := Edit.bind_ok hrun₁
    obtain ⟨t, hset⟩ :=
        define_sets he.consistent (by rw [he.code]; exact hpl.getElem? hn) he.dest hdef
    cases hrun₂
    obtain ⟨ht, hs⟩ := forgotten (he.toTouches.trans hset.toTouches) hset.consistent
    exact ⟨f₁, hpl, ht, hs, rfl⟩

theorem insertInst_memoCorrect (h : f.WellFormed) (hb : (f.nodes.get? b).isSome)
    {op : Operation} {n : Nat}
    (hphi : (f.blockAt b).phiCount ≤ n) (hn : n ≤ (f.code b).length) {code : Opcode}
    {dest : Option Variable} {args : List Arg}
    (hrun : Edit.insertInst op b n code dest args f = .ok i f') : f'.MemoCorrect ∧
        SameGraph f f' := by
  obtain ⟨f₁, hpl, ht, hs, hm⟩ := insertInst_places h hb hn hrun
  obtain ⟨_, _, hcheck, _⟩ := Edit.bind_ok hrun
  exact ⟨.of_nil ⟨hs, h.phisFirst.insert hpl h.scheduled ht hphi hn (insertable_no_phi hcheck)⟩ hm,
    hpl.toSameGraph.trans ht.toSameGraph⟩

theorem appendInst_memoCorrect (h : f.WellFormed) (hb : (f.nodes.get? b).isSome) {code : Opcode}
    {dest : Option Variable} {args : List Arg}
    (hrun : Edit.appendInst b code dest args f = .ok i f') : f'.MemoCorrect ∧ SameGraph f f' :=
  insertInst_memoCorrect h hb (h.scheduled.phis b) (Nat.le_refl _) hrun

theorem prependInst_memoCorrect (h : f.WellFormed) (hb : (f.nodes.get? b).isSome) {code : Opcode}
    {dest : Option Variable} {args : List Arg}
    (hrun : Edit.prependInst b code dest args f = .ok i f') : f'.MemoCorrect :=
  (insertInst_memoCorrect h hb (Nat.le_refl _) (h.scheduled.phis b) hrun).1

theorem Func.PhisFirst.le_of_op (h : f.PhisFirst) (hi : (f.code b)[k]? = some i)
    (hop : (f.inst i).op ≠ .phi) : (f.blockAt b).phiCount ≤ k := by
  by_contra hlt
  refine hop (h.first b i (List.mem_iff_getElem?.mpr ⟨k, ?_⟩)).1
  rw [phis, List.getElem?_take, if_pos (Nat.lt_of_not_le hlt)]
  exact hi

theorem insertInstBefore_memoCorrect (h : f.WellFormed) (hb : (f.nodes.get? b).isSome) {r : InstRef}
    {code : Opcode} {dest : Option Variable} {args : List Arg}
    (hrun : Edit.insertInstBefore b r code dest args f = .ok i f') : f'.MemoCorrect := by
  obtain ⟨hat, hop, hrun⟩ := insertInstBefore_place h.scheduled hrun
  exact (insertInst_memoCorrect h hb (h.phisFirst.le_of_op hat hop)
    (Nat.le_of_lt (List.getElem?_eq_some_iff.mp hat).1) hrun).1

/-! ## Phis -/

theorem Func.Consistent.withPhi (h : f.Consistent) (hb : (f.nodes.get? b).isSome)
    (hroom : (f.blockAt b).phiCount < (f.code b).length) : (f.withPhi b).Consistent := by
  have hrec := recodes_withPhi (f := f) hb
  refine (Rewrites.of_recodes hrec (.inl rfl)).consistent h
      (scheduled_withPhi h.scheduled hb hroom) ?_
  exact h.books.congr hrec.account fun c w => events_congr (code_withPhi hb c) fun _ _ => rfl

theorem cut_behind_insert {l : List InstId} {n : Nat} (h : n ≤ l.length) (i : InstId) :
    (l.take n ++ i :: l.drop n).take (n + 1) = l.take n ++ [i] ∧
      (l.take n ++ i :: l.drop n).drop (n + 1) = l.drop n := by
  have hlen : (l.take n).length = n := List.length_take_of_le h
  have hle : (l.take n).length ≤ n + 1 := by rw [hlen]; exact Nat.le_succ n
  constructor
  · rw [List.take_append, List.take_of_length_le hle, hlen, Nat.add_sub_cancel_left]
    rfl
  · rw [List.drop_append, List.drop_of_length_le hle, hlen, Nat.add_sub_cancel_left]
    rfl

/-- A phi for a variable that has none comes behind the other phis. -/
theorem Func.PhisFirst.insertPhi {f₁ : Func} (h : f.PhisFirst) (hs : f.Scheduled)
    (hp : Places b (f.blockAt b).phiCount .phi i f f₁) (hb : (f₁.nodes.get? b).isSome)
    (ht : Touches i (f₁.withPhi b) f') {n : Nat} (hd : (f'.inst i).dest = some ⟨v, n⟩)
    (hnew : ∀ j ∈ f.phis b, f.defines v j = false) : f'.PhisFirst := by
  have hlen := hs.phis b
  have old : ∀ {c j}, j ∈ f.code c → (f'.inst j).op = (f.inst j).op ∧
      (f'.inst j).dest = (f.inst j).dest := fun hj => hp.old hs ht.others hj
  have hcode : ∀ c, f'.code c = if c = b
      then (f.code b).take (f.blockAt b).phiCount ++ i :: (f.code b).drop (f.blockAt b).phiCount
      else f.code c := fun c => by rw [ht.code, code_withPhi hb, hp.code]
  have hcount : ∀ c, (f'.blockAt c).phiCount =
      if c = b then (f.blockAt c).phiCount + 1 else (f.blockAt c).phiCount := fun c => by
    rw [ht.phiCount, blockAt_withPhi hb]
    split <;> simp only [hp.phiCount]
  have hphis : ∀ c, f'.phis c = if c = b then f.phis b ++ [i] else f.phis c := by
    intro c
    rw [phis, hcount, hcode]
    split
    · next hc =>
      subst hc
      exact (cut_behind_insert hlen i).1
    · rfl
  have hplain : ∀ c, f'.plain c = f.plain c := by
    intro c
    rw [plain, hcount, hcode]
    split
    · next hc =>
      subst hc
      exact (cut_behind_insert hlen i).2
    · rfl
  have hother : ∀ {c j}, j ∈ f.phis c → (f'.inst j).op = (f.inst j).op ∧
      (f'.inst j).dest = (f.inst j).dest := fun hj => old (List.mem_of_mem_take hj)
  refine ⟨fun c j hj => ?_, fun c j hj => ?_, fun c => ?_⟩
  · have hfirst : ∀ {c}, j ∈ f.phis c → (f'.inst j).op = .phi ∧ (f'.inst j).dest.isSome := by
      intro c hj
      rw [(hother hj).1, (hother hj).2]
      exact h.first c j hj
    rw [hphis] at hj
    split at hj
    · rcases List.mem_append.mp hj with hj | hj
      · exact hfirst hj
      · obtain rfl := List.mem_singleton.mp hj
        refine ⟨(ht.op j).trans hp.op_self, ?_⟩
        rw [hd]
        rfl
    · exact hfirst hj
  · rw [hplain] at hj
    rw [(old (List.mem_of_mem_drop hj)).1]
    exact h.rest c j hj
  · have hpairs : ∀ c, (f.phis c).Pairwise fun j l => ∀ w, f'.defines w j = true →
        f'.defines w l = false := fun c =>
      (h.apart c).imp_of_mem fun {j l} hj hl hjl w => by
        rw [defines_congr (hother hj).2, defines_congr (hother hl).2]
        exact hjl w
    rw [hphis]
    split
    · refine List.pairwise_append.mpr ⟨hpairs b, List.pairwise_singleton _ _, ?_⟩
      intro j hj l hl w hw
      obtain rfl := List.mem_singleton.mp hl
      rw [defines_congr (hother hj).2] at hw
      rw [defines, hd]
      refine decide_eq_false fun hvw => ?_
      rw [← hvw, hnew j hj] at hw
      cases hw
    · exact hpairs c

theorem linkPreds_weaves (h : f.Linked) (hid : f.timelineId? b v = some t) {α : Type} {a : α}
    {m : PUnit → Edit α} (hrun : (forIn (f.preds b) PUnit.unit (fun p _ => do
      let _ ← Edit.linkIncoming t p (← Edit.valueLeaving p v)
      pure (ForInStep.yield PUnit.unit)) >>= m) f = .ok a f') :
    ∃ f₁, Weaves f f₁ ∧ m ⟨⟩ f₁ = .ok a f' := by
  refine Edit.forIn_ok (fun _ g => Weaves f g) ?_ (.refl h) hrun
  intro done p rest g s g' hl hg hstep
  obtain ⟨T, g₁, hval, hstep⟩ := Edit.bind_ok hstep
  obtain ⟨_, g₂, hlink, hstep⟩ := Edit.bind_ok hstep
  cases hstep
  have hedge : p ∈ f.preds b := hl ▸ List.mem_append_right _ List.mem_cons_self
  have hp : (g.nodes.get? p).isSome := hg.block (h.preds b p hedge)
  obtain ⟨hw, hT⟩ := valueLeaving_weaves hg.linked hp hval
  have hw' := linkIncoming_weaves hw.linked (hw.id (hg.id hid)) (hw.block hp)
    (fun _ => by rw [(hg.trans hw).preds]; exact hedge) hT hlink
  exact ⟨rfl, (hg.trans hw).trans hw'⟩

theorem linkMissing_weaves (h : f.Linked) (hid : f.timelineId? b v = some t) {j : InstId}
    (hrun : (do
      if ((← get).timelineAt t).incoming.isEmpty then
        for p in (← get).preds b do
          let _ ← Edit.linkIncoming t p (← Edit.valueLeaving p v)
      return i : Edit InstId) f = .ok j f') : i = j ∧ Weaves f f' := by
  rw [Edit.bind_eq Edit.get_eq] at hrun
  by_cases he : (f.timelineAt t).incoming.isEmpty = true
  · simp only [if_pos he] at hrun
    rw [Edit.bind_eq Edit.get_eq] at hrun
    obtain ⟨f₁, h₁, hrun⟩ := linkPreds_weaves h hid (m := fun _ => pure i) hrun
    cases hrun
    exact ⟨rfl, h₁⟩
  · simp only [if_neg he] at hrun
    cases hrun
    exact ⟨rfl, .refl h⟩

/-- A phi is placed and defines its variable, and from then on only nodes are bound and made. -/
theorem createPhi_places (h : f.WellFormed) (hb : (f.nodes.get? b).isSome) {x : Variable}
    (hrun : Edit.createPhi b x f = .ok i f') : ∃ t f₁ f₂ f₃, Weaves f f₁ ∧
      Places b (f₁.blockAt b).phiCount .phi i f₁ f₂ ∧ (f₂.nodes.get? b).isSome ∧
      Sets b i x.id t (f₂.withPhi b) f₃ ∧ f₃.memo = [] ∧ Weaves f₃ f' ∧
      ∀ j ∈ f₁.phis b, f₁.defines x.id j = false := by
  obtain ⟨_, hrun₁⟩ := Edit.unfrozen_bind_ok hrun
  rw [Edit.bind_eq Edit.get_eq] at hrun₁
  obtain ⟨_, hrun₂⟩ := Edit.require_bind_ok hrun₁
  obtain ⟨_, hrun₃⟩ := Edit.require_bind_ok hrun₂
  obtain ⟨hnew, hrun₄⟩ := Edit.require_bind_ok hrun₃
  obtain ⟨t, f₁, htl, hrun₅⟩ := Edit.bind_ok hrun₄
  obtain ⟨hw, hid⟩ := timelineFor_weaves h.linked hb htl
  have h₁ := hw.toRelinks.wellFormed h
  have hb₁ : (f₁.nodes.get? b).isSome := hw.block hb
  obtain ⟨j, f₂, hplace, hpl⟩ := placeInst_ok h₁.scheduled hb₁ (h₁.scheduled.phis b) .phi
  rw [Edit.bind_eq Edit.get_eq, ← hw.phiCount b, Edit.bind_eq hplace,
    Edit.bind_eq (Edit.changeBlock_eq _ _)] at hrun₅
  have hb₂ : (f₂.nodes.get? b).isSome := by rw [hpl.stored]; exact hb₁
  have hat := hpl.getElem? (h₁.scheduled.phis b)
  have h₃ := (hpl.consistent h₁.toConsistent).withPhi hb₂ (by
    rw [hpl.phiCount]
    exact (List.getElem?_eq_some_iff.mp hat).1)
  have hrec := hpl.toRecodes.trans (recodes_withPhi hb₂)
  obtain ⟨_, f₄, hdef, hrun₆⟩ := Edit.bind_ok hrun₅
  have hset := defineAt_sets h₃ ((hrec.timelineId? b x.id).trans hid)
    (by rw [code_withPhi hb₂]; exact hat) hpl.dest_eq_none hdef
  rw [Edit.bind_eq Edit.bump_eq] at hrun₆
  have hset := hset.relinks (.forget hset.consistent.linked)
  have hnone : ∀ l ∈ f₁.phis b, f₁.defines x.id l = false := by
    intro l hl
    rw [phis, code, hw.instructions, hw.phiCount] at hl
    simp only [Bool.not_eq_true', List.any_eq_false] at hnew
    rw [defines, hw.inst]
    exact Bool.eq_false_iff.mpr (hnew l hl)
  suffices hlast : j = i ∧ Weaves { f₄ with memo := [] } f' from
    hlast.1 ▸ ⟨t, f₁, f₂, _, hw, hpl, hb₂, hset, rfl, hlast.2, hnone⟩
  split at hrun₆
  · exact linkMissing_weaves hset.consistent.linked hset.id hrun₆
  · obtain ⟨_, f₅, hprop, hrun₇⟩ := Edit.bind_ok hrun₆
    obtain ⟨y, hy, _⟩ := hset.consistent.linked.tables.placed hset.id
    have hw₅ := propagate_weaves hset.consistent.linked (by rw [hy]; rfl) hprop
    exact (linkMissing_weaves hw₅.linked (hw₅.id hset.id) hrun₇).imp_right hw₅.trans

theorem createPhi_memoCorrect (h : f.WellFormed) (hb : (f.nodes.get? b).isSome) {x : Variable}
    (hrun : Edit.createPhi b x f = .ok i f') : f'.MemoCorrect := by
  obtain ⟨t, f₁, f₂, f₃, hw, hpl, hb₂, hset, hm, hw', hnone⟩ := createPhi_places h hb hrun
  have h₁ := hw.toRelinks.wellFormed h
  obtain ⟨n, hd⟩ := hset.dest
  exact hw'.memoCorrect
      (.of_nil ⟨hset.consistent, h₁.phisFirst.insertPhi h₁.scheduled hpl hb₂ hset.toTouches
    hd hnone⟩ hm)

end

end DefFlow.Flow
