import DefFlow.Proofs.Edits.Insert
import DefFlow.Proofs.Reaching.Paths

/-!
# Building code

While a function is being built it has no nodes, and its blocks need not be part of the
body yet. An instruction is added behind the others of a block. Its uses are held by the
last definition before them, or wait for what flows in if there is none.
-/

set_option autoImplicit false

namespace DefFlow.Flow

open Func

/-! ## Lists of uses -/

section

variable {f : Func} {u : UseSite} {l : List UseSite}

theorem insertSite_perm (f : Func) (u : UseSite) (l : List UseSite) :
    (f.insertSite u l).Perm (u :: l) := by
  rw [insertSite]
  refine List.perm_middle.trans ?_
  rw [List.takeWhile_append_dropWhile]

end

section

variable {f : Func} {b c : NodeId} {v w : VarId} {t : TimelineId} {i : InstId}
  {change : Timeline → Timeline}

theorem waiting_relisted (ht : f.Tables) (b : NodeId) (v : VarId) :
    (f.relisted t change).waiting b v =
      if f.timelineId? b v = some t then (change (f.timelineAt t)).waiting else f.waiting b v := by
  rw [waiting, timeline?_relisted, waiting, timeline?]
  cases hid : f.timelineId? b v with
  | none => rfl
  | some u =>
    obtain ⟨x, hx, -⟩ := ht.placed hid
    rw [Option.bind_some, Option.bind_some, hx, Option.map_some]
    by_cases hu : u = t
    · rw [if_pos (hu ▸ rfl), if_pos (by rw [hu]), timelineAt_of_get? (hu ▸ hx)]
    · rw [if_neg (Ne.symm hu), if_neg fun h => hu (Option.some.inj h)]

/-- The uses of `v` that wait in `b` are changed, or those of one of its definitions. -/
theorem waiting_changeUses (ht : f.Tables) (hid : f.timelineId? b v = some t)
    (holder : Option InstId) (change : List UseSite → List UseSite) (c : NodeId) (w : VarId) :
    (f.relisted t fun x => x.changeUses holder change).waiting c w =
      if (c = b ∧ w = v) ∧ holder = none then change (f.waiting c w) else f.waiting c w := by
  rw [waiting_relisted ht]
  by_cases hc : c = b ∧ w = v
  · obtain ⟨rfl, rfl⟩ := hc
    rw [if_pos hid, ht.waiting_eq hid]
    cases holder with
    | none => rw [if_pos ⟨⟨rfl, rfl⟩, rfl⟩]; rfl
    | some j => rw [if_neg fun h => nomatch h.2]; rfl
  · rw [if_neg fun hcw => hc (ht.eq_of_timelineId? hid hcw), if_neg fun h => hc h.1]

theorem inst_changeInst (hi : (f.insts.get? i).isSome) (change : Instruction → Instruction)
    (j : InstId) : ({ f with insts := f.insts.modify i change } : Func).inst j =
      if j = i then change (f.inst i) else f.inst j := by
  obtain ⟨x, hx⟩ := Option.isSome_iff_exists.mp hi
  rw [inst, Arena.get?_modify_map]
  by_cases hj : j = i
  · rw [if_pos hj, hj, inst, hx, Option.map_some, if_pos rfl]
    rfl
  · rw [if_neg hj, inst]
    cases f.insts.get? j with
    | none => rfl
    | some y => rw [Option.map_some, if_neg (Ne.symm hj)]

end

/-! ## Waiting uses -/

structure Func.Waits (f : Func) : Prop where
  nodup : ∀ b v, (f.waiting b v).Nodup
  mem : ∀ b v u, u ∈ f.waiting b v ↔ f.UsedAt b v u ∧ f.Quiet v b 0 (f.indexOf u.inst)

section

variable {f f' : Func} {b : NodeId} {i : InstId}

theorem Operates.standing_inst (h : Operates f f') (i : InstId) :
    (f'.inst i).standing = (f.inst i).standing := by
  rw [inst, inst, ← Option.getD_map Instruction.standing, ← Option.getD_map Instruction.standing,
    h.standing]

theorem Operates.block (h : Operates f f') (i : InstId) : (f'.inst i).block = (f.inst i).block :=
  congrArg Prod.fst (h.standing_inst i)

theorem Operates.indexOf (h : Operates f f') (i : InstId) : f'.indexOf i = f.indexOf i :=
  congrArg (fun x => x.2.1) (h.standing_inst i)

theorem Operates.quiet_iff (h : Operates f f') {v : VarId} {j k : Nat} :
    f'.Quiet v b j k ↔ f.Quiet v b j k := by
  have hd : ∀ x, f'.defines v x = f.defines v x := fun x => by rw [defines, defines, h.dest]
  rw [Quiet, Quiet, h.code]
  simp only [hd]

end

/-! ## Operands -/

def Arg.operand : Arg → Operand
  | .var v => .use v.id
  | .constant c => .constant c

structure Takes (i : InstId) (os : List Operand) (f f' : Func) : Prop extends Operates f f' where
  head : f'.head = f.head
  vars : f'.vars = f.vars
  incoming : f'.incoming = f.incoming
  inst : ∀ j, f'.inst j =
    if j = i then { f.inst i with operands := (f.inst i).operands ++ os } else f.inst j
  waits : f.Waits → f'.Waits

namespace Takes

variable {f f' f'' : Func} {i : InstId} {os os' : List Operand}

theorem refl (h : f.Tables) (i : InstId) : Takes i [] f f where
  toOperates := .refl h
  head := rfl
  vars := rfl
  incoming := rfl
  inst j := by split <;> simp_all
  waits := id

theorem trans (h : Takes i os f f') (h' : Takes i os' f' f'') : Takes i (os ++ os') f f'' where
  toOperates := h.toOperates.trans h'.toOperates
  head := h'.head.trans h.head
  vars := h'.vars.trans h.vars
  incoming := h'.incoming.trans h.incoming
  inst j := by
    rw [h'.inst, h.inst, h.inst, if_pos rfl]
    split <;> simp
  waits hw := h'.waits (h.waits hw)

end Takes

section

variable {f f' : Func} {b : NodeId} {i : InstId} {o : Operand}

theorem usedAt_iff {v : VarId} {u : UseSite} : f.UsedAt b v u ↔
    (f.inst u.inst).block = some b ∧ (f.inst u.inst).operands[u.slot]? = some (.use v) :=
  ⟨fun h => ⟨h.block, h.operand⟩, fun h => ⟨h.1, h.2⟩⟩

theorem getElem?_snoc {α : Type} (l : List α) (a c : α) (k : Nat) :
    (l ++ [a])[k]? = some c ↔ l[k]? = some c ∨ (k = l.length ∧ a = c) := by
  rw [List.getElem?_append]
  split
  · next hk => simp [Nat.ne_of_lt hk]
  · next hk =>
    rw [List.getElem?_eq_none (Nat.le_of_not_lt hk), List.getElem?_singleton]
    simp only [reduceCtorEq, false_or, Option.ite_none_right_eq_some, Option.some.injEq]
    exact and_congr_left fun _ => ⟨fun hd => by omega, fun hd => by omega⟩

/-- A place behind the operands of an instruction is no use yet. -/
theorem not_usedAt_of_length_le {u : UseSite} {v : VarId}
    (h : (f.inst u.inst).operands.length ≤ u.slot) : ¬ f.UsedAt b v u := by
  intro hu
  have := hu.operand
  rw [List.getElem?_eq_none h] at this
  cases this

/-- A use is added behind the operands of `i`, and to the waiting uses if nothing before it
defines its variable. -/
theorem Func.Waits.takes (h : f.Waits) (ho : Operates f f') (hi : (f.inst i).block = some b)
    (hinst : ∀ j, f'.inst j =
      if j = i then { f.inst i with operands := (f.inst i).operands ++ [o] } else f.inst j)
    (hwait : ∀ c w, (f'.waiting c w).Perm (f.waiting c w) ∧
        (c = b → o = .use w → ¬ f.Quiet w b 0 (f.indexOf i)) ∨
      (f'.waiting c w).Perm (⟨i, (f.inst i).operands.length⟩ :: f.waiting c w) ∧
        c = b ∧ o = .use w ∧ f.Quiet w b 0 (f.indexOf i)) : f'.Waits := by
  have hnew : ∀ c w, (⟨i, (f.inst i).operands.length⟩ : UseSite) ∉ f.waiting c w := by
    intro c w hm
    exact not_usedAt_of_length_le (Nat.le_refl _) ((h.mem c w _).mp hm).1
  have hused : ∀ c w u, f'.UsedAt c w u ↔ f.UsedAt c w u ∨
      (c = b ∧ o = .use w ∧ u = ⟨i, (f.inst i).operands.length⟩) := by
    rintro c w ⟨j, k⟩
    rw [usedAt_iff, usedAt_iff, hinst]
    by_cases hj : j = i
    · subst hj
      rw [if_pos rfl, hi, getElem?_snoc]
      simp only [UseSite.mk.injEq, true_and, Option.some.injEq]
      constructor
      · rintro ⟨rfl, hk | ⟨hk, rfl⟩⟩
        · exact .inl ⟨rfl, hk⟩
        · exact .inr ⟨rfl, rfl, hk⟩
      · rintro (⟨rfl, hk⟩ | ⟨rfl, rfl, hk⟩)
        · exact ⟨rfl, .inl hk⟩
        · exact ⟨rfl, .inr ⟨hk, rfl⟩⟩
    · rw [if_neg hj]
      simp [hj]
  refine ⟨fun c w => ?_, fun c w u => ?_⟩
  · rcases hwait c w with ⟨hp, -⟩ | ⟨hp, -⟩
    · exact hp.nodup_iff.mpr (h.nodup c w)
    · exact hp.nodup_iff.mpr (List.nodup_cons.mpr ⟨hnew c w, h.nodup c w⟩)
  · rw [hused, ho.quiet_iff, ho.indexOf]
    rcases hwait c w with ⟨hp, hno⟩ | ⟨hp, rfl, ho, hq⟩
    · rw [hp.mem_iff, h.mem]
      refine ⟨fun hm => ⟨.inl hm.1, hm.2⟩, ?_⟩
      rintro ⟨hu | ⟨rfl, how, rfl⟩, hq⟩
      · exact ⟨hu, hq⟩
      · exact absurd hq (hno rfl how)
    · rw [hp.mem_iff, List.mem_cons, h.mem]
      constructor
      · rintro (rfl | hm)
        · exact ⟨.inr ⟨rfl, ho, rfl⟩, hq⟩
        · exact ⟨.inl hm.1, hm.2⟩
      · rintro ⟨hu | ⟨-, -, rfl⟩, hq⟩
        · exact .inr ⟨hu, hq⟩
        · exact .inl rfl

/-- A constant is an operand that nothing has to be listed for. -/
theorem takes_constant (ht : f.Tables) (hi : (f.inst i).block = some b) (c : Constant)
    (hlive : (f.insts.get? i).isSome) : Takes i [.constant c] f { f with
      insts := f.insts.modify i fun x => { x with operands := x.operands ++ [.constant c] } } := by
  have ho := operates_changeInst ht i (fun x => { x with
    operands := x.operands ++ [.constant c] }) fun _ => rfl
  have hinst := inst_changeInst hlive fun x => { x with operands := x.operands ++ [.constant c] }
  refine ⟨ho, rfl, rfl, rfl, hinst, fun hw => hw.takes ho hi hinst fun c w => .inl ⟨.refl _, ?_⟩⟩
  rintro - ⟨⟩

/-- A use is held by the last definition before its instruction, or waits if there is none. -/
theorem takes_use (ht : f.Tables) (hs : f.Scheduled) (hb : (f.nodes.get? b).isSome)
    (hi : (f.inst i).block = some b) (hlive : (f.insts.get? i).isSome) {v : Variable}
    {op : Operation} {u : Unit}
    (hrun : Edit.addOperand op b i (f.indexOf i) (f.inst i).operands.length (.var v) f = .ok u f') :
    Takes i [.use v.id] f f' := by
  have hop := addOperand_ok ht hb hrun
  rw [Edit.addOperand, Edit.bind_eq Edit.get_eq] at hrun
  obtain ⟨_, hrun⟩ := Edit.require_bind_ok hrun
  obtain ⟨t, f₁, htl, ht₁, hlists⟩ := Edit.timelineFor_ok ht hb v.id
  rw [Edit.bind_eq htl, Edit.bind_eq (Edit.changeInst_eq _ _), Edit.bind_eq Edit.get_eq] at hrun
  let f₂ : Func := { f₁ with insts := f₁.insts.modify i fun x =>
    { x with operands := x.operands ++ [.use v.id] } }
  have hop₁ : Operates f f₁ := hlists.operates ht ht₁
  have hop₂ : Operates f₁ f₂ := operates_changeInst ht₁ i _ fun _ => rfl
  have hall := hop₁.trans hop₂
  have hid : f₂.timelineId? b v.id = some t := hlists.self
  have hinst : ∀ j, f₂.inst j = if j = i then
      { f.inst i with operands := (f.inst i).operands ++ [.use v.id] } else f.inst j := by
    intro j
    rw [inst_changeInst (by rw [hlists.keeps.insts]; exact hlive), hlists.keeps.inst,
      hlists.keeps.inst]
  have hs₂ : f₂.Scheduled := hs.congr hall.code hall.phiCount hall.locals hall.standing
  let holder := f₂.lastBefore (f₂.timelineAt t).locals (f.indexOf i)
  have hholder : holder = none ↔ f.Quiet v.id b 0 (f.indexOf i) := by
    rw [← hall.quiet_iff, ← hs₂.latestDefBefore?_eq_none, latestDefBefore?,
      hall.tables.timeline?_eq hid]
    rfl
  have hf' : f' = f₂.relisted t fun x => x.changeUses holder
      (f₂.insertSite ⟨i, (f.inst i).operands.length⟩) := by
    cases hrun
    rfl
  have hwaiting : ∀ c w, f'.waiting c w = if (c = b ∧ w = v.id) ∧ holder = none then
      f₂.insertSite ⟨i, (f.inst i).operands.length⟩ (f.waiting c w) else f.waiting c w := by
    intro c w
    rw [hf', waiting_changeUses hall.tables hid, ← hlists.waiting c w]
    rfl
  have hinst' : ∀ j, f'.inst j = f₂.inst j := fun j => by rw [hf']; rfl
  refine ⟨hop, ?_, ?_, ?_, fun j => (hinst' j).trans (hinst j), fun hw => hw.takes hop hi
    (fun j => (hinst' j).trans (hinst j)) fun c w => ?_⟩
  · rw [hf']
    exact hlists.keeps.head
  · rw [hf']
    exact hlists.keeps.vars
  · rw [hf']
    exact hlists.incoming
  · rw [hwaiting]
    split
    · next h =>
      obtain ⟨⟨rfl, rfl⟩, hq⟩ := h
      exact .inr ⟨insertSite_perm _ _ _, rfl, rfl, hholder.mp hq⟩
    · next h =>
      refine .inl ⟨.refl _, ?_⟩
      rintro rfl ⟨⟩ hq
      exact h ⟨⟨rfl, rfl⟩, hholder.mpr hq⟩

theorem takes_operand (ht : f.Tables) (hs : f.Scheduled) (hb : (f.nodes.get? b).isSome)
    (hi : (f.inst i).block = some b) (hlive : (f.insts.get? i).isSome) {a : Arg}
    {op : Operation} {u : Unit}
    (hrun : Edit.addOperand op b i (f.indexOf i) (f.inst i).operands.length a f = .ok u f') :
    Takes i [a.operand] f f' := by
  cases a with
  | constant c =>
    cases hrun
    exact takes_constant ht hi c hlive
  | var v => exact takes_use ht hs hb hi hlive hrun

/-- The operands of a new instruction, one after the other. -/
theorem takes_operands (ht : f.Tables) (hs : f.Scheduled) (hb : (f.nodes.get? b).isSome)
    (hi : (f.inst i).block = some b) (hlive : (f.insts.get? i).isSome)
    (hnone : (f.inst i).operands = []) {op : Operation} {args : List Arg} {k : PUnit → Edit InstId}
    {j : InstId} (hrun : (forIn args.zipIdx PUnit.unit (fun (x : Arg × Nat) _ => do
      Edit.addOperand op b i (f.indexOf i) x.2 x.1
      pure (ForInStep.yield PUnit.unit)) >>= k) f = .ok j f') :
    ∃ f₁, Takes i (args.map Arg.operand) f f₁ ∧ k ⟨⟩ f₁ = .ok j f' := by
  have hloop := Edit.forIn_ok (fun done f₁ => Takes i ((done.map Prod.fst).map Arg.operand) f f₁)
    ?_ (Takes.refl ht i) hrun
  · rwa [List.zipIdx_map_fst] at hloop
  · rintro done ⟨a, slot⟩ rest f₁ s f₂ hsplit htakes hstep
    obtain ⟨_, f₃, hadd, hstep⟩ := Edit.bind_ok hstep
    have hslot : slot = (f₁.inst i).operands.length := by
      have hget : args.zipIdx[done.length]? = some (a, slot) := by rw [hsplit]; simp
      rw [List.getElem?_zipIdx] at hget
      obtain ⟨_, -, he⟩ := Option.map_eq_some_iff.mp hget
      rw [htakes.inst, if_pos rfl, hnone]
      simp only [List.nil_append, List.length_map]
      exact (Prod.mk.inj he).2.symm.trans (Nat.zero_add _)
    have hlive₁ : (f₁.insts.get? i).isSome := by
      rw [← Option.isSome_map, htakes.standing, Option.isSome_map]
      exact hlive
    rw [hslot, ← htakes.indexOf i] at hadd
    have hone := takes_operand htakes.tables
      (hs.congr htakes.code htakes.phiCount htakes.locals htakes.standing)
      (by rw [htakes.stored]; exact hb) ((htakes.block i).trans hi) hlive₁ hadd
    cases hstep
    exact ⟨rfl, by simpa using htakes.trans hone⟩

end

/-! ## Definitions -/

def Variable.plain (v : Variable) : Variable := { v with defs := 0 }

structure Assigns (b : NodeId) (i : InstId) (v : VarId) (f f' : Func) : Prop
    extends SameGraph f f' where
  tables : f'.Tables
  scheduled : f'.Scheduled
  code : ∀ c, f'.code c = f.code c
  head : f'.head = f.head
  vars : f'.vars.map Variable.plain = f.vars.map Variable.plain
  incoming : f'.incoming = f.incoming
  inst : ∃ n, ∀ j, f'.inst j = if j = i then { f.inst i with dest := some ⟨v, n⟩ } else f.inst j
  waiting : ∀ c w, (∀ u ∈ f.waiting b w, f.indexOf u.inst ≤ f.indexOf i) →
    f'.waiting c w = f.waiting c w

section

variable {f f' : Func} {b : NodeId} {v : VarId} {t : TimelineId} {i : InstId} {k : Nat}

theorem inst_assigned (hi : (f.insts.get? i).isSome) (d : Def) (vars : List Variable)
    (j : InstId) : (f.assigned i d vars).inst j =
      if j = i then { f.inst i with dest := some d } else f.inst j :=
  inst_changeInst hi _ j

theorem plain_count (vars : List Variable) (v : VarId) :
    (vars.map fun x => if x.id = v then { x with defs := x.defs + 1 } else x).map Variable.plain =
      vars.map Variable.plain := by
  rw [List.map_map]
  refine List.map_congr_left fun x _ => ?_
  rw [Function.comp]
  split <;> rfl

theorem Variable.eq_of_plain {v w : Variable} (h : w.plain = v.plain) :
    w.owner = v.owner ∧ w.id = v.id ∧ w.name = v.name ∧ w.type = v.type := by
  cases v
  cases w
  cases h
  exact ⟨rfl, rfl, rfl, rfl⟩

theorem varAt_plain (h : f'.vars.map Variable.plain = f.vars.map Variable.plain) (v : VarId) :
    (f'.varAt v).plain = (f.varAt v).plain := by
  cases v with
  | zero => rfl
  | succ n =>
    have hn := congrArg (fun l => l[n]?.getD default) h
    simp only [List.getElem?_map] at hn
    rw [Func.varAt, Func.varAt, Func.var?, Func.var?]
    cases h₁ : f'.vars[n]? <;> cases h₂ : f.vars[n]? <;> rw [h₁, h₂] at hn <;> exact hn

theorem assigns_defineAt (h : f.Scheduled) (ht : f.Tables) (hid : f.timelineId? b v = some t)
    (hi : (f.code b)[k]? = some i) (hd : (f.inst i).dest = none) {u : Unit}
    (hrun : Edit.defineAt t i v f = .ok u f') : Assigns b i v f f' := by
  obtain ⟨hdef, -⟩ := defineAt_ok h ht hid hi hd hrun
  obtain ⟨x, hx, -⟩ := h.place hi
  have hf' := defineAt_shape hrun
  have ht₂ : (f.entered t i v).Tables := (defines_entered h ht hid hi hd).tables
  have hid₂ : (f.entered t i v).timelineId? b v = some t := hid
  have hwaiting₂ : ∀ c w, (f.entered t i v).waiting c w = f.waiting c w := by
    intro c w
    refine (waiting_relisted (recodes_assigned.tables ht) c w).trans ?_
    split
    · next hcw => exact (ht.waiting_eq hcw).symm
    · rfl
  refine ⟨hdef.toSameGraph, hdef.tables, hdef.scheduled, hdef.code, ?_, ?_, ?_,
    ⟨(f.varAt v).defs + 1, fun j => ?_⟩, fun c w hbefore => ?_⟩
  · rw [hf']
    rfl
  · rw [hf']
    exact plain_count _ _
  · rw [hf']
    rfl
  · rw [hf']
    exact inst_assigned (by rw [hx]; rfl) _ (f.counting v) j
  · rw [hf', waiting_changeUses (operates_changeUses ht₂ t _ _).tables hid₂,
      if_neg fun hcw => Option.some_ne_none _ hcw.2, waiting_changeUses ht₂ hid₂, hwaiting₂]
    by_cases hcw : (c = b ∧ w = v) ∧ f.lastBefore (f.timelineAt t).locals (f.indexOf i) = none
    · rw [if_pos hcw]
      obtain ⟨⟨rfl, rfl⟩, -⟩ := hcw
      exact List.filter_eq_self.mpr fun u hu => by simpa using hbefore u hu
    · rw [if_neg hcw]

theorem Assigns.waits (h : Assigns b i v f f') (hs : f.Scheduled) (hi : (f.code b)[k]? = some i)
    (hlast : (f.code b).length = k + 1) (hw : f.Waits) : f'.Waits := by
  obtain ⟨n, hinst⟩ := h.inst
  have hindex : ∀ j, f'.indexOf j = f.indexOf j := by
    intro j
    rw [indexOf, indexOf, hinst]
    split
    · next hj => rw [hj]
    · rfl
  have hused : ∀ c w u, f'.UsedAt c w u ↔ f.UsedAt c w u := by
    intro c w u
    rw [usedAt_iff, usedAt_iff, hinst]
    split
    · next hj => rw [hj]
    · rfl
  have hbefore : ∀ {u c w}, f.UsedAt c w u → (f.code c)[f.indexOf u.inst]? = some u.inst :=
    fun hu => hs.getElem?_of_block hu.block
  have hle : ∀ w, ∀ u ∈ f.waiting b w, f.indexOf u.inst ≤ f.indexOf i := by
    intro w u hu
    rw [hs.indexOf hi]
    have := (List.getElem?_eq_some_iff.mp (hbefore ((hw.mem b w u).mp hu).1)).1
    omega
  refine ⟨fun c w => ?_, fun c w u => ?_⟩
  · rw [h.waiting c w (hle w)]
    exact hw.nodup c w
  · rw [h.waiting c w (hle w), hw.mem, hused, hindex]
    refine and_congr_right fun hu => ?_
    -- the instruction stands behind every place that counts
    have hne : ∀ m, m < f.indexOf u.inst → ∀ x, (f.code c)[m]? = some x → x ≠ i := by
      rintro m hm x hx rfl
      have hc : c = b := hs.seated.block_unique (List.mem_of_getElem? hx) (List.mem_of_getElem? hi)
      have hlt := (List.getElem?_eq_some_iff.mp (hbefore hu)).1
      have hmk : m = k := (hs.indexOf hx).symm.trans (hs.indexOf hi)
      rw [hc, hlast] at hlt
      omega
    rw [Quiet, Quiet, h.code]
    refine forall_congr' fun m => imp_congr_right fun _ => forall_congr' fun hm =>
      forall_congr' fun x => forall_congr' fun hx => ?_
    rw [defines, defines, hinst, if_neg (hne m hm x hx)]

end

/-! ## Functions that are being built -/

structure Func.Draft (f : Func) : Prop where
  forest : f.Forest
  tables : f.Tables
  scheduled : f.Scheduled
  unfrozen : f.frozen = false
  memo : f.memo = []
  nodes : ∀ n, f.incoming.get? n = none
  waits : f.Waits

section

variable {f f' : Func} {b : NodeId} {v : VarId} {i : InstId} {k : Nat}

theorem carriedOn_eq (f : Func) (v : VarId) (mark : IncomingId) (step : PropagationStep) :
    ∃ r, Edit.carriedOn v mark step f = .ok r f := by
  rw [Edit.carriedOn, Edit.bind_eq Edit.get_eq]
  cases f.timelineId? step.block v with
  | none => dsimp only; split <;> exact ⟨_, rfl⟩
  | some t => dsimp only; repeat' split
              all_goals exact ⟨_, rfl⟩

theorem rebindNodes_nil (o : Edit.Outlook) (v : VarId) (admitted : List NodeId)
    (step : PropagationStep) : Edit.rebindNodes o v admitted step [] = pure 0 := rfl

/-- A walk through a function without nodes finds nothing to bind. -/
theorem spread_of_no_nodes (h : ∀ b, f.joinNodes b v = []) (o : Edit.Outlook) (n : Nat) :
    ∀ queue visited count, ∃ c, Edit.spread o v n queue visited count f = .ok c f := by
  induction n with
  | zero => exact fun _ _ count => ⟨count, rfl⟩
  | succ n ih =>
    intro queue visited count
    cases queue with
    | nil => exact ⟨count, rfl⟩
    | cons step queue =>
      obtain ⟨r, hr⟩ := carriedOn_eq f v o.mark step
      rw [Edit.spread, Edit.bind_eq Edit.get_eq, h, rebindNodes_nil,
          Edit.bind_eq (Edit.pure_eq 0), Edit.bind_eq hr]
      cases r with
      | none => exact ih _ _ _
      | some r => exact ih _ _ _

theorem propagate_of_no_nodes (h : ∀ b v, f.joinNodes b v = []) (hf : f.frozen = false)
    (t : TimelineId) (cache : Option IncomingCache) :
    ∃ c, Edit.propagate t cache f = .ok c f := by
  rw [Edit.propagate, Edit.bind_eq (Edit.unfrozen_eq hf _), Edit.bind_eq Edit.get_eq,
    Edit.announce, Edit.bind_eq Edit.get_eq]
  split
  · exact ⟨0, rfl⟩
  · exact spread_of_no_nodes (fun b => h b _) _ _ _ _ _

theorem Assigns.define (h : f.Scheduled) (ht : f.Tables) (hf : f.frozen = false)
    (hn : ∀ n, f.incoming.get? n = none) (hb : (f.nodes.get? b).isSome)
    (hi : (f.code b)[k]? = some i) (hd : (f.inst i).dest = none) {u : Unit}
    (hrun : Edit.define b i v f = .ok u f') :
    Assigns b i v f f' := by
  obtain ⟨t, f₁, htl, ht₁, hlists⟩ := Edit.timelineFor_ok ht hb v
  have hop := hlists.operates ht ht₁
  rw [Edit.define, Edit.bind_eq htl, Edit.bind_eq Edit.get_eq] at hrun
  obtain ⟨_, f₂, hat, hrun⟩ := Edit.bind_ok hrun
  have hs₁ : f₁.Scheduled := h.congr hop.code hop.phiCount hop.locals hop.standing
  have hassigns :=
      assigns_defineAt hs₁ ht₁ hlists.self (hop.code b ▸ hi) ((hop.dest i).trans hd) hat
  have hf' : f' = f₂ := by
    split at hrun
    · cases hrun
      rfl
    · have hnodes : ∀ n, f₂.incoming.get? n = none := by
        rw [hassigns.incoming, hlists.incoming]
        exact hn
      have hf₂ : f₂.frozen = false := by
        rw [hassigns.frozen, hop.frozen]
        exact hf
      obtain ⟨c, hc⟩ :=
          propagate_of_no_nodes (hassigns.tables.joinNodes_of_no_nodes hnodes) hf₂ t none
      rw [Edit.bind_eq hc] at hrun
      cases hrun
      rfl
  obtain ⟨n, hinst⟩ := hassigns.inst
  refine hf' ▸ ⟨hop.toSameGraph.trans hassigns.toSameGraph, hassigns.tables, hassigns.scheduled,
    fun c => (hassigns.code c).trans (hop.code c), hassigns.head.trans hlists.keeps.head, ?_,
    hassigns.incoming.trans hlists.incoming,
    ⟨n, fun j => ?_⟩, fun c w hbefore => ?_⟩
  · rw [hassigns.vars, hlists.keeps.vars]
  · rw [hinst, hlists.keeps.inst, hlists.keeps.inst]
  · rw [hassigns.waiting c w, hlists.waiting]
    rw [hlists.waiting]
    intro u hu
    rw [hop.indexOf, hop.indexOf]
    exact hbefore u hu

/-- An instruction that has no operands yet behind the others of its block. -/
theorem Places.waits {op : Opcode} (h : Places b (f.code b).length op i f f') (hs : f.Scheduled)
    (hw : f.Waits) : f'.Waits := by
  have hs' := h.scheduled hs
  have hcode : ∀ c (k : Nat) j, (f.code c)[k]? = some j → (f'.code c)[k]? = some j := by
    intro c k j hk
    rw [h.code]
    split
    · next hc =>
      subst hc
      rw [List.take_length, List.drop_length]
      exact (getElem?_snoc _ _ _ _).mpr (.inl hk)
    · exact hk
  have hdefines : ∀ w j, f'.defines w j = f.defines w j := fun w j => by
    rw [defines, defines, h.dest]
  have hmem : ∀ c j, j ≠ i → (j ∈ f'.code c ↔ j ∈ f.code c) := by
    intro c j hj
    rw [h.code]
    split
    · next hc => simp [hc, hj]
    · rfl
  have hused : ∀ c w u, f'.UsedAt c w u ↔ f.UsedAt c w u := by
    intro c w u
    have hc := congrArg (fun x => x.2.1) (h.content u.inst)
    rw [usedAt_iff, usedAt_iff, h.seated.block_iff, hs.seated.block_iff]
    by_cases hu : u.inst = i
    · rw [if_pos hu] at hc
      have hold : u.inst ∉ f.code c := fun hm => hs.seated.live hm (hu.trans h.fresh)
      rw [show (f'.inst u.inst).operands = [] from hc]
      simp [hold]
    · rw [if_neg hu] at hc
      rw [show (f'.inst u.inst).operands = (f.inst u.inst).operands from hc, hmem c _ hu]
  have hwaiting : ∀ c w, f'.waiting c w = f.waiting c w := fun c w => by
    rw [waiting, waiting, h.timeline?]
  refine ⟨fun c w => hwaiting c w ▸ hw.nodup c w, fun c w u => ?_⟩
  rw [hwaiting, hw.mem, hused]
  refine and_congr_right fun hu => ?_
  have hat := hs.getElem?_of_block hu.block
  rw [hs'.indexOf (hcode c _ _ hat)]
  refine forall_congr' fun m => imp_congr_right fun _ => forall_congr' fun hm => ?_
  have hlt := (List.getElem?_eq_some_iff.mp hat).1
  rw [hcode c m _ (List.getElem?_eq_getElem (Nat.lt_trans hm hlt)),
    List.getElem?_eq_getElem (Nat.lt_trans hm hlt)]
  simp only [hdefines]

theorem Func.Waits.memo (h : f.Waits) (m : List (Question × Stack)) :
    ({ f with memo := m } : Func).Waits := by
  refine ⟨h.nodup, fun c w u => (h.mem c w u).trans (and_congr_left' ?_)⟩
  rw [usedAt_iff, usedAt_iff]
  rfl

def Instruction.told (x : Instruction) : Opcode × List Operand × Option VarId :=
  (x.op, x.operands, x.dest.map Def.var)

structure Appends (b : NodeId) (i : InstId) (op : Opcode) (dest : Option VarId)
    (os : List Operand) (f f' : Func) : Prop extends SameGraph f f' where
  fresh : ∀ c, i ∉ f.code c
  code : ∀ c, f'.code c = if c = b then f.code b ++ [i] else f.code c
  told : ∀ j, (f'.inst j).told = if j = i then (op, os, dest) else (f.inst j).told
  head : f'.head = f.head
  vars : f'.vars.map Variable.plain = f.vars.map Variable.plain

theorem Places.appends {op : Opcode} (h : Places b (f.code b).length op i f f')
    (hs : f.Scheduled) : Appends b i op none [] f f' where
  toSameGraph := h.toSameGraph
  fresh c hc := hs.seated.live hc h.fresh
  code c := by rw [h.code, List.take_length, List.drop_length]
  told j := by
    have hj := congrArg (fun x : Opcode × List Operand × Option Def =>
      (x.1, x.2.1, x.2.2.map Def.var)) (h.content j)
    by_cases hji : j = i
    · rw [if_pos hji] at hj ⊢
      exact hj
    · rw [if_neg hji] at hj ⊢
      exact hj
  head := h.head
  vars := by rw [h.vars]

namespace Appends

variable {f'' : Func} {op : Opcode} {dest : Option VarId} {os os' : List Operand}

theorem keeps (h : Appends b i op dest os f f') (hk : Keeps f' f'') :
    Appends b i op dest os f f'' where
  toSameGraph := h.toSameGraph.trans hk.toSameGraph
  fresh := h.fresh
  code c := (hk.instructions c).trans (h.code c)
  told j := by rw [hk.inst, h.told]
  head := hk.head.trans h.head
  vars := by rw [hk.vars, h.vars]

theorem memo (h : Appends b i op dest os f f') (m : List (Question × Stack)) :
    Appends b i op dest os f { f' with memo := m } :=
  h.keeps (keeps_of_stores rfl)

theorem takes (h : Appends b i op dest os f f') (ht : Takes i os' f' f'') :
    Appends b i op dest (os ++ os') f f'' where
  toSameGraph := h.toSameGraph.trans ht.toSameGraph
  fresh := h.fresh
  code c := (ht.code c).trans (h.code c)
  told j := by
    have hj := h.told j
    rw [ht.inst]
    by_cases hji : j = i
    · subst hji
      rw [if_pos rfl] at hj ⊢
      rw [if_pos rfl]
      exact congrArg (fun x : Opcode × List Operand × Option VarId => (x.1, x.2.1 ++ os', x.2.2)) hj
    · rw [if_neg hji] at hj ⊢
      rw [if_neg hji]
      exact hj
  head := ht.head.trans h.head
  vars := by rw [ht.vars, h.vars]

theorem assigns (h : Appends b i op dest os f f') (ha : Assigns b i v f' f'') :
    Appends b i op (some v) os f f'' where
  toSameGraph := h.toSameGraph.trans ha.toSameGraph
  fresh := h.fresh
  code c := (ha.code c).trans (h.code c)
  told j := by
    obtain ⟨n, hinst⟩ := ha.inst
    have hj := h.told j
    rw [hinst]
    by_cases hji : j = i
    · subst hji
      rw [if_pos rfl] at hj ⊢
      rw [if_pos rfl]
      exact congrArg (fun x : Opcode × List Operand × Option VarId => (x.1, x.2.1, some v)) hj
    · rw [if_neg hji] at hj ⊢
      rw [if_neg hji]
      exact hj
  head := ha.head.trans h.head
  vars := ha.vars.trans h.vars

end Appends

theorem Func.Draft.forgetting (hf : f.Forest) (ht : f.Tables) (hs : f.Scheduled)
    (hfrozen : f.frozen = false) (hn : ∀ n, f.incoming.get? n = none) (hw : f.Waits) :
    ({ f with memo := [] } : Func).Draft where
  forest := (keeps_of_stores rfl).toSameGraph.forest hf
  tables := (operates_memo ht []).tables
  scheduled := hs.congr (fun _ => rfl) (fun _ => rfl) (fun _ _ => rfl) fun _ => rfl
  unfrozen := hfrozen
  memo := rfl
  nodes := hn
  waits := hw.memo []

theorem appendInst_draft (h : f.Draft) (hb : (f.nodes.get? b).isSome) {op : Opcode}
    {dest : Option Variable} {args : List Arg}
    (hrun : Edit.appendInst b op dest args f = .ok i f') :
    f'.Draft ∧ Appends b i op (dest.map Variable.id) (args.map Arg.operand) f f' := by
  obtain ⟨j, f₁, hplace, hpl⟩ := placeInst_ok h.scheduled hb (Nat.le_refl _) op
  change Edit.insertInst .appendInst b (f.code b).length op dest args f = _ at hrun
  obtain ⟨_, f₀, hcheck, hrun₀⟩ := Edit.bind_ok hrun
  rw [insertable_ok hcheck, Edit.bind_eq hplace] at hrun₀
  have hs₁ := hpl.scheduled h.scheduled
  have hat := hpl.getElem? (Nat.le_refl _)
  have hb₁ : (f₁.nodes.get? b).isSome := by rw [hpl.stored]; exact hb
  obtain ⟨x, hx, hxb, hxi⟩ := hs₁.place hat
  have hinst : f₁.inst j = x := by rw [inst, hx]; rfl
  rw [← hs₁.indexOf hat] at hrun₀
  have hcontent := hpl.content j
  rw [if_pos rfl] at hcontent
  obtain ⟨f₂, htakes, hrun⟩ := takes_operands (hpl.tables h.tables) hs₁ hb₁ (hinst ▸ hxb)
    (by rw [hx]; rfl) (congrArg (fun x => x.2.1) hcontent) hrun₀
  have happends : Appends b j op none (args.map Arg.operand) f f₂ :=
    (hpl.appends h.scheduled).takes htakes
  have hs₂ := hs₁.congr htakes.code htakes.phiCount htakes.locals htakes.standing
  have hwaits : f₂.Waits := htakes.waits (hpl.waits h.scheduled h.waits)
  have hnodes : ∀ n, f₂.incoming.get? n = none := by
    rw [htakes.incoming, hpl.incoming]
    exact h.nodes
  have hfrozen : f₂.frozen = false := by
    rw [happends.frozen]
    exact h.unfrozen
  cases dest with
  | none =>
    cases hrun
    exact ⟨.forgetting (happends.forest h.forest) htakes.tables hs₂ hfrozen hnodes
        hwaits, happends.memo []⟩
  | some v =>
    obtain ⟨_, f₃, hdef, hrun⟩ := Edit.bind_ok hrun
    cases hrun
    have hat₂ : (f₂.code b)[(f.code b).length]? = some i := by rw [htakes.code]; exact hat
    have hassigns := Assigns.define hs₂ htakes.tables hfrozen hnodes
        (by rw [htakes.stored]; exact hb₁)
      hat₂ ((htakes.dest i).trans hpl.dest_eq_none) hdef
    refine ⟨.forgetting (hassigns.forest (happends.forest h.forest)) hassigns.tables
      hassigns.scheduled (by rw [hassigns.frozen]; exact hfrozen)
      (by rw [hassigns.incoming]; exact hnodes) (hassigns.waits hs₂ hat₂ ?_ hwaits),
      (happends.assigns hassigns).memo []⟩
    rw [happends.code, if_pos rfl, List.length_append]
    rfl

end

end DefFlow.Flow
