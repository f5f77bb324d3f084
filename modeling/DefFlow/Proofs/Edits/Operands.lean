import DefFlow.Proofs.Edits.Relist

/-!
# Operands

The operands of an instruction are listed as uses, which may add a timeline that
decides nothing. Definitions, joins and the order of instructions stay as they are.
-/

set_option autoImplicit false

namespace DefFlow.Flow

open Func

def Instruction.standing (x : Instruction) : Option NodeId × Nat × Option Def :=
  (x.block, x.index, x.dest)

theorem dest_of_standing {f f' : Func} {i : InstId}
    (h : (f'.insts.get? i).map Instruction.standing =
    (f.insts.get? i).map Instruction.standing) : (f'.inst i).dest = (f.inst i).dest := by
  rw [inst, inst]
  cases hx : f.insts.get? i with
  | none =>
    rw [hx, Option.map_none, Option.map_eq_none_iff] at h
    rw [h]
  | some x =>
    rw [hx, Option.map_some, Option.map_eq_some_iff] at h
    obtain ⟨y, hy, he⟩ := h
    simp only [Instruction.standing, Prod.mk.injEq] at he
    rw [hy, Option.getD_some, Option.getD_some, he.2.2]

theorem Func.Seated.congr {f f' : Func} (h : f.Seated) (hcode : ∀ b, f'.code b = f.code b)
    (hi : ∀ i, (f'.insts.get? i).map Instruction.standing =
      (f.insts.get? i).map Instruction.standing) : f'.Seated := by
  have hget : ∀ {i x}, f'.insts.get? i = some x →
      ∃ y, f.insts.get? i = some y ∧ x.standing = y.standing := by
    intro i x hx
    have he := hi i
    rw [hx, Option.map_some] at he
    obtain ⟨y, hy, hs⟩ := Option.map_eq_some_iff.mp he.symm
    exact ⟨y, hy, hs.symm⟩
  have hget' : ∀ {i y}, f.insts.get? i = some y →
      ∃ x, f'.insts.get? i = some x ∧ x.standing = y.standing := by
    intro i y hy
    have he := hi i
    rw [hy, Option.map_some] at he
    exact Option.map_eq_some_iff.mp he
  simp only [Instruction.standing, Prod.mk.injEq] at hget hget'
  refine ⟨fun b => hcode b ▸ h.nodup b, fun {i b} => ?_, fun {i b x} hm hx => ?_⟩
  · rw [hcode, h.claims]
    constructor
    · rintro ⟨y, hy, hb⟩
      obtain ⟨x, hx, hs⟩ := hget' hy
      exact ⟨x, hx, hs.1.trans hb⟩
    · rintro ⟨x, hx, hb⟩
      obtain ⟨y, hy, hs⟩ := hget hx
      exact ⟨y, hy, hs.1.symm.trans hb⟩
  · rw [hcode] at hm ⊢
    obtain ⟨y, hy, hs⟩ := hget hx
    exact hs.2.1.trans (h.index hm hy)

structure Operates (f f' : Func) : Prop extends SameFlow f f' where
  tables : f'.Tables
  code : ∀ b, f'.code b = f.code b
  phiCount : ∀ b, (f'.blockAt b).phiCount = (f.blockAt b).phiCount
  locals : ∀ b v, f'.locals b v = f.locals b v
  standing : ∀ i, (f'.insts.get? i).map Instruction.standing =
    (f.insts.get? i).map Instruction.standing

/-- Functions with fresh nodes and with instructions in their places, but for what they remember. -/
structure Func.Tidy (f : Func) : Prop where
  calm : f.Calm
  scheduled : f.Scheduled

namespace Operates

variable {f f' f'' : Func}

theorem refl (h : f.Tables) : Operates f f :=
  ⟨.refl f, h, fun _ => rfl, fun _ => rfl, fun _ _ => rfl, fun _ => rfl⟩

theorem trans (h : Operates f f') (h' : Operates f' f'') : Operates f f'' where
  toSameFlow := h.toSameFlow.trans h'.toSameFlow
  tables := h'.tables
  code b := (h'.code b).trans (h.code b)
  phiCount b := (h'.phiCount b).trans (h.phiCount b)
  locals b v := (h'.locals b v).trans (h.locals b v)
  standing i := (h'.standing i).trans (h.standing i)

theorem tidy (h : Operates f f') (ht : f.Tidy) : f'.Tidy where
  calm := ht.calm.sameFlow h.toSameFlow h.tables
  scheduled := ht.scheduled.congr h.code h.phiCount h.locals h.standing

theorem dest (h : Operates f f') (i : InstId) : (f'.inst i).dest = (f.inst i).dest :=
  dest_of_standing (h.standing i)

end Operates

section

variable {f f' : Func} {b : NodeId} {v : VarId} {t : TimelineId}

theorem Lists.operates (h : Lists b v t f f') (ht : f.Tables) (ht' : f'.Tables) :
    Operates f f' where
  toSameFlow := h.sameFlow ht ht'
  tables := ht'
  code := h.keeps.instructions
  phiCount := h.keeps.phiCount
  locals := h.locals
  standing i := by rw [h.keeps.insts]

theorem operates_changeInst (ht : f.Tables) (i : InstId) (change : Instruction → Instruction)
    (hc : ∀ x, (change x).standing = x.standing) :
    Operates f { f with insts := f.insts.modify i change } where
  toSameFlow := (recodes_changeInst f i change).sameFlow
  tables := (recodes_changeInst f i change).tables ht
  code _ := rfl
  phiCount _ := rfl
  locals _ _ := rfl
  standing j := by
    rw [Arena.get?_modify_map, Option.map_map]
    congr 1
    funext x
    rw [Function.comp_apply]
    split
    · exact hc x
    · rfl

theorem operates_relisted (ht : f.Tables) {change : Timeline → Timeline} (h : Relisting change)
    (hl : ∀ x, (change x).locals.map Local.inst = x.locals.map Local.inst) :
    Operates f (f.relisted t change) := by
  obtain ⟨hs, hlocals⟩ := sameFlow_relisted ht h (hl (f.timelineAt t))
  exact ⟨hs, relisted_tables ht h, fun _ => rfl, fun _ => rfl, hlocals, fun _ => rfl⟩

theorem operates_memo (ht : f.Tables) (m : List (Question × Stack)) :
    Operates f { f with memo := m } :=
  ⟨⟨⟨rfl, rfl, rfl, rfl, rfl, rfl, fun _ => rfl⟩, fun _ _ => rfl, fun _ _ => rfl⟩,
    tables_memo ht m, fun _ => rfl, fun _ => rfl, fun _ _ => rfl, fun _ => rfl⟩

/-! ## Uses -/

theorem relisting_changeUses (holder : Option InstId) (change : List UseSite → List UseSite) :
    Relisting fun x => x.changeUses holder change := by
  cases holder <;> exact ⟨fun _ => rfl, fun _ => rfl, fun _ => rfl, fun _ => rfl⟩

theorem locals_changeUses (x : Timeline) (holder : Option InstId)
    (change : List UseSite → List UseSite) :
    (x.changeUses holder change).locals.map Local.inst = x.locals.map Local.inst := by
  cases holder with
  | none => rfl
  | some i =>
    rw [Timeline.changeUses, List.map_map]
    refine List.map_congr_left fun l _ => ?_
    rw [Function.comp_apply]
    split <;> rfl

theorem relisting_eraseUse (u : UseSite) : Relisting fun x => x.eraseUse u :=
  ⟨fun _ => rfl, fun _ => rfl, fun _ => rfl, fun _ => rfl⟩

theorem locals_eraseUse (x : Timeline) (u : UseSite) :
    (x.eraseUse u).locals.map Local.inst = x.locals.map Local.inst := by
  rw [Timeline.eraseUse, List.map_map]
  rfl

theorem operates_changeUses (ht : f.Tables) (t : TimelineId) (holder : Option InstId)
    (change : List UseSite → List UseSite) :
    Operates f (f.relisted t fun x => x.changeUses holder change) :=
  operates_relisted ht (relisting_changeUses holder change) fun x =>
    locals_changeUses x holder change

theorem addUse_ok (ht : f.Tables) (t : TimelineId) (holder : Option InstId) (u : UseSite) :
    ∃ f', Edit.addUse t holder u f = .ok () f' ∧ Operates f f' :=
  ⟨_, rfl, operates_changeUses ht t holder _⟩

/-! ## Operands -/

theorem addOperand_ok (ht : f.Tables) (hb : (f.nodes.get? b).isSome) {op : Operation}
    {i : InstId} {position slot : Nat} {a : Arg} {u : Unit}
    (hrun : Edit.addOperand op b i position slot a f = .ok u f') : Operates f f' := by
  cases a with
  | constant c =>
    cases hrun
    exact operates_changeInst ht i _ fun _ => rfl
  | var w =>
    rw [Edit.addOperand, Edit.bind_eq Edit.get_eq] at hrun
    obtain ⟨_, hrun⟩ := Edit.require_bind_ok hrun
    obtain ⟨t, f₂, htl, ht₂, hlists⟩ := Edit.timelineFor_ok ht hb w.id
    rw [Edit.bind_eq htl] at hrun
    have h₂ := hlists.operates ht ht₂
    have h₃ := h₂.trans (operates_changeInst ht₂ i
      (fun x => { x with operands := x.operands ++ [.use w.id] }) fun _ => rfl)
    refine h₃.trans ?_
    obtain ⟨f₄, huse, h₄⟩ := addUse_ok h₃.tables t _ ⟨i, slot⟩
    rw [Edit.bind_eq (Edit.changeInst_eq _ _), Edit.bind_eq Edit.get_eq, huse] at hrun
    cases hrun
    exact h₄

end

end DefFlow.Flow
