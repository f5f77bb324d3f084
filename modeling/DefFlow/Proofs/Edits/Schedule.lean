import DefFlow.Proofs.State.Code
import DefFlow.Proofs.State.Wiring
import Mathlib.Data.List.Nodup

/-!
# Placing instructions

Instructions get their places from the order of their block. A new instruction
defines nothing, so the timelines still list the definitions.
-/

set_option autoImplicit false

namespace DefFlow.Flow

section

variable {α : Type}

theorem insertIdx_append (l k : List α) (a : α) :
    (l ++ k).insertIdx l.length a = l ++ a :: k := by
  induction l with
  | nil => simp
  | cons x l ih => simp [ih]

theorem insertIdx_eq_append {l : List α} {n : Nat} (h : n ≤ l.length) (a : α) :
    l.insertIdx n a = l.take n ++ a :: l.drop n := by
  have hn : (l.take n).length = n := List.length_take_of_le h
  conv_lhs => rw [← List.take_append_drop n l, ← hn]
  rw [hn, ← insertIdx_append, hn]

theorem idxOf_of_getElem? {l : List Nat} (hn : l.Nodup) {k a : Nat} (h : l[k]? = some a) :
    l.idxOf a = k := by
  obtain ⟨hk, rfl⟩ := List.getElem?_eq_some_iff.mp h
  exact hn.idxOf_getElem k hk

end

namespace Func

variable {f f' : Func}

structure Seated (f : Func) : Prop where
  nodup : ∀ b, (f.code b).Nodup
  claims : ∀ {i b}, i ∈ f.code b ↔ ∃ x, f.insts.get? i = some x ∧ x.block = some b
  index : ∀ {i b x}, i ∈ f.code b → f.insts.get? i = some x → x.index = (f.code b).idxOf i

theorem Seated.block_iff {i : InstId} {b : NodeId} (h : f.Seated) :
    (f.inst i).block = some b ↔ i ∈ f.code b := by
  rw [h.claims, inst]
  cases f.insts.get? i with
  | none => exact iff_of_false (by rintro ⟨⟩) (by rintro ⟨x, ⟨⟩, _⟩)
  | some x => simp

theorem Scheduled.seated (h : f.Scheduled) : f.Seated where
  nodup := h.nodup
  claims := fun {i b} => by
    constructor
    · intro hi
      obtain ⟨k, hk⟩ := List.mem_iff_getElem?.mp hi
      obtain ⟨x, hx, hb, _⟩ := h.place hk
      exact ⟨x, hx, hb⟩
    · rintro ⟨x, hx, hb⟩
      exact List.mem_of_getElem? (h.home hx hb)
  index := fun {i b x} hi hx => by
    obtain ⟨k, hk⟩ := List.mem_iff_getElem?.mp hi
    obtain ⟨y, hy, _, hky⟩ := h.place hk
    rw [hx, Option.some.injEq] at hy
    rw [hy, hky, idxOf_of_getElem? (h.nodup b) hk]

theorem Seated.scheduled (h : f.Seated) (hp : ∀ b, (f.blockAt b).phiCount ≤ (f.code b).length)
    (hl : ∀ b v, f.locals b v = (f.code b).filter (f.defines v)) : f.Scheduled where
  place := fun {b k i} hk => by
    have hi := List.mem_of_getElem? hk
    obtain ⟨x, hx, hb⟩ := h.claims.mp hi
    exact ⟨x, hx, hb, by rw [h.index hi hx, idxOf_of_getElem? (h.nodup b) hk]⟩
  home := fun {i x b} hx hb => by
    have hi := h.claims.mpr ⟨x, hx, hb⟩
    rw [h.index hi hx]
    exact List.getElem?_idxOf hi
  phis := hp
  locals := hl

theorem Seated.block_unique (h : f.Seated) {i : InstId} {b c : NodeId} (hb : i ∈ f.code b)
    (hc : i ∈ f.code c) : b = c := by
  obtain ⟨x, hx, hxb⟩ := h.claims.mp hb
  obtain ⟨y, hy, hyc⟩ := h.claims.mp hc
  rw [hx, Option.some.injEq] at hy
  rw [← hy, hxb, Option.some.injEq] at hyc
  exact hyc

theorem Seated.live (h : f.Seated) {i : InstId} {b : NodeId} (hb : i ∈ f.code b) :
    i ≠ f.insts.next := by
  obtain ⟨x, hx, _⟩ := h.claims.mp hb
  exact f.insts.ne_next_of_get? hx

/-- The instructions keep their places and what they define. -/
theorem Scheduled.congr (h : f.Scheduled) (hc : ∀ b, f'.code b = f.code b)
    (hp : ∀ b, (f'.blockAt b).phiCount = (f.blockAt b).phiCount)
    (hl : ∀ b v, f'.locals b v = f.locals b v)
    (hi : ∀ i, (f'.insts.get? i).map (fun x => (x.block, x.index, x.dest)) =
      (f.insts.get? i).map fun x => (x.block, x.index, x.dest)) : f'.Scheduled := by
  have hget : ∀ {i x}, f.insts.get? i = some x → ∃ y, f'.insts.get? i = some y ∧
      y.block = x.block ∧ y.index = x.index := by
    intro i x hx
    have := hi i
    rw [hx, Option.map_some, Option.map_eq_some_iff] at this
    obtain ⟨y, hy, he⟩ := this
    simp only [Prod.mk.injEq] at he
    exact ⟨y, hy, he.1, he.2.1⟩
  have hget' : ∀ {i y}, f'.insts.get? i = some y → ∃ x, f.insts.get? i = some x ∧
      y.block = x.block ∧ y.index = x.index := by
    intro i y hy
    have := hi i
    rw [hy, Option.map_some] at this
    obtain ⟨x, hx, he⟩ := Option.map_eq_some_iff.mp this.symm
    simp only [Prod.mk.injEq] at he
    exact ⟨x, hx, he.1.symm, he.2.1.symm⟩
  have hdef : ∀ v, f'.defines v = f.defines v := by
    intro v
    funext i
    have := hi i
    rw [defines, defines, inst, inst]
    cases hx : f.insts.get? i with
    | none =>
      rw [hx, Option.map_none, Option.map_eq_none_iff] at this
      rw [this]
    | some x =>
      rw [hx, Option.map_some, Option.map_eq_some_iff] at this
      obtain ⟨y, hy, he⟩ := this
      simp only [Prod.mk.injEq] at he
      rw [hy, Option.getD_some, Option.getD_some, he.2.2]
  exact {
    place := fun {b k i} hk => by
      obtain ⟨x, hx, hb, hxk⟩ := h.place (hc b ▸ hk)
      obtain ⟨y, hy, hyb, hyk⟩ := hget hx
      exact ⟨y, hy, hyb.trans hb, hyk.trans hxk⟩
    home := fun {i y b} hy hb => by
      obtain ⟨x, hx, hxb, hxk⟩ := hget' hy
      rw [hc, hxk]
      exact h.home hx (hxb ▸ hb)
    phis := fun b => by rw [hp, hc]; exact h.phis b
    locals := fun b v => by rw [hl, hc, hdef, h.locals] }

end Func

open Func

/-! ## Giving places -/

structure Reindexed (b : NodeId) (f f' : Func) : Prop where
  rest : f' = { f with insts := f'.insts }
  get : ∀ i, f'.insts.get? i = (f.insts.get? i).map fun x =>
    if i ∈ f.code b then { x with index := (f.code b).idxOf i, block := some b } else x

theorem reindex_ok {f : Func} {b : NodeId} (hn : (f.code b).Nodup) :
    ∃ f', Edit.reindex b f = .ok () f' ∧ Reindexed b f f' := by
  have hloop : ∃ f', Edit.reindex b f = .ok () f' ∧ (f' = { f with insts := f'.insts } ∧
      ∀ i, f'.insts.get? i = (f.insts.get? i).map fun x =>
        if i ∈ (f.code b).zipIdx.map Prod.fst
        then { x with index := (f.code b).idxOf i, block := some b } else x) := by
    rw [Edit.reindex, Edit.bind_eq Edit.get_eq]
    refine Edit.forIn_run (f := f) (fun done f' => f' = { f with insts := f'.insts } ∧
      ∀ i, f'.insts.get? i = (f.insts.get? i).map fun x =>
        if i ∈ done.map Prod.fst then { x with index := (f.code b).idxOf i, block := some b }
        else x) ?_ ⟨rfl, fun i => by simp⟩
    rintro done ⟨j, k⟩ rest f₁ hl ⟨hrest, hget⟩
    have hj : (f.code b)[k]? = some j := by
      have hm : (j, k) ∈ (f.code b).zipIdx := by
        rw [Func.code, hl]
        exact List.mem_append_right _ List.mem_cons_self
      exact List.mem_zipIdx_iff_getElem?.mp hm
    have hidx := idxOf_of_getElem? hn hj
    refine ⟨{ f₁ with insts := f₁.insts.modify j fun y =>
      { y with index := k, block := some b } }, rfl, by rw [hrest], fun i => ?_⟩
    rw [Arena.get?_modify_map, hget, Option.map_map]
    congr 1
    funext x
    by_cases hi : j = i
    · subst hi
      by_cases hm : j ∈ done.map Prod.fst <;> simp [hm, hidx]
    · simp only [List.map_append, List.mem_append, List.map_cons, List.map_nil,
        List.mem_singleton, Ne.symm hi, or_false, Function.comp_apply, if_neg hi]
  obtain ⟨f', hrun, hrest, hget⟩ := hloop
  refine ⟨f', hrun, hrest, fun i => ?_⟩
  rw [hget, List.zipIdx_map_fst]

/-! ## Edits of the code alone -/

structure SameRecords (f f' : Func) : Prop where
  listed : ∀ b, (f'.blockAt b).timelines = (f.blockAt b).timelines
  timelines : f'.timelines = f.timelines
  incoming : f'.incoming = f.incoming

namespace SameRecords

variable {f f' : Func}

theorem timelineId? (h : SameRecords f f') (b : NodeId) (v : VarId) :
    f'.timelineId? b v = f.timelineId? b v := by
  rw [Func.timelineId?, Func.timelineId?, h.listed]

theorem timelineAt (h : SameRecords f f') (t : TimelineId) : f'.timelineAt t = f.timelineAt t := by
  rw [Func.timelineAt, Func.timelineAt, h.timelines]

theorem timeline? (h : SameRecords f f') (b : NodeId) (v : VarId) :
    f'.timeline? b v = f.timeline? b v := by
  rw [Func.timeline?, Func.timeline?, h.timelineId?, h.timelines]

theorem locals (h : SameRecords f f') (b : NodeId) (v : VarId) : f'.locals b v = f.locals b v := by
  rw [Func.locals, Func.locals, h.timeline?]

theorem joinNodes (h : SameRecords f f') (b : NodeId) (v : VarId) :
    f'.joinNodes b v = f.joinNodes b v := by
  rw [Func.joinNodes, Func.joinNodes, h.timeline?]

theorem feeds (h : SameRecords f f') (b : NodeId) (v : VarId) : f'.feeds b v = f.feeds b v := by
  simp only [Func.feeds, h.joinNodes, incomingAt, h.incoming]

theorem explicit? (h : SameRecords f f') (b : NodeId) (v : VarId) :
    f'.explicit? b v = f.explicit? b v := by
  simp only [Func.explicit?, h.timelineId?, h.timelineAt]

theorem joined? (h : SameRecords f f') (b : NodeId) (v : VarId) :
    f'.joined? b v = f.joined? b v := by
  simp only [Func.joined?, h.timelineId?, h.timelineAt]

theorem sameLinks (h : SameRecords f f') : SameLinks f f' :=
  ⟨h.listed, fun t => by rw [h.timelines], h.incoming⟩

theorem tables (h : SameRecords f f') (ht : f.Tables) : f'.Tables := h.sameLinks.tables ht

end SameRecords

structure Recodes (f f' : Func) : Prop extends SameGraph f f', SameRecords f f'

namespace Recodes

variable {f f' f'' : Func}

theorem trans (h : Recodes f f') (h' : Recodes f' f'') : Recodes f f'' where
  toSameGraph := h.toSameGraph.trans h'.toSameGraph
  listed b := (h'.listed b).trans (h.listed b)
  timelines := h'.timelines.trans h.timelines
  incoming := h'.incoming.trans h.incoming

end Recodes

theorem recodes_changeInst (f : Func) (i : InstId) (change : Instruction → Instruction) :
    Recodes f { f with insts := f.insts.modify i change } :=
  ⟨⟨rfl, rfl, rfl, rfl, rfl, rfl, fun _ => rfl⟩, fun _ => rfl, rfl, rfl⟩

theorem Reindexed.recodes {b : NodeId} {f f' : Func} (h : Reindexed b f f') : Recodes f f' := by
  rw [h.rest]
  exact ⟨⟨rfl, rfl, rfl, rfl, rfl, rfl, fun _ => rfl⟩, fun _ => rfl, rfl, rfl⟩

theorem Reindexed.blockAt {b : NodeId} {f f' : Func} (h : Reindexed b f f') (c : NodeId) :
    f'.blockAt c = f.blockAt c := by
  rw [h.rest]
  rfl

def Instruction.content (x : Instruction) : Opcode × List Operand × Option Def :=
  (x.op, x.operands, x.dest)

theorem Reindexed.content {b : NodeId} {f f' : Func} (h : Reindexed b f f') (j : InstId) :
    (f'.inst j).content = (f.inst j).content := by
  rw [Func.inst, Func.inst, h.get]
  cases f.insts.get? j with
  | none => rfl
  | some y =>
    simp only [Option.map_some, Option.getD_some]
    split <;> rfl

theorem content_changeInst (f : Func) (i : InstId) (change : Instruction → Instruction)
    (hc : ∀ x, (change x).content = x.content) (j : InstId) :
    (({ f with insts := f.insts.modify i change } : Func).inst j).content = (f.inst j).content := by
  simp only [Func.inst, Arena.get?_modify_map]
  cases f.insts.get? j with
  | none => rfl
  | some y =>
    simp only [Option.map_some, Option.getD_some]
    split
    · exact hc y
    · rfl

/-- What stands in a block that has got its places knows them. -/
theorem Reindexed.seated {b : NodeId} {f f' : Func} (h : Reindexed b f f')
    (hn : ∀ c, (f.code c).Nodup)
    (hclaims : ∀ {i c}, i ∉ f.code b → (i ∈ f.code c ↔ ∃ x, f.insts.get? i = some x ∧
      x.block = some c))
    (hindex : ∀ {i c x}, i ∉ f.code b → i ∈ f.code c → f.insts.get? i = some x →
      x.index = (f.code c).idxOf i)
    (hlive : ∀ i ∈ f.code b, (f.insts.get? i).isSome ∧ ∀ c, i ∈ f.code c → c = b) :
    f'.Seated := by
  have hcode : ∀ c, f'.code c = f.code c := fun c => by rw [Func.code, Func.code, h.blockAt]
  refine ⟨fun c => hcode c ▸ hn c, fun {i c} => ?_, fun {i c x} hi hx => ?_⟩
  · rw [hcode, h.get]
    by_cases hb : i ∈ f.code b
    · obtain ⟨hsome, honly⟩ := hlive i hb
      obtain ⟨x, hx⟩ := Option.isSome_iff_exists.mp hsome
      simp only [hx, Option.map_some, if_pos hb, Option.some.injEq, exists_eq_left']
      exact ⟨fun hc => (honly c hc).symm, fun hc => hc ▸ hb⟩
    · simp only [if_neg hb, Option.map_id']
      exact hclaims hb
  · rw [hcode] at hi ⊢
    rw [h.get] at hx
    by_cases hb : i ∈ f.code b
    · obtain rfl := (hlive i hb).2 c hi
      obtain ⟨y, _, rfl⟩ := Option.map_eq_some_iff.mp hx
      simp only [if_pos hb]
    · simp only [if_neg hb, Option.map_id'] at hx
      exact hindex hb hi hx

/-! ## A new instruction -/

def Func.head (f : Func) : String × List VarId × List VarId := (f.name, f.args, f.returns)

theorem Func.Keeps.head {f f' : Func} (h : Keeps f f') : f'.head = f.head := by
  rw [Func.head, Func.head, h.name, h.args, h.returns]

structure Places (b : NodeId) (n : Nat) (op : Opcode) (i : InstId) (f f' : Func) : Prop
    extends Recodes f f' where
  fresh : i = f.insts.next
  head : f'.head = f.head
  vars : f'.vars = f.vars
  memo : f'.memo = f.memo
  content : ∀ j, (f'.inst j).content = if j = i then (op, [], none) else (f.inst j).content
  code : ∀ c, f'.code c =
    if c = b then (f.code b).take n ++ i :: (f.code b).drop n else f.code c
  phiCount : ∀ c, (f'.blockAt c).phiCount = (f.blockAt c).phiCount
  seated : f'.Seated

def Func.withInst (f : Func) (b : NodeId) (n : Nat) (op : Opcode) : Func := { f with
  insts := f.insts.push ⟨op, some b, 0, [], none⟩
  nodes := f.nodes.modify b fun x =>
    { x with instructions := x.instructions.insertIdx n f.insts.next } }

section

variable {f : Func} {b : NodeId} {n : Nat} {op : Opcode}

theorem blockAt_withInst (hb : (f.nodes.get? b).isSome) (c : NodeId) :
    (f.withInst b n op).blockAt c = if c = b then { f.blockAt c with
      instructions := (f.blockAt c).instructions.insertIdx n f.insts.next } else f.blockAt c :=
  Edit.blockAt_modify f b c _ hb

theorem code_withInst (hb : (f.nodes.get? b).isSome) (hn : n ≤ (f.code b).length) (c : NodeId) :
    (f.withInst b n op).code c = if c = b then
      (f.code b).take n ++ f.insts.next :: (f.code b).drop n else f.code c := by
  rw [Func.code, blockAt_withInst hb]
  split
  · next h =>
    subst h
    exact insertIdx_eq_append hn _
  · rfl

theorem mem_code_withInst (hb : (f.nodes.get? b).isSome) (hn : n ≤ (f.code b).length)
    {i : InstId} {c : NodeId} : i ∈ (f.withInst b n op).code c ↔
      i ∈ f.code c ∨ (c = b ∧ i = f.insts.next) := by
  rw [code_withInst hb hn]
  by_cases h : c = b
  · subst h
    conv_rhs => rw [← List.take_append_drop n (f.code c)]
    simp only [if_pos, List.mem_append, List.mem_cons, true_and]
    grind
  · simp [h]

theorem recodes_withInst (hb : (f.nodes.get? b).isSome) : Recodes f (f.withInst b n op) where
  handle := rfl
  body := rfl
  bodyHeld := rfl
  detached := rfl
  frozen := rfl
  size := Arena.size_modify _ _ _
  stored c := Edit.isSome_get?_modify _ _ _ _
  listed c := by
    rw [blockAt_withInst hb]
    split <;> rfl
  timelines := rfl
  incoming := rfl

theorem placeInst_ok (hs : f.Scheduled) (hb : (f.nodes.get? b).isSome)
    (hn : n ≤ (f.code b).length) (op : Opcode) :
    ∃ i f', Edit.placeInst b n op f = .ok i f' ∧ Places b n op i f f' := by
  have h := hs.seated
  have hcode : ∀ c, (f.withInst b n op).code c = if c = b then
      (f.code b).take n ++ f.insts.next :: (f.code b).drop n else f.code c := code_withInst hb hn
  have hmem : ∀ {i c}, i ∈ (f.withInst b n op).code c ↔
      i ∈ f.code c ∨ (c = b ∧ i = f.insts.next) := mem_code_withInst hb hn
  have hnew : ∀ c, f.insts.next ∉ f.code c := fun c hc => h.live hc rfl
  have hnodup : ∀ c, ((f.withInst b n op).code c).Nodup := by
    intro c
    rw [hcode]
    split
    · have hold := h.nodup b
      rw [← List.take_append_drop n (f.code b)] at hold
      refine List.nodup_middle.mpr (List.nodup_cons.mpr ⟨fun hm => hnew b ?_, hold⟩)
      rwa [List.take_append_drop] at hm
    · exact h.nodup c
  have hget : ∀ {i}, i ≠ f.insts.next → (f.withInst b n op).insts.get? i = f.insts.get? i := by
    intro i hi
    rw [withInst, Arena.get?_push, if_neg hi]
  obtain ⟨f', hrun, hre⟩ := reindex_ok (hnodup b)
  have hseated : f'.Seated := by
    refine hre.seated hnodup (fun {i c} hi => ?_) (fun {i c x} hi hc hx => ?_) fun i hi => ?_
    · have hne : i ≠ f.insts.next := fun he => hi (hmem.mpr (Or.inr ⟨rfl, he⟩))
      rw [hget hne, hmem, h.claims]
      simp [hne]
    · have hne : i ≠ f.insts.next := fun he => hi (hmem.mpr (Or.inr ⟨rfl, he⟩))
      have hcb : c ≠ b := fun he => hi (he ▸ hc)
      rw [hget hne] at hx
      rw [hcode, if_neg hcb] at hc ⊢
      exact h.index hc hx
    · rcases hmem.mp hi with hold | ⟨_, rfl⟩
      · obtain ⟨x, hx, _⟩ := h.claims.mp hold
        rw [hget (h.live hold), hx]
        refine ⟨rfl, fun c hc => ?_⟩
        rcases hmem.mp hc with hc | ⟨hc, _⟩
        · exact h.block_unique hc hold
        · exact hc
      · refine ⟨by rw [withInst, Arena.get?_push, if_pos rfl]; rfl, fun c hc => ?_⟩
        rcases hmem.mp hc with hc | ⟨hc, _⟩
        · exact absurd hc (hnew c)
        · exact hc
  refine ⟨f.insts.next, f', ?_, (recodes_withInst hb).trans hre.recodes, rfl, ?_,
      ?_, ?_, fun j => ?_,
    fun c => ?_, fun c => ?_, hseated⟩
  · rw [Edit.placeInst, Edit.bind_eq Edit.get_eq]
    exact Edit.bind_eq hrun
  · rw [hre.rest]
    rfl
  · rw [hre.rest]
    rfl
  · rw [hre.rest]
    rfl
  · rw [hre.content, inst, withInst, Arena.get?_push]
    split <;> rfl
  · rw [Func.code, hre.blockAt]
    exact hcode c
  · rw [hre.blockAt, blockAt_withInst hb]
    split <;> rfl

end

theorem Places.dest {b : NodeId} {n : Nat} {op : Opcode} {i : InstId} {f f' : Func}
    (h : Places b n op i f f') (j : InstId) : (f'.inst j).dest = (f.inst j).dest := by
  have hc := congrArg (fun x => x.2.2) (h.content j)
  split at hc
  · next hj =>
    rw [hj, h.fresh, inst, inst, Arena.get?_next] at *
    exact hc
  · exact hc

theorem Places.getElem? {b : NodeId} {n : Nat} {op : Opcode} {i : InstId} {f f' : Func}
    (h : Places b n op i f f') (hn : n ≤ (f.code b).length) : (f'.code b)[n]? = some i := by
  rw [h.code, if_pos rfl, List.getElem?_append_right (List.length_take_le _ _),
    List.length_take_of_le hn, Nat.sub_self]
  rfl

theorem Places.dest_eq_none {b : NodeId} {n : Nat} {op : Opcode} {i : InstId} {f f' : Func}
    (h : Places b n op i f f') : (f'.inst i).dest = none := by
  rw [h.dest, h.fresh, inst, Arena.get?_next]
  rfl

theorem Places.scheduled {b : NodeId} {n : Nat} {op : Opcode} {i : InstId} {f f' : Func}
    (h : Places b n op i f f') (hs : f.Scheduled) : f'.Scheduled := by
  have hdef : ∀ v, f'.defines v = f.defines v := by
    intro v
    funext j
    rw [defines, defines, h.dest]
  have hnew : ∀ v, f.defines v i = false := by
    intro v
    rw [defines, inst, h.fresh, Arena.get?_next]
    rfl
  refine h.seated.scheduled (fun c => ?_) fun c v => ?_
  · have := hs.phis c
    rw [h.phiCount, h.code]
    split
    · next hc =>
      subst hc
      simp only [List.length_append, List.length_cons, List.length_take, List.length_drop]
      omega
    · exact this
  · rw [h.locals, hs.locals, hdef, h.code]
    split
    · next hc =>
      subst hc
      rw [List.filter_append, List.filter_cons_of_neg (by rw [hnew]; simp), ← List.filter_append,
        List.take_append_drop]
    · rfl

end DefFlow.Flow
