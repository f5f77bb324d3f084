import DefFlow.Proofs.Edits.Assemble
import DefFlow.Proofs.Tree.Parts

/-!
# The stock of components

A function has every component once: in one of its trees, or in the hand of the edit that
is moving it. Each step of an edit of the trees moves components between the two, so a
whole edit that ends with nothing in hand has lost and doubled none.
-/

set_option autoImplicit false

namespace DefFlow.Flow

open Func Component

/-- Every component exists once, in a tree or in hand, and the blocks among them are stored. -/
structure Func.Stocked (hand : List Component) (f : Func) : Prop where
  nodup : (idsAll (hand ++ f.trees)).Nodup
  bounded : ∀ i : Nat, i ∈ idsAll (hand ++ f.trees) → 1 < i ∧ i ≤ f.nodes.size
  stored : ∀ b, b ∈ blocksAll (hand ++ f.trees) ↔ (f.nodes.get? b).isSome

structure Replants (f f' : Func) : Prop extends SameRecords f f' where
  handle : f'.handle = f.handle
  frozen : f'.frozen = f.frozen
  held : f.bodyHeld = true → f'.bodyHeld = true
  insts : f'.insts = f.insts
  code : ∀ b, f'.code b = f.code b
  phiCount : ∀ b, (f'.blockAt b).phiCount = (f.blockAt b).phiCount
  blocks : ∀ b, (f.nodes.get? b).isSome → (f'.nodes.get? b).isSome
  memo : f'.memo = f.memo ∨ f'.memo = []

section

variable {f f' f'' : Func}

namespace Replants

theorem refl (f : Func) : Replants f f :=
  ⟨⟨fun _ => rfl, rfl, rfl⟩, rfl, rfl, id, rfl, fun _ => rfl, fun _ => rfl, fun _ => id, .inl rfl⟩

theorem trans (h : Replants f f') (h' : Replants f' f'') : Replants f f'' where
  listed b := (h'.listed b).trans (h.listed b)
  timelines := h'.timelines.trans h.timelines
  incoming := h'.incoming.trans h.incoming
  handle := h'.handle.trans h.handle
  frozen := h'.frozen.trans h.frozen
  held hh := h'.held (h.held hh)
  insts := h'.insts.trans h.insts
  code b := (h'.code b).trans (h.code b)
  phiCount b := (h'.phiCount b).trans (h.phiCount b)
  blocks b hb := h'.blocks b (h.blocks b hb)
  memo := by
    rcases h'.memo with h' | h'
    · exact h.memo.imp h'.trans h'.trans
    · exact .inr h'

theorem of_nodes (hn : f'.nodes = f.nodes) (hi : f'.insts = f.insts)
    (ht : f'.timelines = f.timelines) (hc : f'.incoming = f.incoming) (hh : f'.handle = f.handle)
    (hf : f'.frozen = f.frozen) (hheld : f.bodyHeld = true → f'.bodyHeld = true)
    (hm : f'.memo = f.memo ∨ f'.memo = []) : Replants f f' := by
  have hb : ∀ b, f'.blockAt b = f.blockAt b := fun b => by rw [blockAt, blockAt, hn]
  exact {
    listed := fun b => by rw [hb]
    timelines := ht
    incoming := hc
    handle := hh
    frozen := hf
    held := hheld
    insts := hi
    code := fun b => by rw [Func.code, Func.code, hb]
    phiCount := fun b => by rw [hb]
    blocks := fun b => by rw [hn]; exact id
    memo := hm }

end Replants

variable {hand hand' l r : List Component} {c d taken : Component} {ref : ComponentRef} {p : NodeId}
  {u : Unit}

namespace Func.Stocked

theorem trees_nodup (h : f.Stocked hand) : (idsAll f.trees).Nodup := by
  have := h.nodup
  rw [idsAll_append, List.nodup_append] at this
  exact this.2.1

theorem size_pos (h : f.Stocked hand) : 1 < f.nodes.size := by
  have := h.bounded f.body.id (by
    rw [idsAll_append, Func.trees, idsAll]
    exact List.mem_append_right _ (List.mem_append_left _ (id_mem_ids _)))
  omega

/-- Components have been moved, and some numbers dropped or added. -/
theorem renumbered (h : f.Stocked hand) (extra : List NodeId)
    (hids : (idsAll (hand' ++ f'.trees)).Subperm (idsAll (hand ++ f.trees) ++ extra))
    (hextra : extra.Nodup) (hnew : ∀ i ∈ extra, f.nodes.size < i ∧ i ≤ f'.nodes.size)
    (hsize : f.nodes.size ≤ f'.nodes.size)
    (hstored : ∀ b, b ∈ blocksAll (hand' ++ f'.trees) ↔ (f'.nodes.get? b).isSome) :
    f'.Stocked hand' := by
  have hnodup : (idsAll (hand ++ f.trees) ++ extra).Nodup := by
    refine List.nodup_append.mpr ⟨h.nodup, hextra, fun i hi j hj he => ?_⟩
    exact absurd (h.bounded i hi).2 (Nat.not_le.mpr (he ▸ (hnew j hj).1))
  have hpos := h.size_pos
  refine ⟨?_, fun i hi => ?_, hstored⟩
  · obtain ⟨k, hperm, hsub⟩ := hids
    exact hperm.nodup_iff.mp (hnodup.sublist hsub)
  · rcases List.mem_append.mp (hids.subset hi) with hi | hi
    · exact ⟨(h.bounded i hi).1, Nat.le_trans (h.bounded i hi).2 hsize⟩
    · exact ⟨Nat.lt_trans hpos (hnew i hi).1, (hnew i hi).2⟩

theorem moved (h : f.Stocked hand) (hs : Same (hand' ++ f'.trees) (hand ++ f.trees))
    (hn : f'.nodes = f.nodes) : f'.Stocked hand' := by
  refine h.renumbered [] ?_ List.nodup_nil (fun i hi => by cases hi)
    (by rw [hn]) fun b => ?_
  · rw [List.append_nil]
    exact hs.ids.subperm
  · rw [hs.blocks.mem_iff, hn]
    exact h.stored b

/-- A component whose number is that of a block is that block. -/
theorem eq_block (h : f.Stocked hand) (hc : c ∈ f.trees) (hb : (f.nodes.get? c.id).isSome) :
    c = .block c.id := by
  have hm : c.id ∈ blocksAll f.trees := by
    rcases List.mem_append.mp (blocksAll_append hand f.trees ▸ (h.stored c.id).mpr hb) with hm | hm
    · have hn := h.nodup
      rw [idsAll_append, List.nodup_append] at hn
      exact absurd rfl (hn.2.2 _ (mem_idsAll_of_mem_blocksAll hm) _ (mem_idsAll_of_mem hc))
    · exact hm
  have hpart : c.PartOf f.trees := ⟨c, hc, .here⟩
  have h₁ := hpart.find? h.trees_nodup
  rw [findAll?_block _ h.trees_nodup hm, Option.some.injEq] at h₁
  exact h₁.symm

end Func.Stocked

/-! ## Steps -/

structure Adopts (p : NodeId) (ref : ComponentRef) (hand : List Component) (taken : Component)
    (f f' : Func) : Prop extends Replants f f' where
  id : taken.id = ref.id
  apart : p ∉ taken.ids
  stocked : f'.Stocked (taken :: hand)
  nodes : f'.nodes = f.nodes
  body : f'.body = f.body
  detached : ∃ l r, f.detached = l ++ taken :: r ∧ f'.detached = l ++ r

theorem adopt_adopts (h : f.Stocked hand) (hrun : Edit.adopt p ref f = .ok taken f') :
    Adopts p ref hand taken f f' := by
  obtain ⟨_, f₁, hok, hrun⟩ := Edit.bind_ok hrun
  have hf₁ := adoptable_ok hok
  rw [Edit.adoptable, Edit.bind_eq Edit.get_eq] at hok
  obtain ⟨_, hok⟩ := Edit.require_bind_ok hok
  obtain ⟨_, hok⟩ := Edit.require_bind_ok hok
  obtain ⟨hany, hok⟩ := Edit.require_bind_ok hok
  obtain ⟨hapart, _⟩ := Edit.require_ok hok
  obtain ⟨d, hd, hid⟩ := List.any_eq_true.mp hany
  rw [decide_eq_true_eq] at hid
  obtain ⟨l, r, hlr⟩ := List.append_of_mem hd
  have hne : ∀ y ∈ l ++ r, y.id ≠ d.id := by
    have hn := h.trees_nodup
    rw [Func.trees, hlr, idsAll, List.nodup_append] at hn
    exact id_ne_of_nodup hn.2.1
  rw [hf₁, Edit.bind_eq Edit.get_eq] at hrun
  cases hrun
  have htaken : (f.detached.find? fun y => y.id = ref.id).getD default = d := by
    rw [hlr, ← hid, find?_middle hne]
    rfl
  have hrest : f.detached.filter (fun y => y.id ≠ ref.id) = l ++ r := by
    rw [hlr, ← hid, filter_middle hne]
  rw [htaken, hrest]
  refine ⟨.of_nodes rfl rfl rfl rfl rfl rfl (fun hh => hh) (.inr rfl), hid, fun hp => ?_, ?_, rfl,
    rfl, l, r, hlr, rfl⟩
  · have hout : ∀ y ∈ f.detached, y.id = ref.id → y.contains p = false := by simpa using hapart
    simpa [Component.contains, hp] using hout d hd hid
  · refine h.moved (.of_perm ?_) rfl
    simp only [Func.trees, hlr]
    have hp := (@List.perm_middle _ d (hand ++ f.body :: l) r).symm
    simpa using hp

theorem Adopts.partOf (h : Adopts p ref hand taken f f') (hd : d.PartOf f.trees)
    (hp : d.id ∉ taken.ids) : d.PartOf f'.trees := by
  obtain ⟨c, hc, hw⟩ := hd
  obtain ⟨l, r, hlr, hlr'⟩ := h.detached
  refine ⟨c, ?_, hw⟩
  have hne : c ≠ taken := fun he => hp (he ▸ hw.mem_ids (id_mem_ids d))
  rw [Func.trees, hlr] at hc
  rw [Func.trees, h.body, hlr']
  simp only [List.mem_cons, List.mem_append] at hc ⊢
  grind

theorem Component.PartOf.same_exchange {g : Component → Component} {ts : List Component}
    (hd : d.PartOf ts) (hn : (idsAll ts).Nodup) (hs : Same (g d :: hand') (d :: hand)) :
    Same (hand' ++ modifyAll d.id g ts) (hand ++ ts) := by
  have hput : Same (d :: modifyAll d.id g ts) (g d :: ts) := hd.same_modify hn
  refine .of_count (fun a => ?_) fun a => ?_
  · have h₁ := hput.ids.count_eq a
    have h₂ := hs.ids.count_eq a
    simp only [idsAll, idsAll_append, List.count_append] at h₁ h₂ ⊢
    omega
  · have h₁ := hput.blocks.count_eq a
    have h₂ := hs.blocks.count_eq a
    simp only [blocksAll, blocksAll_append, List.count_append] at h₁ h₂ ⊢
    omega

theorem changeAt_stocked (hand' : List Component) {g : Component → Component}
    (h : f.Stocked hand) (hd : d.PartOf f.trees) (hs : Same (g d :: hand') (d :: hand))
    (hrun : Edit.changeAt d.id g f = .ok u f') :
    f'.Stocked hand' ∧ Replants f f' ∧ (g d).PartOf f'.trees := by
  cases hrun
  exact ⟨h.moved (hd.same_exchange h.trees_nodup hs) rfl,
    .of_nodes rfl rfl rfl rfl rfl rfl (fun hh => hh) (.inl rfl), hd.put h.trees_nodup⟩

theorem aside_stocked (hand : List Component) (h : f.Stocked (hand ++ hand'))
    (hs : Same [c] hand)
    (hd : f'.detached = f.detached ++ [c]) (hb : f'.body = f.body) (hn : f'.nodes = f.nodes) :
    f'.Stocked hand' := by
  refine h.moved ?_ hn
  rw [Func.trees, hd, hb, ← List.cons_append, ← List.append_assoc]
  refine (Same.of_perm List.perm_append_comm).trans ?_
  rw [List.append_assoc]
  exact hs.append (.refl _)

theorem orphan_stocked (h : f.Stocked (c :: hand)) (hrun : Edit.orphan c f = .ok u f') :
    f'.Stocked hand ∧ Replants f f' ∧ f'.trees = f.trees ++ [c] := by
  cases hrun
  exact ⟨aside_stocked [c] h (.refl _) rfl rfl rfl,
    .of_nodes rfl rfl rfl rfl rfl rfl (fun hh => hh) (.inr rfl), rfl⟩

theorem register_stocked (h : f.Stocked hand) :
    ({ f with nodes := f.nodes.skip } : Func).Stocked (.seq f.nodes.next [] :: hand) := by
  refine h.renumbered [f.nodes.next] (List.Perm.subperm ?_) (List.nodup_singleton _)
    (fun i hi => ?_) (by rw [Arena.size_skip]; exact Nat.le_succ _) fun b => ?_
  · exact (List.perm_append_singleton _ _).symm
  · obtain rfl := List.mem_singleton.mp hi
    rw [Arena.size_skip]
    exact ⟨Nat.lt_succ_self _, Nat.le_refl _⟩
  · rw [Arena.get?_skip]
    exact h.stored b

theorem replants_register (f : Func) : Replants f { f with nodes := f.nodes.skip } := by
  have hb : ∀ b, ({ f with nodes := f.nodes.skip } : Func).blockAt b = f.blockAt b := fun b => by
    rw [blockAt, blockAt, Arena.get?_skip]
  exact {
    listed := fun b => by rw [hb]
    timelines := rfl
    incoming := rfl
    handle := rfl
    frozen := rfl
    held := id
    insts := rfl
    code := fun b => by rw [Func.code, Func.code, hb]
    phiCount := fun b => by rw [hb]
    blocks := fun b => by rw [Arena.get?_skip]; exact id
    memo := .inl rfl }

/-! ## New blocks -/

def Block.content (x : Block) : List InstId × Nat × List (VarId × TimelineId) :=
  (x.instructions, x.phiCount, x.timelines)

structure NewBlock (b : NodeId) (hand : List Component) (f f' : Func) : Prop
    extends Replants f f' where
  fresh : b = f.nodes.next
  stocked : f'.Stocked hand
  trees : f'.trees = f.trees ++ [.block b]
  stored : (f'.nodes.get? b).isSome
  code_nil : f'.code b = []
  size : f'.nodes.size = f.nodes.size + 1

theorem newBlock_stocked (h : f.Stocked hand) {label : String} {b : NodeId}
    (hrun : Edit.newBlock label f = .ok b f') : NewBlock b hand f f' := by
  obtain ⟨_, hrun⟩ := Edit.unfrozen_bind_ok hrun
  cases hrun
  have hget : ∀ (x : Block) c, (f.nodes.push x).get? c =
      if c = f.nodes.next then some x else f.nodes.get? c := fun x c => Arena.get?_push _ _ _
  -- But for its label a new block is like one that is not there.
  have hsame : ∀ (name : String) c, (((f.nodes.push ⟨name, [], 0, []⟩).get? c).getD
      default).content = (f.blockAt c).content := by
    intro name c
    rw [hget, blockAt]
    split
    · next hc =>
      subst hc
      rw [Arena.get?_next]
      rfl
    · rfl
  refine {
    listed := fun c => congrArg (fun x => x.2.2) (hsame _ c)
    timelines := rfl
    incoming := rfl
    handle := rfl
    frozen := rfl
    held := id
    insts := rfl
    code := fun c => congrArg Prod.fst (hsame _ c)
    phiCount := fun c => congrArg (fun x => x.2.1) (hsame _ c)
    blocks := fun c hc => ?_
    memo := .inl rfl
    fresh := rfl
    stocked := ?_
    trees := rfl
    stored := by simp only [hget, if_true]; rfl
    code_nil := by simp only [Func.code, blockAt, hget, if_true]; rfl
    size := Arena.size_push _ _ }
  · simp only [hget]
    split
    · rfl
    · exact hc
  · refine h.renumbered [f.nodes.next] (List.Perm.subperm ?_) (List.nodup_singleton _)
      (fun i hi => ?_) (by rw [Arena.size_push]; exact Nat.le_succ _) fun c => ?_
    · change (idsAll (hand ++ (f.trees ++ [.block f.nodes.next]))).Perm _
      rw [← List.append_assoc, idsAll_append]
      exact .refl _
    · obtain rfl := List.mem_singleton.mp hi
      rw [Arena.size_push]
      exact ⟨Nat.lt_succ_self _, Nat.le_refl _⟩
    · change c ∈ blocksAll (hand ++ (f.trees ++ [.block f.nodes.next])) ↔ _
      rw [← List.append_assoc, blocksAll_append, List.mem_append, h.stored, blocksAll_singleton,
        Component.blocks, List.mem_singleton, hget]
      split
      · next hc => simp [hc]
      · next hc => simp [hc]

end

end DefFlow.Flow
