import DefFlow.Proofs.Edits.Firm
import DefFlow.Proofs.Tree.Simple

/-!
# What a flattening leaves as it is

Before it prunes, a flattening exchanges one part of one tree for its flat form. Every block of
every tree keeps its predecessors and successors in their order, and it has a parent afterwards
if it had one before.
-/

set_option autoImplicit false

namespace DefFlow.Flow

open Func Component

structure Dissolves (f g : Func) : Prop extends Restocks f g where
  order : g.blocks = f.blocks
  preds : ∀ {b}, (f.nodes.get? b).isSome → g.preds b = f.preds b
  succs : ∀ {b}, (f.nodes.get? b).isSome → g.succs b = f.succs b
  parent : ∀ {b}, (f.nodes.get? b).isSome → g.hasParent b = f.hasParent b

section

variable {f g : Func} {b : NodeId} {old new : Component}

theorem findSome?_each {α β : Type} {F : α → Option β} {l l' : List α}
    (h : List.Forall₂ (fun a a' => F a' = F a) l l') : l'.findSome? F = l.findSome? F := by
  induction h with
  | nil => rfl
  | cons ha _ ih => rw [List.findSome?_cons, List.findSome?_cons, ha, ih]

theorem not_mem_shellsAll {ts : List Component} (hn : (idsAll ts).Nodup) (hb : b ∈ blocksAll ts) :
    b ∉ shellsAll ts := fun hs =>
  (List.nodup_append.mp ((idsAll_perm_shells ts).nodup_iff.mp hn)).2.2 b hs b hb rfl

/-- A flat form that is held by nothing is of the same kind. -/
theorem flatten_root_block {next : NodeId} (h : (old.flatten false next).1 = .block b) :
    old = .block b := by
  cases old with
  | block i => exact h
  | seq i es =>
    rw [flatten] at h
    cases h
  | fork i cond cases =>
    rw [flatten] at h
    cases h
  | loop => cases h

theorem mem_modifyAll {t : NodeId} {h : Component → Component} {c : Component}
    {cs : List Component} : c ∈ modifyAll t h cs ↔ ∃ d ∈ cs, d.modify t h = c := by
  induction cs with
  | nil => simp [modifyAll]
  | cons d cs ih =>
    rw [modifyAll, List.mem_cons, ih, List.exists_mem_cons_iff]
    exact or_congr_left eq_comm

theorem block_of_modify {t : NodeId} {h : Component → Component} {c : Component} (hid : c.id ≠ t)
    (hc : c.modify t h = .block b) : c = .block b := by
  cases c <;> simp_all [Component.modify, Component.id]

/-- Only a tree that is a block on its own becomes such a block. -/
theorem block_mem_exchanged (hf : f.Forest) (hold : old.PartOf f.trees) (hkind : old.kind ≠ .block)
    (hnew : new = (old.flatten (f.hasParent old.id) f.nodes.next).1) :
    .block b ∈ modifyAll old.id (fun _ => new) f.detached ↔ .block b ∈ f.detached := by
  have hone : ∀ c ∈ f.detached, c.id = old.id → c = old := fun c hc hid =>
    PartOf.unique ⟨c, List.mem_cons_of_mem _ hc, .here⟩ hold hf.nodup hid
  rw [mem_modifyAll]
  constructor
  · rintro ⟨c, hc, hb⟩
    by_cases hid : c.id = old.id
    · have hroot := hf.hasParent_detached hc
      have hself := modify_self c fun _ => new
      rw [hid] at hroot hself
      rw [hself, hnew, hroot] at hb
      rw [hone c hc hid, flatten_root_block hb] at hc
      exact hc
    · rw [block_of_modify hid hb] at hc
      exact hc
  · intro hb
    refine ⟨_, hb, ?_⟩
    rw [Component.modify, if_neg fun hid => hkind ?_]
    rw [← hone _ hb hid, kind]

theorem dissolves_of_exchange (h : f.Consistent) (hr : Restocks f g) (hold : old.PartOf f.trees)
    (hkind : old.kind ≠ .block)
    (hnew : new = (old.flatten (f.hasParent old.id) f.nodes.next).1)
    (htrees : g.trees = modifyAll old.id (fun _ => new) f.trees) : Dissolves f g := by
  have hf := h.forest
  have hg := (hr.consistent h).forest
  have hblockOf : ∀ {b}, (f.nodes.get? b).isSome → b ∈ blocksAll f.trees :=
    (h.stocked.stored _).mpr
  have heach : ∀ {b}, (f.nodes.get? b).isSome → Straight.Each b f.trees g.trees := by
    intro b hb
    rw [htrees]
    refine modifyAll_straight _ (not_mem_shellsAll hf.nodup (hblockOf hb)) fun d hd hid hs => ?_
    rw [hd.unique hold hf.nodup hid] at hs ⊢
    rw [hnew]
    have hle := (hf.bounded b (mem_idsAll_of_mem_blocksAll (hblockOf hb))).2
    exact flatten_straight _ (Nat.lt_succ_of_le hle) old hs
  obtain ⟨hbody, hdetached⟩ := List.cons.inj htrees
  have hblocks : g.blocks = f.blocks := by
    obtain ⟨extra, halike, -⟩ := flatten_alike (f.hasParent old.id) f.nodes.next old
    obtain ⟨root, hroot, hwithin⟩ := hold
    obtain ⟨l, r, hlr⟩ := List.append_of_mem hroot
    have hnodup := hf.nodup
    rw [hlr] at hnodup
    have hgrows := GrowsEach.middle hnodup (hwithin.grows (g := fun _ => new) (middle_nodup hnodup)
      (hnew ▸ halike) fun _ _ _ => rfl) hwithin fun _ _ _ => rfl
    rw [← hlr, ← htrees, Func.trees, Func.trees] at hgrows
    cases hgrows with
    | cons hc _ => exact hc.blocks_one.trans (flatMap_grown_none _)
  refine ⟨hr, hblocks, fun {b} hb => ?_, fun {b} hb => ?_, fun {b} hb => ?_⟩
  · rw [Func.preds, Func.preds, findSome?_each ((heach hb).imp fun _ _ h => h.predsIn [])]
  · rw [Func.succs, Func.succs,
      findSome?_each ((heach hb).imp fun _ _ h => h.succsIn List.nodup_nil)]
  · have hbg : b ∈ blocksAll g.trees := ((hr.consistent h).stocked.stored b).mpr (hr.blocks b hb)
    have hiff := (hg.hasParent_eq_false hbg).trans
      ((hdetached ▸ block_mem_exchanged hf hold hkind hnew).trans
        (hf.hasParent_eq_false (hblockOf hb)).symm)
    cases hgp : g.hasParent b <;> cases hfp : f.hasParent b <;> simp_all

theorem dissolves_registered (h : f.Stocked []) (n : Nat) : Dissolves f (f.registered n) where
  toRestocks := ⟨replants_registered f n, registered_stocked h n⟩
  order := by rw [Func.blocks, Func.blocks, registered_eq f n]
  preds _ := by rw [Func.preds, Func.preds, Func.trees, Func.trees, registered_eq f n]
  succs _ := by rw [Func.succs, Func.succs, Func.trees, Func.trees, registered_eq f n]
  parent _ := by
    rw [Func.hasParent, Func.hasParent, parent?, parent?, path, path, Func.trees,
        Func.trees, isBody,
      isBody, registered_eq f n]

/-- A component is exchanged for its flat form, for which there are enough numbers. -/
theorem exchange_dissolves (h : f.Consistent) {t : NodeId} {u : Unit} (hold : f.find? t = some old)
    (hne : (old.flatten (f.hasParent t) f.nodes.next).1.ids ≠ old.ids)
    (hrun : (do
      Edit.changeAt t fun _ => (old.flatten (f.hasParent t) f.nodes.next).1
      Edit.touch : Edit Unit)
        (f.registered ((old.flatten (f.hasParent t) f.nodes.next).2 - f.nodes.next)) = .ok u g) :
    Dissolves f g ∧
      g.trees = modifyAll t (fun _ => (old.flatten (f.hasParent t) f.nodes.next).1) f.trees := by
  have hkind : old.kind ≠ .block := fun hk => hne (by
    cases old with
    | block b => rfl
    | _ => cases hk)
  obtain ⟨hpart, rfl⟩ := partOf_of_find? hold hkind
  obtain ⟨extra, halike, hnumbers⟩ := flatten_alike (f.hasParent old.id) f.nodes.next old
  have htrees : g.trees =
      modifyAll old.id (fun _ => (old.flatten (f.hasParent old.id) f.nodes.next).1) f.trees := by
    cases hrun
    rw [Func.trees, Func.trees, registered_eq f _]
    rfl
  refine ⟨dissolves_of_exchange h (exchange_restocks _ h.stocked hpart halike ?_ hrun) hpart hkind
    rfl htrees, htrees⟩
  rw [Nat.add_sub_cancel' hnumbers.le]
  exact hnumbers

/-- A flattening exchanges the flat form, and then prunes. -/
theorem flatten_eq (h : f.Consistent) (hu : f.frozen = false) (c : NodeId) :
    ∃ g e, Edit.flatten c f = (do let _ ← Edit.pruneIncoming; return e : Edit NodeId) g ∧
      Dissolves f g := by
  rw [Edit.flatten, Edit.bind_eq (Edit.unfrozen_eq hu _), Edit.bind_eq Edit.get_eq]
  dsimp only
  cases hold : f.find? (if c = rootId then f.body.id else c) with
  | none => exact ⟨f, c, rfl, ⟨.refl f, h.stocked⟩, rfl, fun _ => rfl, fun _ => rfl, fun _ => rfl⟩
  | some old =>
    dsimp only
    rw [Edit.bind_eq (registerUpTo_eq f _)]
    by_cases hne : (old.flatten (f.hasParent (if c = rootId then f.body.id else c))
        f.nodes.next).1.ids ≠ old.ids
    · rw [if_pos hne]
      exact ⟨_, _, Edit.bind_eq rfl, (exchange_dissolves h hold hne rfl).1⟩
    · rw [if_neg hne]
      exact ⟨_, _, rfl, dissolves_registered h.stocked _⟩

/-! ## The body -/

/-- A flattening of the body exchanges it for its flat form, and then prunes. -/
theorem flattenBody_dissolves (h : f.Consistent) (hu : f.frozen = false) :
    ∃ g, Edit.flatten rootId f = (do let _ ← Edit.pruneIncoming; return rootId : Edit NodeId) g ∧
      Dissolves f g ∧ g.body = (f.body.flatten true f.nodes.next).1 := by
  have hf := h.forest
  have hheld := hf.hasParent_of_mem (id_mem_ids f.body)
  rw [flattenBody_eq hu]
  by_cases hne : (f.body.flatten (f.hasParent f.body.id) f.nodes.next).1.ids ≠ f.body.ids
  · rw [if_pos hne]
    obtain ⟨hd, htrees⟩ := exchange_dissolves h f.find?_body hne rfl
    refine ⟨_, Edit.bind_eq rfl, hd, (List.cons.inj htrees).1.trans ?_⟩
    rw [modify_self, hheld]
  · rw [if_neg hne]
    refine ⟨_, rfl, dissolves_registered h.stocked _, ?_⟩
    rw [hheld, not_not] at hne
    rw [registered_eq f _]
    exact (flatten_of_ids (fun s hs => Nat.lt_succ_of_le (hf.bounded s (by
      rw [Func.trees, idsAll]
      exact List.mem_append_left _ hs)).2) hne).symm

/-- Where the body is simple there is nothing to exchange. -/
theorem flattenBody_of_simple (hu : f.frozen = false) (hs : f.body.Simple) :
    Edit.flatten rootId f = (do let _ ← Edit.pruneIncoming; return rootId : Edit NodeId) f := by
  rw [flattenBody_eq hu, flatten_of_simple _ _ _ hs, if_neg (not_not_intro rfl), Nat.sub_self]
  rfl

end

end DefFlow.Flow
