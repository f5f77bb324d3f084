import DefFlow.Proofs.Edits.Restock
import DefFlow.Proofs.Tree.Region

/-!
# Who owns what

Each component of the trees is a part of its parent and of nothing else, the way up from a
component leads to the front of the order of the trees, and it ends at the function exactly if it
starts in the body.
-/

set_option autoImplicit false

namespace DefFlow.Flow

open Func Component Relation

namespace Func

def partsOf (f : Func) (p : NodeId) : List NodeId :=
  if p = rootId then [f.body.id] else ((f.find? p).map Component.children).getD []
      |>.map Component.id

def ChildOf (f : Func) (i p : NodeId) : Prop := ∃ role, f.parent? i = some (p, role)

end Func

section

variable {f : Func} {i p b : NodeId} {role : Role} {c d : Component}

theorem idxOf_lt_of_before {l : List NodeId} {a b : NodeId} (hn : l.Nodup) (h : Before l a b) :
    l.idxOf a < l.idxOf b := by
  induction l with
  | nil => cases h
  | cons x l ih =>
    obtain ⟨hx, hn⟩ := List.nodup_cons.mp hn
    cases h with
    | cons _ h =>
      have ha : x ≠ a := fun he => hx (he ▸ h.subset List.mem_cons_self)
      have hb : x ≠ b := fun he => hx (he ▸ h.subset (List.mem_cons_of_mem _ List.mem_cons_self))
      rw [List.idxOf_cons_ne _ ha, List.idxOf_cons_ne _ hb]
      exact Nat.succ_lt_succ (ih hn h)
    | cons_cons _ h =>
      have hb : a ≠ b := fun he => hx (he ▸ h.subset List.mem_cons_self)
      rw [List.idxOf_cons_self, List.idxOf_cons_ne _ hb]
      exact Nat.succ_pos _

/-- A walk of all trees is one of the tree that holds what it looks for. -/
theorem findSome?_trees {α : Type} {walk : Component → Option α} (hn : (idsAll f.trees).Nodup)
    (hc : c ∈ f.trees) (hi : i ∈ c.ids) (hwalk : ∀ d, i ∉ d.ids → walk d = none) :
    f.trees.findSome? walk = walk c := by
  obtain ⟨l, r, hl⟩ := List.append_of_mem hc
  rw [hl] at hn
  obtain ⟨hleft, hright⟩ := beside_of_nodup hn hi
  have hnone {ds : List Component} (h : i ∉ idsAll ds) : ds.findSome? walk = none :=
    List.findSome?_eq_none_iff.mpr fun d hd => hwalk d fun hm => h (mem_idsAll.mpr ⟨d, hd, hm⟩)
  rw [hl, List.findSome?_append, hnone hleft, Option.none_or, List.findSome?_cons]
  cases walk c with
  | some a => rfl
  | none => exact hnone hright

/-- The way to a component is the way in the tree that holds it. -/
theorem path_of_mem_tree (hn : (idsAll f.trees).Nodup) (hc : c ∈ f.trees) (hi : i ∈ c.ids) :
    f.path i = (c.pathIn i).getD [] := by
  rw [Func.path, findSome?_trees hn hc hi fun d hd => pathIn_of_not_mem hd]

theorem find?_of_mem_tree (hn : (idsAll f.trees).Nodup) (hc : c ∈ f.trees) (hi : i ∈ c.ids) :
    f.find? i = c.find? i := by
  obtain ⟨l, r, hl⟩ := List.append_of_mem hc
  rw [hl] at hn
  obtain ⟨hleft, hright⟩ := beside_of_nodup hn hi
  rw [Func.find?, hl, findAll?_beside hleft hright]

/-- A parent stands before its parts, and the function before all. -/
theorem before_of_childOf (hp : f.ChildOf i p) :
    Before (rootId :: idsAll f.trees) p i := by
  obtain ⟨role, hp⟩ := hp
  rcases plays_of_parent? hp with ⟨d, ⟨c, hc, hw⟩, rfl, hplays⟩ | ⟨rfl, _, hbody⟩
  · obtain ⟨l, r, hl⟩ := List.append_of_mem hc
    rw [hl, idsAll_append, idsAll]
    exact before_cons _ (before_right _ (before_left _
      (hw.before_child (mem_children_of_plays hplays))))
  · rw [isBody, Bool.and_eq_true, decide_eq_true_eq] at hbody
    refine before_head ?_
    rw [← hbody.1, trees, idsAll]
    exact List.mem_append_left _ (id_mem_ids f.body)

theorem isBody_of_mem_detached (hn : (idsAll f.trees).Nodup) (hc : c ∈ f.detached) :
    f.isBody c.id = false := by
  rw [trees, idsAll, List.nodup_append] at hn
  have hne : f.body.id ≠ c.id :=
    hn.2.2 _ (id_mem_ids f.body) _ (mem_idsAll.mpr ⟨c, hc, id_mem_ids c⟩)
  simp [isBody, hne]

/-- What is a direct part of a structure has it as its parent. -/
theorem childOf_of_child (hn : (idsAll f.trees).Nodup) (hd : d.PartOf f.trees)
    (hi : i ∈ d.children.map Component.id) : f.ChildOf i d.id := by
  obtain ⟨c, hc, hw⟩ := hd
  have hmem : i ∈ c.ids := hw.mem_ids (by
    rw [ids_eq_cons]
    exact List.mem_cons_of_mem _ ((map_id_sublist _).subset hi))
  obtain ⟨role, rest, hpath⟩ := hw.pathIn_child (PartOf.nodup ⟨c, hc, .here⟩ hn) hi
  exact ⟨role, by rw [Func.parent?, path_of_mem_tree hn hc hmem, hpath]; rfl⟩

theorem parent_of_body (hn : (idsAll f.trees).Nodup) (hheld : f.bodyHeld = true) :
    f.parent? f.body.id = some (rootId, .functionBody) := by
  rw [Func.parent?, path_of_mem_tree hn (c := f.body) List.mem_cons_self (id_mem_ids _),
    pathIn_self]
  simp [isBody, hheld]

namespace Func.Forest

theorem root_not_mem (h : f.Forest) : rootId ∉ idsAll f.trees := fun hm =>
  Nat.lt_irrefl _ (h.bounded rootId hm).1

theorem tree_nodup (h : f.Forest) (hc : c ∈ f.trees) : c.ids.Nodup := by
  have hn := h.nodup
  obtain ⟨l, r, hl⟩ := List.append_of_mem hc
  rw [hl] at hn
  exact middle_nodup hn

theorem tree_unique (h : f.Forest) (hc : c ∈ f.trees) (hd : d ∈ f.trees) (hi : i ∈ c.ids)
    (hi' : i ∈ d.ids) : c = d := unique_of_nodup h.nodup hc hd hi hi'

theorem childOf_of_mem_partsOf (h : f.Forest) (hi : i ∈ f.partsOf p) : f.ChildOf i p := by
  rw [partsOf] at hi
  split at hi
  · next hroot =>
    rw [List.mem_singleton.mp hi, hroot]
    exact ⟨_, parent_of_body h.nodup h.held⟩
  · cases hfind : f.find? p with
    | none =>
      rw [hfind] at hi
      cases hi
    | some c =>
      rw [hfind] at hi
      have hc : c.kind ≠ .block := by
        intro hk
        cases c with
        | block b => cases hi
        | _ => cases hk
      obtain ⟨hpart, rfl⟩ := partOf_of_find? hfind hc
      exact childOf_of_child h.nodup hpart hi

theorem mem_partsOf_of_childOf (h : f.Forest) (hp : f.ChildOf i p) : i ∈ f.partsOf p := by
  obtain ⟨role, hp⟩ := hp
  rw [partsOf]
  rcases plays_of_parent? hp with ⟨c, hc, rfl, hplays⟩ | ⟨rfl, _, hbody⟩
  · have hne : c.id ≠ rootId := fun he => h.root_not_mem (he ▸ hc.mem_ids (id_mem_ids c))
    have hfind : f.find? c.id = some c := hc.find? h.nodup
    rw [if_neg hne, hfind]
    exact mem_children_of_plays hplays
  · rw [isBody, Bool.and_eq_true, decide_eq_true_eq] at hbody
    rw [if_pos rfl, hbody.1]
    exact List.mem_singleton_self i

theorem partsOf_nodup (h : f.Forest) (p : NodeId) : (f.partsOf p).Nodup := by
  rw [partsOf]
  split
  · exact List.nodup_singleton _
  · cases hfind : f.find? p with
    | none => exact List.nodup_nil
    | some c =>
      rcases within_of_findAll? f.trees hfind with ⟨b, rfl⟩ | ⟨t, ht, hw, _⟩
      · exact List.nodup_nil
      · have hn : c.ids.Nodup := PartOf.nodup ⟨t, ht, hw⟩ h.nodup
        rw [ids_eq_cons, List.nodup_cons] at hn
        exact (map_id_sublist _).nodup hn.2

/-! ## The way up -/

def rank (f : Func) (i : NodeId) : Nat := (rootId :: idsAll f.trees).idxOf i

theorem rank_lt (h : f.Forest) (hp : f.ChildOf i p) : rank f p < rank f i :=
  idxOf_lt_of_before (List.nodup_cons.mpr ⟨h.root_not_mem, h.nodup⟩) (before_of_childOf hp)

theorem rank_le_of_above (h : f.Forest) (hp : ReflTransGen f.ChildOf i p) :
    rank f p ≤ rank f i := by
  induction hp with
  | refl => exact Nat.le_refl _
  | tail _ hp ih => exact (h.rank_lt hp).le.trans ih

theorem acyclic (h : f.Forest) (i : NodeId) : ¬ TransGen f.ChildOf i i := fun hi => by
  obtain ⟨p, hp, hup⟩ := TransGen.head'_iff.mp hi
  exact Nat.lt_irrefl _ ((h.rank_lt hp).trans_le (h.rank_le_of_above hup))

theorem parent?_root (h : f.Forest) : f.parent? rootId = none := by
  cases hp : f.parent? rootId with
  | none => rfl
  | some e => exact absurd (h.rank_lt ⟨e.2, hp⟩) (by simp [rank])

theorem length_le (h : f.Forest) : (rootId :: idsAll f.trees).length ≤ f.nodes.size := by
  have hn : (rootId :: idsAll f.trees).Nodup := List.nodup_cons.mpr ⟨h.root_not_mem, h.nodup⟩
  have hsub : (rootId :: idsAll f.trees) ⊆ (List.range f.nodes.size).map (· + 1) := by
    intro j hj
    have hbody := h.bounded f.body.id (List.mem_append_left _ (id_mem_ids f.body))
    have hj : 1 ≤ j ∧ j ≤ f.nodes.size := by
      rcases List.mem_cons.mp hj with rfl | hj
      · exact ⟨Nat.le_refl 1, Nat.le_trans hbody.1.le hbody.2⟩
      · exact ⟨(h.bounded j hj).1.le, (h.bounded j hj).2⟩
    refine List.mem_map.mpr ⟨j - 1, List.mem_range.mpr ?_, Nat.sub_add_cancel hj.1⟩
    exact Nat.lt_of_lt_of_le (Nat.sub_lt hj.1 Nat.one_pos) hj.2
  have hlen := (hn.subperm hsub).length_le
  rwa [List.length_map, List.length_range] at hlen

theorem rank_le (h : f.Forest) (i : NodeId) : rank f i ≤ f.nodes.size :=
  List.idxOf_le_length.trans h.length_le

theorem length_tree_le (h : f.Forest) (hc : c ∈ f.trees) : c.ids.length < f.nodes.size := by
  refine Nat.lt_of_lt_of_le (Nat.lt_succ_of_le ?_) h.length_le
  obtain ⟨l, r, hl⟩ := List.append_of_mem hc
  simp only [hl, idsAll_append, idsAll, List.length_append]
  omega

theorem mem_tree_of_childOf (h : f.Forest) (hc : c ∈ f.trees) (hp : f.ChildOf i p)
    (hm : p ∈ c.ids) : i ∈ c.ids := by
  obtain ⟨role, hp⟩ := hp
  rcases plays_of_parent? hp with ⟨d, ⟨e, he, hw⟩, rfl, hplays⟩ | ⟨rfl, _, _⟩
  · rw [h.tree_unique hc he hm (hw.mem_ids (id_mem_ids d))]
    exact hw.mem_ids (mem_ids_of_plays hplays)
  · exact absurd (mem_idsAll.mpr ⟨c, hc, hm⟩) h.root_not_mem

/-- What lies below a component of a tree lies in the tree. -/
theorem mem_of_above (h : f.Forest) (hc : c ∈ f.trees) (hp : ReflTransGen f.ChildOf i p)
    (hm : p ∈ c.ids) : i ∈ c.ids := by
  induction hp using ReflTransGen.head_induction_on with
  | refl => exact hm
  | head hp _ ih => exact h.mem_tree_of_childOf hc hp ih

/-- A component of the body is the body or a part of a component of the body. -/
theorem childOf_of_mem (h : f.Forest) (hi : i ∈ f.body.ids) :
    ∃ p, f.ChildOf i p ∧ (p = rootId ∨ p ∈ f.body.ids) := by
  obtain ⟨path, hpath, hnil⟩ := pathIn_of_mem f.body hi
  cases path with
  | nil =>
    rw [← hnil rfl]
    exact ⟨rootId, ⟨_, parent_of_body h.nodup h.held⟩, .inl rfl⟩
  | cons e rest =>
    obtain ⟨d, hd, hid, _⟩ := plays_of_pathIn f.body hpath
    refine ⟨e.1, ⟨e.2, ?_⟩, .inr (hid ▸ hd.mem_ids (id_mem_ids d))⟩
    rw [Func.parent?, path_of_mem_tree h.nodup (c := f.body) List.mem_cons_self hi, hpath]
    rfl

/-- The way up ends at the function from the components of the body, and from no others. -/
theorem mem_body_iff (h : f.Forest) : i ∈ f.body.ids ↔ TransGen f.ChildOf i rootId := by
  constructor
  · -- Each step up comes closer to the front.
    intro hi
    induction hn : rank f i using Nat.strong_induction_on generalizing i with
    | _ n ih =>
      obtain ⟨p, hp, hroot | hmem⟩ := h.childOf_of_mem hi
      · exact .single (hroot ▸ hp)
      · exact .head hp (ih _ (hn ▸ h.rank_lt hp) hmem rfl)
  · intro hi
    induction hi using TransGen.head_induction_on with
    | single hp =>
      have hm := h.mem_partsOf_of_childOf hp
      rw [partsOf, if_pos rfl, List.mem_singleton] at hm
      exact hm ▸ id_mem_ids f.body
    | head hp _ ih => exact h.mem_tree_of_childOf List.mem_cons_self hp ih

end Func.Forest

end

end DefFlow.Flow
