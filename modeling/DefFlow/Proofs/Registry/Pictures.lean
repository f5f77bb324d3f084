import DefFlow.Proofs.Registry.Stored
import DefFlow.Proofs.Edits.Owners

/-!
# Who owns what

A registry pictures a function if it has the records of its trees and no others. While a surgery
moves some trees, it has them in hand, and their roots may have any record. Main statement: in a
registry that pictures a function each component is listed once by its parent and by nothing else,
the way up from a component never comes back to it and ends at the function exactly if the component
is below it, and the place of a component is always found.
-/

set_option autoImplicit false

namespace DefFlow.Flow

open Func Component Relation

/-! ## Places -/

def Listing.at? : Listing → Role → Option NodeId
  | .seq elements, .element k => elements[k]?
  | .fork cond _, .condition => cond
  | .fork _ cases, .case k => cases[k]?
  | .loop members, role => members.bind fun m => m.get? role
  | .function body, .functionBody => body
  | _, _ => none

section

variable {s : Registry} {i p : NodeId} {role : Role} {c : Component}

theorem idxOf?_of_getElem? {l : List NodeId} {k : Nat} (hn : l.Nodup) (h : l[k]? = some i) :
    l.idxOf? i = some k := by
  obtain ⟨hk, rfl⟩ := List.getElem?_eq_some_iff.mp h
  rw [List.idxOf?, List.findIdx?_eq_some_iff_getElem]
  refine ⟨hk, beq_self_eq_true _, fun j hj => ?_⟩
  rw [Bool.not_eq_true, beq_eq_false_iff_ne]
  exact fun he => Nat.ne_of_lt hj ((hn.getElem_inj_iff).mp he)

theorem Component.at?_parts_of_plays (h : c.Plays i role) : c.parts.at? role = some i := by
  cases c <;> cases role <;> simp only [Plays] at h <;>
    first
    | exact h.elim
    | (obtain ⟨d, hd, rfl⟩ := h
       simp [parts, Listing.at?, hd])
    | (subst h
       rfl)

/-- A component is found in the place where its parent lists it. -/
theorem Registry.placement_eq {parts listing : Listing} {o : Option NodeId}
    (hi : s.nodes.get? i = some ⟨some p, parts⟩) (hp : s.nodes.get? p = some ⟨o, listing⟩)
    (hn : listing.listed.Nodup) (h : listing.at? role = some i) :
    s.placement i = .ok (some (p, role)) := by
  have hparts : s.parts? p = some listing := by
    rw [Registry.parts?, hp]
    rfl
  simp only [placement, hi, Option.bind_some, hparts]
  cases listing with
  | block => cases h
  | seq es =>
    cases role with
    | element k =>
      have hk : es.idxOf? i = some k := idxOf?_of_getElem? hn h
      dsimp only
      rw [hk]
      rfl
    | _ => cases h
  | fork cond cs =>
    cases role with
    | condition =>
      have hcond : cond = some i := h
      exact if_pos hcond
    | case k =>
      have hcs : i ∈ cs := List.mem_of_getElem? h
      have hne : cond ≠ some i := by
        rintro rfl
        exact (List.nodup_cons.mp hn).1 hcs
      have hk : cs.idxOf? i = some k := idxOf?_of_getElem? (List.nodup_append.mp hn).2.1 h
      dsimp only
      rw [if_neg hne, hk]
      rfl
    | _ => cases h
  | loop members =>
    cases members with
    | none => cases h
    | some m =>
      simp only [Listing.listed, Members.listed, Option.map_some, Option.getD_some,
        List.nodup_cons, List.mem_cons, List.not_mem_nil, or_false, not_or] at hn
      have hrole : m.roleOf? i = some role := by
        cases role <;> simp only [Listing.at?, Option.bind_some, Members.get?, Option.some.injEq,
          reduceCtorEq] at h <;> subst h <;> simp [Members.roleOf?, hn, Ne.symm]
      dsimp only [Option.bind_some]
      rw [hrole]
  | function body =>
    cases role with
    | functionBody => rfl
    | _ => cases h

end

/-! ## Pictures -/

/-- The records of a tree whose root may have any record. -/
structure Registry.Holds (s : Registry) (c : Component) : Prop where
  root : (s.nodes.get? c.id).isSome
  child : ∀ d ∈ c.children, s.Shows (some c.id) d

/-- The registry has the records of the trees of the function and of those in hand, and no
others. -/
structure Registry.Pictures (s : Registry) (hand : List Component) (f : Func) : Prop where
  handle : s.handle = f.handle
  frozen : s.frozen = f.frozen
  size : s.nodes.size = f.nodes.size
  root : s.nodes.get? rootId = some ⟨none, .function (some f.body.id)⟩
  body : s.Shows (some rootId) f.body
  detached : ∀ d ∈ f.detached, s.Shows none d
  held : ∀ d ∈ hand, s.Holds d
  only : ∀ i, (s.nodes.get? i).isSome → i = rootId ∨ i ∈ idsAll (hand ++ f.trees)

section

variable {s : Registry} {f : Func} {i p : NodeId} {o : Option NodeId} {c d : Component}
  {hand : List Component} {role : Role} {x : Stored}

theorem Component.find?_child {t : NodeId} {e : Component} (hd : d ∈ c.children)
    (hn : c.ids.Nodup) (h : d.find? t = some e) : c.find? t = some e := by
  have ht : t ∈ d.ids := by
    by_contra ht
    rw [find?_of_not_mem d ht] at h
    cases h
  cases c with
  | block i => cases hd
  | seq i es =>
    obtain ⟨l, r, rfl⟩ := List.append_of_mem hd
    rw [find?_element hn fun _ => ht, h]
  | fork i cond cs =>
    rcases List.mem_cons.mp hd with rfl | hd
    · rw [ids, List.mem_singleton] at ht
      subst ht
      simp only [ids, List.nodup_cons, List.mem_cons, not_or] at hn
      rw [find?, if_pos rfl] at h
      rw [find?, if_neg hn.1.1, if_pos rfl, h]
    · obtain ⟨l, r, rfl⟩ := List.append_of_mem hd
      rw [find?_case hn fun _ => ht, h]
  | loop i start cond body update after =>
    have ha := apart_of_nodup hn
    simp only [children, List.mem_cons, List.not_mem_nil, or_false] at hd
    rcases hd with rfl | rfl | rfl | rfl | rfl
    · rw [find?_start hn fun _ => ht, h]
    · rw [ids, List.mem_singleton] at ht
      subst ht
      rw [find?, if_pos rfl] at h
      rw [find?, if_neg ha.id_cond, if_pos rfl, h]
    · rw [find?_body hn fun _ => ht, h]
    · rw [find?_update hn fun _ => ht, h]
    · rw [ids, List.mem_singleton] at ht
      subst ht
      rw [find?, if_pos rfl] at h
      rw [find?, if_neg ha.id_after, if_neg (Ne.symm ha.after_cond), if_pos rfl, h]

theorem Registry.Shows.record (h : s.Shows o c) (hn : c.ids.Nodup) (hi : i ∈ c.ids) :
    ∃ path d, c.pathIn i = some path ∧ c.find? i = some d ∧ d.id = i ∧
      s.nodes.get? i = some ⟨(path.head?.map Prod.fst).or o, d.parts⟩ := by
  induction h with
  | @intro o c h _ ih =>
    rw [ids_eq_cons] at hi
    rcases List.mem_cons.mp hi with rfl | hi
    · exact ⟨[], c, pathIn_self c, find?_self c, rfl, h⟩
    obtain ⟨d, hd, hi⟩ := mem_idsAll.mp hi
    obtain ⟨path, e, hpath, hfind, hid, hx⟩ := ih d hd (child_nodup hn hd) hi
    obtain ⟨role, hpath⟩ := pathIn_child hd hn hpath
    refine ⟨_, e, hpath, find?_child hd hn hfind, hid, ?_⟩
    rw [hx]
    cases path <;> simp

namespace Registry.Pictures

variable (h : s.Pictures hand f)

include h

theorem shows (hf : f.Forest) (hc : c ∈ f.trees) :
    s.Shows (if f.isBody c.id then some rootId else none) c := by
  rcases List.mem_cons.mp hc with rfl | hc
  · rw [isBody, hf.held, decide_eq_true rfl]
    exact h.body
  · rw [isBody_of_mem_detached hf.nodup hc]
    exact h.detached c hc

theorem part (hf : f.Forest) (hd : d.PartOf f.trees) : ∃ o, s.Shows o d := by
  obtain ⟨c, hc, hw⟩ := hd
  exact (h.shows hf hc).within hw

theorem stored (hf : f.Forest) (hi : i = rootId ∨ i ∈ idsAll f.trees) :
    (s.nodes.get? i).isSome := by
  rcases hi with rfl | hi
  · rw [h.root]
    rfl
  · obtain ⟨c, hc, hi⟩ := mem_idsAll.mp hi
    exact (h.shows hf hc).stored hi

/-- The record of a component names its parent and its parts. -/
theorem record (hf : f.Forest) (hi : i ∈ idsAll f.trees) : ∃ d, f.find? i = some d ∧ d.id = i ∧
    s.nodes.get? i = some ⟨(f.parent? i).map Prod.fst, d.parts⟩ := by
  obtain ⟨c, hc, hi⟩ := mem_idsAll.mp hi
  obtain ⟨path, d, hpath, hfind, hid, hx⟩ := (h.shows hf hc).record (hf.tree_nodup hc) hi
  refine ⟨d, (find?_of_mem_tree hf.nodup hc hi).trans hfind, hid, ?_⟩
  · rw [hx, Func.parent?, path_of_mem_tree hf.nodup hc hi, hpath, Option.getD_some]
    cases path with
    | cons e rest => rfl
    | nil =>
      rw [← id_of_pathIn_nil hpath]
      dsimp only
      split <;> rfl

theorem parent_eq (hf : f.Forest) (hi : i = rootId ∨ i ∈ idsAll f.trees)
    (hx : s.nodes.get? i = some x) : x.parent = (f.parent? i).map Prod.fst := by
  rcases hi with rfl | hi
  · rw [hf.parent?_root]
    cases h.root.symm.trans hx
    rfl
  · obtain ⟨d, _, _, hd⟩ := h.record hf hi
    cases hd.symm.trans hx
    rfl

theorem listed_eq (hf : f.Forest) (hp : p = rootId ∨ p ∈ idsAll f.trees)
    (hx : s.nodes.get? p = some x) : x.parts.listed = f.partsOf p := by
  rcases hp with rfl | hi
  · cases h.root.symm.trans hx
    rw [partsOf, if_pos rfl]
    rfl
  · obtain ⟨d, hfind, _, hd⟩ := h.record hf hi
    cases hd.symm.trans hx
    rw [partsOf, if_neg (ne_of_mem_of_not_mem hi hf.root_not_mem), hfind, listed_parts]
    rfl

theorem placement (hf : f.Forest) (hi : i = rootId ∨ i ∈ idsAll f.trees) :
    s.placement i = .ok (f.parent? i) := by
  obtain ⟨⟨parent, parts⟩, hx⟩ := Option.isSome_iff_exists.mp (h.stored hf hi)
  have hparent := h.parent_eq hf hi hx
  dsimp only at hparent
  cases hp : f.parent? i with
  | none =>
    rw [hp] at hparent
    subst hparent
    simp [Registry.placement, hx]
  | some e =>
    obtain ⟨p, role⟩ := e
    rw [hp] at hparent
    subst hparent
    rcases plays_of_parent? hp with ⟨c, hc, rfl, hplays⟩ | ⟨rfl, rfl, hbody⟩
    · obtain ⟨o, ho⟩ := h.part hf hc
      refine placement_eq hx ho.root ?_ (at?_parts_of_plays hplays)
      rw [listed_parts]
      have hn := hc.nodup hf.nodup
      rw [ids_eq_cons, List.nodup_cons] at hn
      exact (map_id_sublist _).nodup hn.2
    · rw [isBody, Bool.and_eq_true, decide_eq_true_eq] at hbody
      exact placement_eq hx h.root (List.nodup_singleton _) (congrArg some hbody.1)

end Registry.Pictures

end

/-! ## Blocks -/

section

variable {s : Registry} {i : NodeId} {o : Option NodeId} {c d : Component}

theorem Component.blocks_eq_blocksAll (h : c.kind ≠ .block) : c.blocks = blocksAll c.children := by
  cases c <;> simp_all [blocks, blocksAll, children, kind]

theorem mapM_some {α β γ : Type} {walk : β → Option γ} {g : α → β} {k : α → γ} {l : List α}
    (h : ∀ a ∈ l, walk (g a) = some (k a)) : (l.map g).mapM walk = some (l.map k) := by
  induction l with
  | nil => rfl
  | cons a l ih =>
    rw [List.map_cons, List.mapM_cons, h a List.mem_cons_self,
      ih fun b hb => h b (List.mem_cons_of_mem a hb)]
    rfl

theorem blocksAll_eq_flatten (cs : List Component) :
    blocksAll cs = (cs.map Component.blocks).flatten := by
  induction cs with
  | nil => rfl
  | cons c cs ih => rw [blocksAll, ih, List.map_cons, List.flatten_cons]

namespace Registry.Shows

theorem kind_of_parts {listing : Listing} (h : s.Shows o c) (hx : s.parts? c.id = some listing) :
    listing.kind = c.kind := by
  rw [h.parts?, Option.some.injEq] at hx
  rw [← hx, kind_parts]

/-- The blocks of a tree are the components that are stored as blocks. -/
theorem mem_blocks_iff (h : s.Shows o c) :
    i ∈ c.blocks ↔ i ∈ c.ids ∧ s.parts? i = some .block := by
  refine ⟨fun hi => ⟨mem_ids_of_mem_blocks hi, ?_⟩, fun ⟨hi, hx⟩ => ?_⟩
  · induction h with
    | @intro o c h hc ih =>
      by_cases hk : c.kind = .block
      · cases c with
        | block b =>
          obtain rfl := List.mem_singleton.mp hi
          rw [Registry.parts?, show s.nodes.get? i = _ from h]
          rfl
        | _ => cases hk
      · rw [blocks_eq_blocksAll hk] at hi
        obtain ⟨d, hd, hi⟩ := mem_blocksAll.mp hi
        exact ih d hd hi
  · clear * - h hi hx
    induction h with
    | @intro o c h hc ih =>
      have hc' : s.Shows o c := ⟨h, hc⟩
      rw [ids_eq_cons] at hi
      rcases List.mem_cons.mp hi with rfl | hi
      · have hk := hc'.kind_of_parts hx
        cases c with
        | block b => exact List.mem_singleton_self b
        | _ => cases hk
      · obtain ⟨d, hd, hi⟩ := mem_idsAll.mp hi
        rw [blocks_eq_blocksAll (by cases c <;> simp_all [children, kind])]
        exact mem_blocksAll.mpr ⟨d, hd, ih d hd hi⟩

/-- The walk down a tree ends after as many steps as there are components. -/
theorem blocks? {n : Nat} (h : s.Shows o c) (hn : c.ids.length ≤ n) :
    s.blocks? n c.id = some c.blocks := by
  induction h generalizing n with
  | @intro o c h hc ih =>
    have hc' : s.Shows o c := ⟨h, hc⟩
    rw [ids_eq_cons, List.length_cons] at hn
    obtain ⟨n, rfl⟩ := Nat.exists_eq_add_of_le' (Nat.lt_of_lt_of_le (Nat.succ_pos _) hn)
    have hbelow : ∀ d ∈ c.children, s.blocks? n d.id = some d.blocks := by
      intro d hd
      refine ih d hd (Nat.le_trans ?_ (Nat.le_of_succ_le_succ hn))
      obtain ⟨l, r, hl⟩ := List.append_of_mem hd
      simp only [hl, idsAll_append, idsAll, List.length_append]
      omega
    have hall : ((c.parts.listed.mapM (s.blocks? n)).map List.flatten) =
        some (blocksAll c.children) := by
      rw [listed_parts, mapM_some hbelow, Option.map_some, blocksAll_eq_flatten]
    rw [Registry.blocks?, hc'.parts?]
    cases c with
    | block b => rfl
    | _ =>
      rw [blocks_eq_blocksAll (by simp [kind]), ← hall]
      simp only [Component.parts]
      cases List.mapM (s.blocks? n) _ <;> rfl

end Registry.Shows

end

/-! ## Ownership -/

namespace Registry

def Lists (s : Registry) (p i : NodeId) : Prop :=
  ∃ x, s.nodes.get? p = some x ∧ i ∈ x.parts.listed

def ChildOf (s : Registry) (i p : NodeId) : Prop :=
  ∃ x, s.nodes.get? i = some x ∧ x.parent = some p

/-- The components form a forest, and those below the function are attached. -/
structure Owned (s : Registry) : Prop where
  /-- The parent of a component is there and lists it once. -/
  held : ∀ {i p}, s.ChildOf i p → ∃ x, s.nodes.get? p = some x ∧ x.parts.listed.count i = 1
  /-- What lists a component is its parent; without a parent it is listed by nothing. -/
  listed : ∀ {i p}, s.Lists p i → s.ChildOf i p
  acyclic : ∀ i, ¬ TransGen s.ChildOf i i
  attached : ∀ {i}, TransGen s.Lists rootId i → TransGen s.ChildOf i rootId
  /-- The place of a component that is attached is found, and it is where its parent lists it. -/
  placed : ∀ {i}, TransGen s.ChildOf i rootId → ∃ p role x, s.placement i = .ok (some (p, role)) ∧
    s.nodes.get? p = some x ∧ x.parts.at? role = some i
  blocks : ∃ bs, s.blocks? (s.nodes.size + 1) rootId = some bs ∧ bs.Nodup ∧
    ∀ b, b ∈ bs ↔ s.parts? b = some .block ∧ TransGen s.ChildOf b rootId

end Registry

namespace Registry.Pictures

variable {s : Registry} {f : Func} {i p : NodeId} (h : s.Pictures [] f) (hf : f.Forest)

include h hf

theorem childOf_iff : s.ChildOf i p ↔ f.ChildOf i p := by
  constructor
  · rintro ⟨x, hx, hp⟩
    rw [h.parent_eq hf (h.only i (hx ▸ rfl)) hx, Option.map_eq_some_iff] at hp
    obtain ⟨⟨_, role⟩, hp, rfl⟩ := hp
    exact ⟨role, hp⟩
  · rintro ⟨role, hp⟩
    have hi : i ∈ idsAll f.trees := by
      have hm := (before_of_childOf ⟨role, hp⟩).subset (List.mem_cons_of_mem _ List.mem_cons_self)
      refine (List.mem_cons.mp hm).resolve_left ?_
      rintro rfl
      rw [hf.parent?_root] at hp
      cases hp
    obtain ⟨d, _, _, hx⟩ := h.record hf hi
    exact ⟨_, hx, by rw [hp]; rfl⟩

theorem childOf_eq : s.ChildOf = f.ChildOf := by
  funext i p
  exact propext (h.childOf_iff hf)

theorem mem_partsOf (hl : s.Lists p i) : i ∈ f.partsOf p := by
  obtain ⟨x, hx, hi⟩ := hl
  exact h.listed_eq hf (h.only p (hx ▸ rfl)) hx ▸ hi

/-- What a registry that pictures trees says about them fits together. -/
theorem owned : s.Owned where
  held := fun {i p} hp => by
    have hp := (h.childOf_iff hf).mp hp
    have hmem := List.mem_cons.mp ((before_of_childOf hp).subset List.mem_cons_self)
    obtain ⟨x, hx⟩ := Option.isSome_iff_exists.mp (h.stored hf hmem)
    refine ⟨x, hx, ?_⟩
    rw [h.listed_eq hf hmem hx, (hf.partsOf_nodup p).count,
      if_pos (hf.mem_partsOf_of_childOf hp)]
  listed hl := (h.childOf_iff hf).mpr (hf.childOf_of_mem_partsOf (h.mem_partsOf hf hl))
  acyclic i hi := by
    rw [h.childOf_eq hf] at hi
    exact hf.acyclic i hi
  attached hi := by
    have step : ∀ {p i}, s.Lists p i → s.ChildOf i p := fun hl =>
      (h.childOf_iff hf).mpr (hf.childOf_of_mem_partsOf (h.mem_partsOf hf hl))
    induction hi with
    | single hl => exact .single (step hl)
    | tail _ hl ih => exact .head (step hl) ih
  placed := fun {i} hi => by
    have hi : ∃ p, f.ChildOf i p := by
      rw [h.childOf_eq hf] at hi
      cases hi with
      | single hp => exact ⟨_, hp⟩
      | tail hi _ => exact (TransGen.head'_iff.mp hi).imp fun _ hp => hp.1
    obtain ⟨p, role, hp⟩ := hi
    have hx : s.ChildOf i p := (h.childOf_iff hf).mpr ⟨role, hp⟩
    have hplace := h.placement hf (h.only i (by
      obtain ⟨x, hx, _⟩ := hx
      rw [hx]
      rfl))
    rw [hp] at hplace
    rcases plays_of_parent? hp with ⟨c, hc, rfl, hplays⟩ | ⟨rfl, rfl, hbody⟩
    · obtain ⟨o, ho⟩ := h.part hf hc
      exact ⟨_, role, _, hplace, ho.root, at?_parts_of_plays hplays⟩
    · rw [isBody, Bool.and_eq_true, decide_eq_true_eq] at hbody
      exact ⟨_, _, _, hplace, h.root, congrArg some hbody.1⟩
  blocks := by
    refine ⟨f.body.blocks, ?_, (blocks_sublist f.body).nodup (hf.tree_nodup List.mem_cons_self),
      fun b => ?_⟩
    · have hbody := h.body.blocks? (n := s.nodes.size)
        (h.size ▸ (hf.length_tree_le List.mem_cons_self).le)
      rw [Registry.blocks?, Registry.parts?, h.root]
      simp [Listing.listed, hbody]
    · rw [h.body.mem_blocks_iff, and_comm, hf.mem_body_iff, h.childOf_eq hf]

end Registry.Pictures

end DefFlow.Flow
