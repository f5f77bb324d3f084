import DefFlow.Proofs.Tree.Order
import DefFlow.Proofs.Tree.Place

/-!
# Trees by their parts

Trees are compared by the numbers and blocks in them, whatever their order. A part that is
replaced takes its numbers along, a structure stands before everything that it holds, and
the predecessors of a component are blocks of its tree.
-/

set_option autoImplicit false

namespace DefFlow.Flow.Component

/-! ## The same components -/

structure Same (cs ds : List Component) : Prop where
  ids : (idsAll cs).Perm (idsAll ds)
  blocks : (blocksAll cs).Perm (blocksAll ds)

namespace Same

variable {cs ds es cs' ds' : List Component}

theorem refl (cs : List Component) : Same cs cs := ⟨.refl _, .refl _⟩

theorem symm (h : Same cs ds) : Same ds cs := ⟨h.ids.symm, h.blocks.symm⟩

theorem trans (h : Same cs ds) (h' : Same ds es) : Same cs es :=
  ⟨h.ids.trans h'.ids, h.blocks.trans h'.blocks⟩

theorem append (h : Same cs ds) (h' : Same cs' ds') : Same (cs ++ cs') (ds ++ ds') := by
  constructor
  · rw [idsAll_append, idsAll_append]
    exact h.ids.append h'.ids
  · rw [blocksAll_append, blocksAll_append]
    exact h.blocks.append h'.blocks

theorem cons (c : Component) (h : Same cs ds) : Same (c :: cs) (c :: ds) :=
  append (.refl [c]) h

theorem of_perm (h : cs.Perm ds) : Same cs ds := by
  induction h with
  | nil => exact .refl _
  | cons x _ ih => exact ih.cons x
  | swap x y l =>
    constructor
    · simp only [idsAll, ← List.append_assoc]
      exact List.perm_append_comm.append_right _
    · simp only [blocksAll, ← List.append_assoc]
      exact List.perm_append_comm.append_right _
  | trans _ _ ih ih' => exact ih.trans ih'

theorem of_count (hi : ∀ a, (idsAll cs).count a = (idsAll ds).count a)
    (hb : ∀ a, (blocksAll cs).count a = (blocksAll ds).count a) : Same cs ds :=
  ⟨List.perm_iff_count.mpr hi, List.perm_iff_count.mpr hb⟩

end Same

/-- An exchange of two components goes through among others. -/
theorem Same.exchange {x y d e : Component} (h : Same [x, d] [y, e]) (l r : List Component) :
    Same (l ++ x :: r ++ [d]) (l ++ y :: r ++ [e]) := by
  have hp : ∀ x d : Component, (l ++ x :: r ++ [d]).Perm ([x, d] ++ (l ++ r)) := fun x d =>
    (List.perm_middle.append_right [d]).trans
      ((List.perm_append_singleton d (l ++ r)).cons x)
  exact (Same.of_perm (hp x d)).trans ((h.append (.refl (l ++ r))).trans
    (.symm (.of_perm (hp y e))))

section

variable {s cond : NodeId} {es cs : List Component} {c d : Component}

/-- The numbers of a component are its own and those of its direct parts. -/
theorem ids_eq_cons (c : Component) : c.ids = c.id :: idsAll c.children := by
  cases c <;> simp [ids, Component.id, children, idsAll]

theorem same_children (c : Component) (hc : c.kind ≠ .block) :
    Same [c] (.seq c.id [] :: c.children) := by
  constructor
  · rw [idsAll_singleton, idsAll, ids, idsAll, ids_eq_cons]
    rfl
  · cases c <;> simp_all [blocksAll, blocks, children, kind]

/-- Two structures with the same number are alike if their parts are. -/
theorem same_of_children {cs' : List Component} (hid : c.id = d.id) (hc : c.kind ≠ .block)
    (hd : d.kind ≠ .block) (h : Same (c.children ++ cs) (d.children ++ cs')) :
    Same (c :: cs) (d :: cs') := by
  refine ((same_children c hc).append (.refl cs)).trans ?_
  refine .trans ?_ ((same_children d hd).append (.refl cs')).symm
  rw [hid]
  exact h.cons _

theorem same_insert {n : Nat} (h : n ≤ es.length) :
    Same [.seq s (es.insertIdx n d)] [.seq s es, d] := by
  refine (same_children (.seq s (es.insertIdx n d)) nofun).trans ?_
  refine .trans ?_ ((same_children (.seq s es) nofun).append (.refl [d])).symm
  refine .cons _ (.of_perm ((List.perm_insertIdx d es h).trans ?_))
  exact (List.perm_append_singleton d es).symm

theorem same_erase {n : Nat} (h : es[n]? = some d) :
    Same [.seq s (es.eraseIdx n), d] [.seq s es] := by
  obtain ⟨hn, rfl⟩ := List.getElem?_eq_some_iff.mp h
  refine ((same_children (.seq s (es.eraseIdx n)) nofun).append (.refl [es[n]])).trans ?_
  refine .trans (.cons _ (.of_perm ?_)) (same_children (.seq s es) nofun).symm
  exact (List.perm_append_singleton _ _).trans (List.getElem_cons_eraseIdx_perm hn)

/-- The cases of a fork are like the elements of a sequence beside its condition. -/
theorem same_fork : Same [.fork s cond cs] [.seq s cs, .block cond] := by
  refine (same_children (.fork s cond cs) nofun).trans ?_
  refine .trans (.cons _ (.of_perm ?_))
    ((same_children (.seq s cs) nofun).append (.refl [.block cond])).symm
  exact (List.perm_append_singleton _ _).symm

theorem same_condition {cond' : NodeId} :
    Same [.fork s cond' cs, .block cond] [.fork s cond cs, .block cond'] := by
  refine (same_fork.append (.refl _)).trans (.trans ?_ (same_fork.append (.refl _)).symm)
  exact .cons _ (.of_perm (.swap _ _ _))

/-! ## Replacing a part -/

variable {g : Component → Component}

theorem Within.same_modify (h : Within d c) (hn : c.ids.Nodup) :
    Same [c.modify d.id g, d] [c, g d] := by
  -- A structure is taken apart, one of its parts exchanged, and put together again.
  have hput : ∀ {x y : Component} (l r : List Component), x.kind ≠ .block → y.kind ≠ .block →
      ∀ {a b : Component}, .seq x.id [] :: x.children = l ++ a :: r →
      .seq y.id [] :: y.children = l ++ b :: r → Same [a, d] [b, g d] →
      Same [x, d] [y, g d] := by
    intro x y l r hx hy a b hxc hyc hab
    have h₁ := (same_children x hx).append (.refl [d])
    have h₂ := (same_children y hy).append (.refl [g d])
    rw [hxc] at h₁
    rw [hyc] at h₂
    exact h₁.trans ((hab.exchange l r).trans h₂.symm)
  induction h with
  | here =>
    rw [modify_self]
    exact .of_perm (.swap _ _ _)
  | @element i l r c h ih =>
    rw [modify_element hn fun _ => h.mem_ids (id_mem_ids d)]
    exact hput (.seq i [] :: l) r nofun nofun rfl rfl (ih (element_nodup hn))
  | @case i cond l r c h ih =>
    rw [modify_case hn fun _ => h.mem_ids (id_mem_ids d)]
    exact hput (.seq i [] :: .block cond :: l) r nofun nofun rfl rfl (ih (case_nodup hn))
  | @start i cond after start body update h ih =>
    rw [modify_start hn fun _ => h.mem_ids (id_mem_ids d)]
    exact hput [.seq i []] _ nofun nofun rfl rfl (ih (apart_of_nodup hn).start_nodup)
  | @body i cond after start body update h ih =>
    rw [modify_body hn fun _ => h.mem_ids (id_mem_ids d)]
    exact hput [.seq i [], start, .block cond] _ nofun nofun rfl rfl
      (ih (apart_of_nodup hn).body_nodup)
  | @update i cond after start body update h ih =>
    rw [modify_update hn fun _ => h.mem_ids (id_mem_ids d)]
    exact hput [.seq i [], start, .block cond, body] _ nofun nofun rfl rfl
      (ih (apart_of_nodup hn).update_nodup)

theorem Within.put (h : Within d c) (hn : c.ids.Nodup) : Within (g d) (c.modify d.id g) := by
  induction h with
  | here =>
    rw [modify_self]
    exact .here
  | element h ih =>
    rw [modify_element hn fun _ => h.mem_ids (id_mem_ids d)]
    exact .element (ih (element_nodup hn))
  | case h ih =>
    rw [modify_case hn fun _ => h.mem_ids (id_mem_ids d)]
    exact .case (ih (case_nodup hn))
  | start h ih =>
    rw [modify_start hn fun _ => h.mem_ids (id_mem_ids d)]
    exact .start (ih (apart_of_nodup hn).start_nodup)
  | body h ih =>
    rw [modify_body hn fun _ => h.mem_ids (id_mem_ids d)]
    exact .body (ih (apart_of_nodup hn).body_nodup)
  | update h ih =>
    rw [modify_update hn fun _ => h.mem_ids (id_mem_ids d)]
    exact .update (ih (apart_of_nodup hn).update_nodup)

def PartOf (d : Component) (ts : List Component) : Prop := ∃ c ∈ ts, Within d c

variable {ts : List Component}

theorem PartOf.nodup (h : d.PartOf ts) (hn : (idsAll ts).Nodup) : d.ids.Nodup := by
  obtain ⟨c, hc, hd⟩ := h
  obtain ⟨l, r, rfl⟩ := List.append_of_mem hc
  exact hd.nodup (middle_nodup hn)

theorem PartOf.mem_ids (h : d.PartOf ts) {x : NodeId} (hx : x ∈ d.ids) : x ∈ idsAll ts := by
  obtain ⟨c, hc, hd⟩ := h
  obtain ⟨l, r, rfl⟩ := List.append_of_mem hc
  rw [idsAll_append, idsAll]
  exact List.mem_append_right _ (List.mem_append_left _ (hd.mem_ids hx))

theorem PartOf.find? (h : d.PartOf ts) (hn : (idsAll ts).Nodup) : findAll? d.id ts = some d := by
  obtain ⟨c, hc, hd⟩ := h
  obtain ⟨l, r, rfl⟩ := List.append_of_mem hc
  obtain ⟨hl, hr⟩ := beside_of_nodup hn (hd.mem_ids (id_mem_ids d))
  rw [findAll?_beside hl hr, hd.find? (middle_nodup hn)]

theorem PartOf.unique {e : Component} (hd : d.PartOf ts) (he : e.PartOf ts)
    (hn : (idsAll ts).Nodup) (hid : d.id = e.id) : d = e := by
  have h := hd.find? hn
  rw [hid, he.find? hn, Option.some.injEq] at h
  exact h.symm

theorem partOf_of_find? {t : NodeId} (h : findAll? t ts = some d) (hd : d.kind ≠ .block) :
    d.PartOf ts ∧ d.id = t := by
  rcases within_of_findAll? ts h with ⟨b, rfl⟩ | ⟨c, hc, hw, hid⟩
  · exact absurd rfl hd
  · exact ⟨⟨c, hc, hw⟩, hid⟩

theorem PartOf.same_modify (h : d.PartOf ts) (hn : (idsAll ts).Nodup) :
    Same (d :: modifyAll d.id g ts) (g d :: ts) := by
  obtain ⟨c, hc, hd⟩ := h
  obtain ⟨l, r, rfl⟩ := List.append_of_mem hc
  rw [modifyAll_middle hn (hd.mem_ids (id_mem_ids d))]
  have h := (hd.same_modify (g := g) (middle_nodup hn)).append (.refl (l ++ r))
  refine .trans (.of_perm ?_) (h.trans (.of_perm ?_))
  · exact ((List.perm_middle).cons d).trans (.swap _ _ _)
  · exact (List.Perm.swap _ _ _).trans ((@List.perm_middle _ c l r).symm.cons (g d))

theorem PartOf.put (h : d.PartOf ts) (hn : (idsAll ts).Nodup) :
    (g d).PartOf (modifyAll d.id g ts) := by
  obtain ⟨c, hc, hd⟩ := h
  obtain ⟨l, r, rfl⟩ := List.append_of_mem hc
  rw [modifyAll_middle hn (hd.mem_ids (id_mem_ids d))]
  exact ⟨_, List.mem_append_right _ List.mem_cons_self, hd.put (middle_nodup hn)⟩

theorem PartOf.trans (hd : d.PartOf ts) (hc : Within c d) : c.PartOf ts := by
  obtain ⟨e, he, hw⟩ := hd
  exact ⟨e, he, hc.trans hw⟩

/-- A part that lies in one of the trees by its number is a part of that tree. -/
theorem PartOf.within_of_mem (hd : d.PartOf ts) (hc : c ∈ ts) (hn : (idsAll ts).Nodup)
    (hm : d.id ∈ c.ids) : Within d c := by
  obtain ⟨e, he, hw⟩ := hd
  obtain ⟨l, r, rfl⟩ := List.append_of_mem hc
  obtain ⟨hl, hr⟩ := beside_of_nodup hn hm
  rcases List.mem_append.mp he with he | he
  · exact absurd (PartOf.mem_ids ⟨e, he, hw⟩ (id_mem_ids d)) hl
  rcases List.mem_cons.mp he with rfl | he
  · exact hw
  · exact absurd (PartOf.mem_ids ⟨e, he, hw⟩ (id_mem_ids d)) hr

theorem PartOf.append_right (h : d.PartOf ts) (c : Component) : d.PartOf (ts ++ [c]) := by
  obtain ⟨a, ha, hw⟩ := h
  exact ⟨a, List.mem_append_left _ ha, hw⟩

/-! ## Structures and what they hold -/

theorem mem_children_of_plays {t : NodeId} {role : Role} (h : c.Plays t role) :
    t ∈ c.children.map Component.id := by
  cases c <;> cases role <;> simp only [Plays] at h <;>
    first
    | exact h.elim
    | (obtain ⟨d, hd, rfl⟩ := h
       simp only [children, List.map_cons, List.mem_cons]
       first
       | exact List.mem_map_of_mem (List.mem_of_getElem? hd)
       | exact Or.inr (List.mem_map_of_mem (List.mem_of_getElem? hd)))
    | (subst h
       simp [children, Component.id])

theorem map_id_sublist (cs : List Component) : (cs.map Component.id).Sublist (idsAll cs) := by
  induction cs with
  | nil => exact .slnil
  | cons c cs ih =>
    rw [List.map_cons, idsAll, ids_eq_cons, List.cons_append]
    exact (ih.trans (List.sublist_append_right _ _)).cons_cons _

theorem mem_ids_of_plays {t : NodeId} {role : Role} (h : c.Plays t role) : t ∈ c.ids := by
  rw [ids_eq_cons]
  exact List.mem_cons_of_mem _ ((map_id_sublist _).subset (mem_children_of_plays h))

theorem Within.ids_sublist (h : Within d c) : d.ids.Sublist c.ids := by
  induction h with
  | here => exact .refl _
  | element _ ih =>
    simp only [ids, idsAll_append, idsAll]
    exact ((ih.trans (List.sublist_append_left _ _)).trans (List.sublist_append_right _ _)).cons _
  | case _ ih =>
    simp only [ids, idsAll_append, idsAll]
    exact (((ih.trans (List.sublist_append_left _ _)).trans
      (List.sublist_append_right _ _)).cons _).cons _
  | start _ ih =>
    simp only [ids, List.cons_append, List.append_assoc]
    exact (ih.trans (List.sublist_append_left _ _)).cons _
  | body _ ih =>
    simp only [ids, List.cons_append, List.append_assoc]
    exact (((ih.trans (List.sublist_append_left _ _)).cons _).trans
      (List.sublist_append_right _ _)).cons _
  | update _ ih =>
    simp only [ids, List.cons_append, List.append_assoc]
    exact ((((ih.trans (List.sublist_append_left _ _)).trans (List.sublist_append_right _ _)).cons
      _).trans (List.sublist_append_right _ _)).cons _

theorem Within.before_child (h : Within d c) {t : NodeId}
    (ht : t ∈ d.children.map Component.id) : Before c.ids d.id t := by
  refine List.Sublist.trans ?_ h.ids_sublist
  rw [ids_eq_cons d]
  exact before_head ((map_id_sublist _).subset ht)

end

/-! ## Predecessors -/

theorem mem_exits_blocks {c : Component} {preds : List NodeId} {p : NodeId}
    (h : p ∈ c.exits preds) : p ∈ preds ∨ p ∈ c.blocks := by
  rw [mem_exits] at h
  rcases h with h | ⟨_, h⟩
  · exact Or.inr (mem_blocks_of_mem_leaves c h)
  · exact Or.inl h

mutual
/-- The predecessors of a component are blocks of its tree, or come from outside. -/
theorem mem_of_mem_predsIn {t p : NodeId} {l : List NodeId} : (c : Component) →
    (preds : List NodeId) → c.predsIn t preds = some l → p ∈ l → p ∈ preds ∨ p ∈ c.blocks
  | .block i, preds => by
    intro h hp
    rw [predsIn] at h
    split at h
    · cases h
      exact Or.inl hp
    · cases h
  | .seq i elements, preds => by
    intro h hp
    rw [predsIn] at h
    split at h
    · cases h
      exact Or.inl hp
    · exact mem_of_mem_predsElements elements preds h hp
  | .fork i cond cases, preds => by
    intro h hp
    rw [predsIn] at h
    rw [blocks, List.mem_cons]
    split at h
    · cases h
      exact Or.inl hp
    · rcases mem_of_mem_predsCases cases [cond] h hp with hp | hp
      · exact Or.inr (Or.inl (List.mem_singleton.mp hp))
      · exact Or.inr (Or.inr hp)
  | .loop i start cond body update after, preds => by
    intro h hp
    rw [predsIn] at h
    simp only [blocks, List.mem_append, List.mem_cons, List.not_mem_nil, or_false]
    have hbody : p ∈ body.exits [cond] → p = cond ∨ p ∈ body.blocks := fun hp =>
      (mem_exits_blocks hp).imp_left List.mem_singleton.mp
    split at h
    · cases h
      exact Or.inl hp
    · split at h
      · cases h
        rw [List.mem_eraseDups, List.mem_append] at hp
        rcases hp with hp | hp
        · rcases mem_exits_blocks hp with hp | hp
          · exact Or.inl hp
          · grind
        · rcases mem_exits_blocks hp with hp | hp
          · have := hbody hp
            grind
          · grind
      · split at h
        · cases h
          have := List.mem_singleton.mp hp
          grind
        · rcases Option.or_eq_some_iff.mp h with h | ⟨_, h⟩
          · rcases mem_of_mem_predsIn start preds h hp with hp | hp
            · exact Or.inl hp
            · grind
          · rcases Option.or_eq_some_iff.mp h with h | ⟨_, h⟩
            · rcases mem_of_mem_predsIn body [cond] h hp with hp | hp
              · have := List.mem_singleton.mp hp
                grind
              · grind
            · rcases mem_of_mem_predsIn update _ h hp with hp | hp
              · have := hbody hp
                grind
              · grind

theorem mem_of_mem_predsElements {t p : NodeId} {l : List NodeId} : (cs : List Component) →
    (preds : List NodeId) → predsElements t preds cs = some l → p ∈ l →
      p ∈ preds ∨ p ∈ blocksAll cs
  | [], _ => by simp [predsElements]
  | c :: cs, preds => by
    intro h hp
    rw [predsElements] at h
    rw [blocksAll, List.mem_append]
    rcases Option.or_eq_some_iff.mp h with h | ⟨_, h⟩
    · exact (mem_of_mem_predsIn c preds h hp).imp_right Or.inl
    · rcases mem_of_mem_predsElements cs _ h hp with hp | hp
      · exact (mem_exits_blocks hp).imp_right Or.inl
      · exact Or.inr (Or.inr hp)

theorem mem_of_mem_predsCases {t p : NodeId} {l : List NodeId} : (cs : List Component) →
    (preds : List NodeId) → predsCases t preds cs = some l → p ∈ l →
      p ∈ preds ∨ p ∈ blocksAll cs
  | [], _ => by simp [predsCases]
  | c :: cs, preds => by
    intro h hp
    rw [predsCases] at h
    rw [blocksAll, List.mem_append]
    rcases Option.or_eq_some_iff.mp h with h | ⟨_, h⟩
    · exact (mem_of_mem_predsIn c preds h hp).imp_right Or.inl
    · exact (mem_of_mem_predsCases cs preds h hp).imp_right Or.inr
end

/-! ## The way to a part -/

section

variable {c d x : Component} {l : List Component} {t : NodeId}

theorem mem_of_pathIn {path : List (NodeId × Role)} (h : c.pathIn t = some path) : t ∈ c.ids := by
  cases path with
  | nil =>
    rw [← id_of_pathIn_nil h]
    exact id_mem_ids c
  | cons e path =>
    obtain ⟨d, hd, _, hp⟩ := plays_of_pathIn c h
    exact hd.mem_ids (mem_ids_of_plays hp)

theorem pathIn_of_not_mem (h : t ∉ c.ids) : c.pathIn t = none := by
  cases hp : c.pathIn t with
  | none => rfl
  | some path => exact absurd (mem_of_pathIn hp) h

theorem pathElements_middle {path : List (NodeId × Role)} (h : x.pathIn t = some path)
    (r : List Component) (parent : NodeId) : ∀ index : Nat, t ∉ idsAll l →
      ∃ k, pathElements t parent index (l ++ x :: r) = some (path ++ [(parent, .element k)]) := by
  induction l with
  | nil =>
    intro index _
    exact ⟨index, by rw [List.nil_append, pathElements, h, Option.map_some, Option.some_or]⟩
  | cons a l ih =>
    intro index hl
    rw [idsAll, List.mem_append, not_or] at hl
    obtain ⟨k, hk⟩ := ih (index + 1) hl.2
    exact ⟨k, by rw [List.cons_append, pathElements, pathIn_of_not_mem hl.1, Option.map_none,
      Option.none_or, hk]⟩

theorem pathCases_middle {path : List (NodeId × Role)} (h : x.pathIn t = some path)
    (r : List Component) (parent : NodeId) : ∀ index : Nat, t ∉ idsAll l →
      ∃ k, pathCases t parent index (l ++ x :: r) = some (path ++ [(parent, .case k)]) := by
  induction l with
  | nil =>
    intro index _
    exact ⟨index, by rw [List.nil_append, pathCases, h, Option.map_some, Option.some_or]⟩
  | cons a l ih =>
    intro index hl
    rw [idsAll, List.mem_append, not_or] at hl
    obtain ⟨k, hk⟩ := ih (index + 1) hl.2
    exact ⟨k, by rw [List.cons_append, pathCases, pathIn_of_not_mem hl.1, Option.map_none,
      Option.none_or, hk]⟩

/-- The way to what a direct part holds leads through that part. -/
theorem pathIn_child {path : List (NodeId × Role)} (hx : x ∈ c.children) (hn : c.ids.Nodup)
    (h : x.pathIn t = some path) : ∃ role, c.pathIn t = some (path ++ [(c.id, role)]) := by
  have ht := mem_of_pathIn h
  cases c with
  | block i => cases hx
  | seq i elements =>
    obtain ⟨l, r, rfl⟩ := List.append_of_mem hx
    obtain ⟨hi, hl, _⟩ := beside_element hn fun _ => ht
    obtain ⟨k, hk⟩ := pathElements_middle h r i 0 hl
    exact ⟨.element k, by rw [pathIn, if_neg hi, hk]; rfl⟩
  | fork i cond cs =>
    rcases List.mem_cons.mp hx with rfl | hx
    · rw [ids, List.mem_singleton] at ht
      subst ht
      rw [pathIn, if_pos rfl] at h
      cases h
      simp only [ids, List.nodup_cons, List.mem_cons, not_or] at hn
      exact ⟨.condition, by rw [pathIn, if_neg hn.1.1, if_pos rfl]; rfl⟩
    · obtain ⟨l, r, rfl⟩ := List.append_of_mem hx
      obtain ⟨hi, hc, hl, _⟩ := beside_case hn fun _ => ht
      obtain ⟨k, hk⟩ := pathCases_middle h r i 0 hl
      exact ⟨.case k, by rw [pathIn, if_neg hi, if_neg hc, hk]; rfl⟩
  | loop i start cond body update after =>
    simp only [children, List.mem_cons, List.not_mem_nil, or_false] at hx
    rcases hx with rfl | rfl | rfl | rfl | rfl
    · obtain ⟨hi, hc, ha, _⟩ := beside_start hn fun _ => ht
      exact ⟨.start, by
        rw [pathIn, if_neg hi, if_neg hc, if_neg ha, h, Option.map_some, Option.some_or]; rfl⟩
    · rw [ids, List.mem_singleton] at ht
      subst ht
      rw [pathIn, if_pos rfl] at h
      cases h
      exact ⟨.loopCondition, by
        rw [pathIn, if_neg (apart_of_nodup hn).id_cond, if_pos rfl]; rfl⟩
    · obtain ⟨hi, hc, ha, hs, _⟩ := beside_body hn fun _ => ht
      exact ⟨.body, by
        rw [pathIn, if_neg hi, if_neg hc, if_neg ha, pathIn_of_not_mem hs, h, Option.map_none,
          Option.none_or, Option.map_some, Option.some_or]; rfl⟩
    · obtain ⟨hi, hc, ha, hs, hb⟩ := beside_update hn fun _ => ht
      exact ⟨.update, by
        rw [pathIn, if_neg hi, if_neg hc, if_neg ha, pathIn_of_not_mem hs, pathIn_of_not_mem hb, h,
          Option.map_none, Option.none_or, Option.map_none, Option.none_or, Option.map_some]; rfl⟩
    · rw [ids, List.mem_singleton] at ht
      subst ht
      rw [pathIn, if_pos rfl] at h
      cases h
      have ha := apart_of_nodup hn
      exact ⟨.after, by
        rw [pathIn, if_neg ha.id_after, if_neg (Ne.symm ha.after_cond), if_pos rfl]; rfl⟩

/-- The way to a direct part of a structure starts at the structure. -/
theorem Within.pathIn_child (h : Within d c) (hn : c.ids.Nodup)
    (ht : t ∈ d.children.map Component.id) :
    ∃ role rest, c.pathIn t = some ((d.id, role) :: rest) := by
  -- What leads to the part in a direct part of `c` is carried on by `c`.
  have hstep : ∀ {x c : Component}, x ∈ c.children → c.ids.Nodup →
      (x.ids.Nodup → ∃ role rest, x.pathIn t = some ((d.id, role) :: rest)) →
      ∃ role rest, c.pathIn t = some ((d.id, role) :: rest) := by
    intro x c hx hn ih
    obtain ⟨role, rest, hp⟩ := ih (by
      obtain ⟨l, r, hl⟩ := List.append_of_mem hx
      rw [ids_eq_cons, hl, List.nodup_cons] at hn
      exact middle_nodup hn.2)
    obtain ⟨r, hr⟩ := Component.pathIn_child hx hn hp
    exact ⟨role, rest ++ [(c.id, r)], hr⟩
  induction h with
  | here =>
    obtain ⟨x, hx, rfl⟩ := List.mem_map.mp ht
    obtain ⟨role, hr⟩ := Component.pathIn_child hx hn (pathIn_self x)
    exact ⟨role, [], hr⟩
  | element _ ih => exact hstep (by simp [children]) hn ih
  | case _ ih => exact hstep (by simp [children]) hn ih
  | start _ ih => exact hstep (by simp [children]) hn ih
  | body _ ih => exact hstep (by simp [children]) hn ih
  | update _ ih => exact hstep (by simp [children]) hn ih

end

end DefFlow.Flow.Component
