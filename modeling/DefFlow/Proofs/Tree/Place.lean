import DefFlow.Proofs.Tree.Grow

/-!
# Places in a tree

Where a component is found, and what its parent looks like.
-/

set_option autoImplicit false

namespace DefFlow.Flow.Component

/-! ## Finding a component -/

theorem Within.of_mem_seq {d c : Component} {i : NodeId} {cs : List Component} (hc : c ∈ cs)
    (h : Within d c) : Within d (.seq i cs) := by
  obtain ⟨l, r, rfl⟩ := List.append_of_mem hc
  exact .element h

theorem Within.of_mem_fork {d c : Component} {i cond : NodeId} {cs : List Component} (hc : c ∈ cs)
    (h : Within d c) : Within d (.fork i cond cs) := by
  obtain ⟨l, r, rfl⟩ := List.append_of_mem hc
  exact .case h

mutual
theorem within_of_find? {t : NodeId} {d : Component} : (c : Component) → c.find? t = some d →
    (∃ b, d = .block b) ∨ (Within d c ∧ d.id = t)
  | .block i => by
    intro h
    rw [find?] at h
    split at h
    · exact Or.inl ⟨i, (Option.some.inj h).symm⟩
    · cases h
  | .seq i elements => by
    intro h
    rw [find?] at h
    split at h
    · next hi => exact Or.inr (Option.some.inj h ▸ ⟨.here, hi⟩)
    · refine (within_of_findAll? elements h).imp_right ?_
      rintro ⟨c, hc, hd, hid⟩
      exact ⟨.of_mem_seq hc hd, hid⟩
  | .fork i cond cases => by
    intro h
    rw [find?] at h
    split at h
    · next hi => exact Or.inr (Option.some.inj h ▸ ⟨.here, hi⟩)
    · split at h
      · exact Or.inl ⟨cond, (Option.some.inj h).symm⟩
      · refine (within_of_findAll? cases h).imp_right ?_
        rintro ⟨c, hc, hd, hid⟩
        exact ⟨.of_mem_fork hc hd, hid⟩
  | .loop i start cond body update after => by
    intro h
    rw [find?] at h
    split at h
    · next hi => exact Or.inr (Option.some.inj h ▸ ⟨.here, hi⟩)
    · split at h
      · exact Or.inl ⟨cond, (Option.some.inj h).symm⟩
      · split at h
        · exact Or.inl ⟨after, (Option.some.inj h).symm⟩
        · rcases Option.or_eq_some_iff.mp h with h | ⟨_, h⟩
          · exact (within_of_find? start h).imp_right fun hd => ⟨.start hd.1, hd.2⟩
          · rcases Option.or_eq_some_iff.mp h with h | ⟨_, h⟩
            · exact (within_of_find? body h).imp_right fun hd => ⟨.body hd.1, hd.2⟩
            · exact (within_of_find? update h).imp_right fun hd => ⟨.update hd.1, hd.2⟩

theorem within_of_findAll? {t : NodeId} {d : Component} : (cs : List Component) →
    findAll? t cs = some d → (∃ b, d = .block b) ∨ ∃ c ∈ cs, Within d c ∧ d.id = t
  | [] => by simp [findAll?]
  | c :: cs => by
    intro h
    rw [findAll?] at h
    rcases Option.or_eq_some_iff.mp h with h | ⟨_, h⟩
    · exact (within_of_find? c h).imp_right fun hd => ⟨c, List.mem_cons_self, hd⟩
    · refine (within_of_findAll? cs h).imp_right ?_
      rintro ⟨c', hc, hd⟩
      exact ⟨c', List.mem_cons_of_mem _ hc, hd⟩
end

mutual
theorem find?_of_not_mem {t : NodeId} : (c : Component) → t ∉ c.ids → c.find? t = none
  | .block i => by
    intro h
    rw [ids, List.mem_singleton] at h
    rw [find?, if_neg (Ne.symm h)]
  | .seq i elements => by
    intro h
    rw [ids, List.mem_cons, not_or] at h
    rw [find?, if_neg (Ne.symm h.1), findAll?_of_not_mem elements h.2]
  | .fork i cond cases => by
    intro h
    simp only [ids, List.mem_cons, not_or] at h
    rw [find?, if_neg (Ne.symm h.1), if_neg (Ne.symm h.2.1), findAll?_of_not_mem cases h.2.2]
  | .loop i start cond body update after => by
    intro h
    simp only [ids, List.cons_append, List.mem_cons, List.mem_append, List.not_mem_nil, or_false,
      not_or] at h
    obtain ⟨hi, ⟨⟨hs, hc, hb⟩, hu⟩, ha⟩ := h
    rw [find?, if_neg (Ne.symm hi), if_neg (Ne.symm hc), if_neg (Ne.symm ha),
      find?_of_not_mem start hs, find?_of_not_mem body hb, find?_of_not_mem update hu]
    rfl

theorem findAll?_of_not_mem {t : NodeId} : (cs : List Component) → t ∉ idsAll cs →
    findAll? t cs = none
  | [], _ => rfl
  | c :: cs, h => by
    rw [idsAll, List.mem_append, not_or] at h
    rw [findAll?, find?_of_not_mem c h.1, findAll?_of_not_mem cs h.2]
    rfl
end

theorem findAll?_append {t : NodeId} (cs ds : List Component) :
    findAll? t (cs ++ ds) = (findAll? t cs).or (findAll? t ds) := by
  induction cs with
  | nil => rfl
  | cons c cs ih => rw [List.cons_append, findAll?, findAll?, ih, Option.or_assoc]

/-! ## Finding in one part among others -/

section

variable {t i cond after : NodeId} {c c' start start' body body' update update' : Component}
  {l r : List Component}

theorem findAll?_beside (hl : t ∉ idsAll l) (hr : t ∉ idsAll r) :
    findAll? t (l ++ c' :: r) = c'.find? t := by
  rw [findAll?_append, findAll?, findAll?_of_not_mem l hl, findAll?_of_not_mem r hr,
    Option.none_or, Option.or_none]

theorem find?_element (hn : (Component.seq i (l ++ c :: r)).ids.Nodup)
    (ht : t ∈ (Component.seq i (l ++ c :: r)).ids → t ∈ c.ids) :
    (Component.seq i (l ++ c' :: r)).find? t = c'.find? t := by
  obtain ⟨hi, hl, hr⟩ := beside_element hn ht
  rw [find?, if_neg hi, findAll?_beside hl hr]

theorem find?_case (hn : (Component.fork i cond (l ++ c :: r)).ids.Nodup)
    (ht : t ∈ (Component.fork i cond (l ++ c :: r)).ids → t ∈ c.ids) :
    (Component.fork i cond (l ++ c' :: r)).find? t = c'.find? t := by
  obtain ⟨hi, hc, hl, hr⟩ := beside_case hn ht
  rw [find?, if_neg hi, if_neg hc, findAll?_beside hl hr]

theorem find?_start (hn : (Component.loop i start cond body update after).ids.Nodup)
    (ht : t ∈ (Component.loop i start cond body update after).ids → t ∈ start.ids) :
    (Component.loop i start' cond body update after).find? t = start'.find? t := by
  obtain ⟨hi, hc, ha, hb, hu⟩ := beside_start hn ht
  rw [find?, if_neg hi, if_neg hc, if_neg ha, find?_of_not_mem body hb, find?_of_not_mem update hu,
    Option.or_none, Option.or_none]

theorem find?_body (hn : (Component.loop i start cond body update after).ids.Nodup)
    (ht : t ∈ (Component.loop i start cond body update after).ids → t ∈ body.ids) :
    (Component.loop i start cond body' update after).find? t = body'.find? t := by
  obtain ⟨hi, hc, ha, hs, hu⟩ := beside_body hn ht
  rw [find?, if_neg hi, if_neg hc, if_neg ha, find?_of_not_mem start hs,
    find?_of_not_mem update hu, Option.none_or, Option.or_none]

theorem find?_update (hn : (Component.loop i start cond body update after).ids.Nodup)
    (ht : t ∈ (Component.loop i start cond body update after).ids → t ∈ update.ids) :
    (Component.loop i start cond body update' after).find? t = update'.find? t := by
  obtain ⟨hi, hc, ha, hs, hb⟩ := beside_update hn ht
  rw [find?, if_neg hi, if_neg hc, if_neg ha, find?_of_not_mem start hs, find?_of_not_mem body hb,
    Option.none_or, Option.none_or]

end

/-! ## Finding and changing a part -/

theorem id_modify {c : Component} {t : NodeId} {g : Component → Component}
    (h : c.id = t → (g c).id = c.id) : (c.modify t g).id = c.id := by
  cases c <;> (rw [modify]; split <;> first | exact h ‹_› | rfl)

theorem map_id_modifyAll {t : NodeId} {g : Component → Component} (hg : ∀ c, (g c).id = c.id)
    (cs : List Component) : (modifyAll t g cs).map Component.id = cs.map Component.id := by
  induction cs with
  | nil => rfl
  | cons c cs ih => rw [modifyAll, List.map_cons, List.map_cons, id_modify fun _ => hg c, ih]

theorem find?_self (c : Component) : c.find? c.id = some c := by
  cases c <;> rw [find?, Component.id, if_pos rfl]

theorem element_nodup {i : NodeId} {c : Component} {l r : List Component}
    (hn : (Component.seq i (l ++ c :: r)).ids.Nodup) : c.ids.Nodup := by
  rw [ids, List.nodup_cons] at hn
  exact middle_nodup hn.2

theorem case_nodup {i cond : NodeId} {c : Component} {l r : List Component}
    (hn : (Component.fork i cond (l ++ c :: r)).ids.Nodup) : c.ids.Nodup := by
  rw [ids, List.nodup_cons, List.nodup_cons] at hn
  exact middle_nodup hn.2.2

namespace Within

variable {c d e y : Component} {g : Component → Component}

theorem trans (h : Within e d) (h' : Within d c) : Within e c := by
  induction h' with
  | here => exact h
  | element _ ih => exact .element ih
  | case _ ih => exact .case ih
  | start _ ih => exact .start ih
  | body _ ih => exact .body ih
  | update _ ih => exact .update ih

theorem find? (h : Within d c) (hn : c.ids.Nodup) : c.find? d.id = some d := by
  induction h with
  | here => exact find?_self d
  | element h ih =>
    rw [find?_element hn fun _ => h.mem_ids (id_mem_ids d), ih (element_nodup hn)]
  | case h ih => rw [find?_case hn fun _ => h.mem_ids (id_mem_ids d), ih (case_nodup hn)]
  | start h ih =>
    rw [find?_start hn fun _ => h.mem_ids (id_mem_ids d), ih (apart_of_nodup hn).start_nodup]
  | body h ih =>
    rw [find?_body hn fun _ => h.mem_ids (id_mem_ids d), ih (apart_of_nodup hn).body_nodup]
  | update h ih =>
    rw [find?_update hn fun _ => h.mem_ids (id_mem_ids d), ih (apart_of_nodup hn).update_nodup]

theorem nodup (h : Within d c) (hn : c.ids.Nodup) : d.ids.Nodup := by
  induction h with
  | here => exact hn
  | element _ ih => exact ih (element_nodup hn)
  | case _ ih => exact ih (case_nodup hn)
  | start _ ih => exact ih (apart_of_nodup hn).start_nodup
  | body _ ih => exact ih (apart_of_nodup hn).body_nodup
  | update _ ih => exact ih (apart_of_nodup hn).update_nodup

theorem unique (hd : Within d c) (he : Within e c) (hn : c.ids.Nodup) (hid : d.id = e.id) :
    d = e := by
  have h := hd.find? hn
  rw [hid, he.find? hn, Option.some.injEq] at h
  exact h.symm

theorem modify_inside (h : Within d c) (hn : c.ids.Nodup) {t : NodeId} (ht : t ∈ d.ids) :
    c.modify t g = c.modify d.id fun _ => d.modify t g := by
  induction h with
  | here => rw [modify_self]
  | element h ih =>
    rw [modify_element hn fun _ => h.mem_ids ht, ih (element_nodup hn),
      modify_element hn fun _ => h.mem_ids (id_mem_ids d)]
  | case h ih =>
    rw [modify_case hn fun _ => h.mem_ids ht, ih (case_nodup hn),
      modify_case hn fun _ => h.mem_ids (id_mem_ids d)]
  | start h ih =>
    rw [modify_start hn fun _ => h.mem_ids ht, ih (apart_of_nodup hn).start_nodup,
      modify_start hn fun _ => h.mem_ids (id_mem_ids d)]
  | body h ih =>
    rw [modify_body hn fun _ => h.mem_ids ht, ih (apart_of_nodup hn).body_nodup,
      modify_body hn fun _ => h.mem_ids (id_mem_ids d)]
  | update h ih =>
    rw [modify_update hn fun _ => h.mem_ids ht, ih (apart_of_nodup hn).update_nodup,
      modify_update hn fun _ => h.mem_ids (id_mem_ids d)]

/-- What has been put in the place of a part can be changed again. -/
theorem modify_modify (h : Within d c) (hn : c.ids.Nodup) (hy : y.id ∈ c.ids → y.id ∈ d.ids) :
    (c.modify d.id fun _ => y).modify y.id g = c.modify d.id fun _ => g y := by
  induction h with
  | here => rw [modify_self, modify_self, modify_self]
  | element h ih =>
    rw [modify_element hn fun _ => h.mem_ids (id_mem_ids d),
      modify_element hn fun hm => h.mem_ids (hy hm),
      ih (element_nodup hn) fun hm => hy (Within.mem_ids (.element .here) hm),
      modify_element hn fun _ => h.mem_ids (id_mem_ids d)]
  | case h ih =>
    rw [modify_case hn fun _ => h.mem_ids (id_mem_ids d),
      modify_case hn fun hm => h.mem_ids (hy hm),
      ih (case_nodup hn) fun hm => hy (Within.mem_ids (.case .here) hm),
      modify_case hn fun _ => h.mem_ids (id_mem_ids d)]
  | start h ih =>
    rw [modify_start hn fun _ => h.mem_ids (id_mem_ids d),
      modify_start hn fun hm => h.mem_ids (hy hm),
      ih (apart_of_nodup hn).start_nodup fun hm => hy (Within.mem_ids (.start .here) hm),
      modify_start hn fun _ => h.mem_ids (id_mem_ids d)]
  | body h ih =>
    rw [modify_body hn fun _ => h.mem_ids (id_mem_ids d),
      modify_body hn fun hm => h.mem_ids (hy hm),
      ih (apart_of_nodup hn).body_nodup fun hm => hy (Within.mem_ids (.body .here) hm),
      modify_body hn fun _ => h.mem_ids (id_mem_ids d)]
  | update h ih =>
    rw [modify_update hn fun _ => h.mem_ids (id_mem_ids d),
      modify_update hn fun hm => h.mem_ids (hy hm),
      ih (apart_of_nodup hn).update_nodup fun hm => hy (Within.mem_ids (.update .here) hm),
      modify_update hn fun _ => h.mem_ids (id_mem_ids d)]

theorem find?_modify (h : Within d c) (hn : c.ids.Nodup) (hy : y.id ∈ c.ids → y.id ∈ d.ids) :
    (c.modify d.id fun _ => y).find? y.id = some y := by
  induction h with
  | here => rw [modify_self, find?_self]
  | element h ih =>
    rw [modify_element hn fun _ => h.mem_ids (id_mem_ids d),
      find?_element hn fun hm => h.mem_ids (hy hm),
      ih (element_nodup hn) fun hm => hy (Within.mem_ids (.element .here) hm)]
  | case h ih =>
    rw [modify_case hn fun _ => h.mem_ids (id_mem_ids d),
      find?_case hn fun hm => h.mem_ids (hy hm),
      ih (case_nodup hn) fun hm => hy (Within.mem_ids (.case .here) hm)]
  | start h ih =>
    rw [modify_start hn fun _ => h.mem_ids (id_mem_ids d),
      find?_start hn fun hm => h.mem_ids (hy hm),
      ih (apart_of_nodup hn).start_nodup fun hm => hy (Within.mem_ids (.start .here) hm)]
  | body h ih =>
    rw [modify_body hn fun _ => h.mem_ids (id_mem_ids d),
      find?_body hn fun hm => h.mem_ids (hy hm),
      ih (apart_of_nodup hn).body_nodup fun hm => hy (Within.mem_ids (.body .here) hm)]
  | update h ih =>
    rw [modify_update hn fun _ => h.mem_ids (id_mem_ids d),
      find?_update hn fun hm => h.mem_ids (hy hm),
      ih (apart_of_nodup hn).update_nodup fun hm => hy (Within.mem_ids (.update .here) hm)]

/-- A part that is put in its own place leaves the tree as it is. -/
theorem modify_same (h : Within d c) (hn : c.ids.Nodup) : (c.modify d.id fun _ => d) = c := by
  induction h with
  | here => rw [modify_self]
  | element h ih =>
    rw [modify_element hn fun _ => h.mem_ids (id_mem_ids d), ih (element_nodup hn)]
  | case h ih =>
    rw [modify_case hn fun _ => h.mem_ids (id_mem_ids d), ih (case_nodup hn)]
  | start h ih =>
    rw [modify_start hn fun _ => h.mem_ids (id_mem_ids d), ih (apart_of_nodup hn).start_nodup]
  | body h ih =>
    rw [modify_body hn fun _ => h.mem_ids (id_mem_ids d), ih (apart_of_nodup hn).body_nodup]
  | update h ih =>
    rw [modify_update hn fun _ => h.mem_ids (id_mem_ids d), ih (apart_of_nodup hn).update_nodup]

end Within

mutual
/-- Under the number of a block nothing but the block is found. -/
theorem find?_block {b : NodeId} : (c : Component) → c.ids.Nodup → b ∈ c.blocks →
    c.find? b = some (.block b)
  | .block i => by
    intro _ hb
    rw [blocks, List.mem_singleton] at hb
    rw [find?, if_pos hb.symm, hb]
  | .seq i elements => by
    intro hn hb
    rw [ids, List.nodup_cons] at hn
    have hi : i ≠ b := fun h => hn.1 (h ▸ mem_idsAll_of_mem_blocksAll hb)
    rw [find?, if_neg hi, findAll?_block elements hn.2 hb]
  | .fork i cond cases => by
    intro hn hb
    simp only [ids, List.nodup_cons, List.mem_cons, not_or] at hn
    rw [blocks, List.mem_cons] at hb
    by_cases hc : cond = b
    · subst hc
      rw [find?, if_neg hn.1.1, if_pos rfl]
    · have hm := hb.resolve_left (Ne.symm hc)
      have hi : i ≠ b := fun h => hn.1.2 (h ▸ mem_idsAll_of_mem_blocksAll hm)
      rw [find?, if_neg hi, if_neg hc, findAll?_block cases hn.2.2 hm]
  | .loop i start cond body update after => by
    intro hn hb
    have ha := apart_of_nodup hn
    have hid : i ≠ b := by
      rintro rfl
      rw [ids, List.cons_append, List.cons_append, List.cons_append, List.nodup_cons] at hn
      refine hn.1 ?_
      simp only [blocks, List.mem_append, List.mem_cons, List.not_mem_nil, or_false] at hb ⊢
      exact hb.imp_left (Or.imp (Or.imp mem_ids_of_mem_blocks (Or.imp_right mem_ids_of_mem_blocks))
        mem_ids_of_mem_blocks)
    rw [find?, if_neg hid]
    by_cases hc : cond = b
    · rw [if_pos hc, hc]
    rw [if_neg hc]
    by_cases haf : after = b
    · rw [if_pos haf, haf]
    rw [if_neg haf]
    simp only [blocks, List.mem_append, List.mem_cons, List.not_mem_nil, or_false] at hb
    rcases hb with ((hb | hb | hb) | hb) | hb
    · rw [find?_block start ha.start_nodup hb]
      rfl
    · exact absurd hb.symm hc
    · have hm := mem_ids_of_mem_blocks hb
      rw [find?_of_not_mem start fun h => ha.start_body _ h hm,
        find?_block body ha.body_nodup hb]
      rfl
    · have hm := mem_ids_of_mem_blocks hb
      rw [find?_of_not_mem start fun h => ha.start_update _ h hm,
        find?_of_not_mem body fun h => ha.body_update _ h hm, find?_block update ha.update_nodup hb]
      rfl
    · exact absurd hb.symm haf

theorem findAll?_block {b : NodeId} : (cs : List Component) → (idsAll cs).Nodup →
    b ∈ blocksAll cs → findAll? b cs = some (.block b)
  | [] => by simp [blocksAll]
  | c :: cs => by
    intro hn hb
    rw [idsAll, List.nodup_append] at hn
    obtain ⟨hc, hcs, hd⟩ := hn
    rw [blocksAll, List.mem_append] at hb
    rw [findAll?]
    rcases hb with hb | hb
    · rw [find?_block c hc hb]
      rfl
    · have hm := mem_idsAll_of_mem_blocksAll hb
      rw [find?_of_not_mem c fun h => hd _ h _ hm rfl, findAll?_block cs hcs hb]
      rfl
end

/-! ## Parents -/

def Plays (t : NodeId) : Role → Component → Prop
  | .element i, .seq _ elements => ∃ d, elements[i]? = some d ∧ d.id = t
  | .condition, .fork _ cond _ => cond = t
  | .case i, .fork _ _ cases => ∃ d, cases[i]? = some d ∧ d.id = t
  | .start, .loop _ start _ _ _ _ => start.id = t
  | .loopCondition, .loop _ _ cond _ _ _ => cond = t
  | .body, .loop _ _ _ body _ _ => body.id = t
  | .update, .loop _ _ _ _ update _ => update.id = t
  | .after, .loop _ _ _ _ _ after => after = t
  | _, _ => False

theorem pathElements_ne_nil {t parent : NodeId} : (cs : List Component) → (index : Nat) →
    pathElements t parent index cs ≠ some []
  | [], _ => by simp [pathElements]
  | c :: cs, index => by
    rw [pathElements, Ne, Option.or_eq_some_iff]
    rintro (h | ⟨_, h⟩)
    · obtain ⟨l, _, hl⟩ := Option.map_eq_some_iff.mp h
      simp at hl
    · exact pathElements_ne_nil cs (index + 1) h

theorem pathCases_ne_nil {t parent : NodeId} : (cs : List Component) → (index : Nat) →
    pathCases t parent index cs ≠ some []
  | [], _ => by simp [pathCases]
  | c :: cs, index => by
    rw [pathCases, Ne, Option.or_eq_some_iff]
    rintro (h | ⟨_, h⟩)
    · obtain ⟨l, _, hl⟩ := Option.map_eq_some_iff.mp h
      simp at hl
    · exact pathCases_ne_nil cs (index + 1) h

theorem id_of_pathIn_nil {t : NodeId} {c : Component} (h : c.pathIn t = some []) : c.id = t := by
  cases c with
  | block i =>
    rw [pathIn] at h
    split at h
    · assumption
    · cases h
  | seq i elements =>
    rw [pathIn] at h
    split at h
    · assumption
    · exact absurd h (pathElements_ne_nil elements 0)
  | fork i cond cases =>
    rw [pathIn] at h
    split at h
    · assumption
    · split at h
      · cases h
      · exact absurd h (pathCases_ne_nil cases 0)
  | loop i start cond body update after =>
    rw [pathIn] at h
    split at h
    · assumption
    · split at h
      · cases h
      · split at h
        · cases h
        · simp [Option.or_eq_some_iff] at h

mutual
theorem pathIn_isSome {t : NodeId} : (c : Component) → t ∈ c.ids → (c.pathIn t).isSome = true
  | .block i => by
    intro h
    rw [ids, List.mem_singleton] at h
    simp [pathIn, h]
  | .seq i elements => by
    intro h
    rw [ids, List.mem_cons] at h
    rw [pathIn]
    split
    · rfl
    · next hi => exact pathElements_isSome elements 0 (h.resolve_left (Ne.symm hi))
  | .fork i cond cases => by
    intro h
    rw [ids, List.mem_cons, List.mem_cons] at h
    rw [pathIn]
    split
    · rfl
    · next hi =>
      split
      · rfl
      · next hc =>
        exact pathCases_isSome cases 0 ((h.resolve_left (Ne.symm hi)).resolve_left (Ne.symm hc))
  | .loop i start cond body update after => by
    intro h
    rw [pathIn]
    split
    · rfl
    · next hi =>
      split
      · rfl
      · next hc =>
        split
        · rfl
        · next ha =>
          simp only [ids, List.cons_append, List.mem_cons, List.mem_append, List.not_mem_nil,
            or_false, Ne.symm hi, Ne.symm hc, Ne.symm ha, false_or] at h
          simp only [Option.isSome_or, Option.isSome_map, Bool.or_eq_true]
          rcases h with (h | h) | h
          · exact .inl (pathIn_isSome start h)
          · exact .inr (.inl (pathIn_isSome body h))
          · exact .inr (.inr (pathIn_isSome update h))

theorem pathElements_isSome {t parent : NodeId} : (cs : List Component) → (index : Nat) →
    t ∈ idsAll cs → (pathElements t parent index cs).isSome = true
  | [], _ => by simp [idsAll]
  | c :: cs, index => by
    intro h
    rw [idsAll, List.mem_append] at h
    rw [pathElements, Option.isSome_or, Option.isSome_map, Bool.or_eq_true]
    exact h.imp (pathIn_isSome c) (pathElements_isSome cs (index + 1))

theorem pathCases_isSome {t parent : NodeId} : (cs : List Component) → (index : Nat) →
    t ∈ idsAll cs → (pathCases t parent index cs).isSome = true
  | [], _ => by simp [idsAll]
  | c :: cs, index => by
    intro h
    rw [idsAll, List.mem_append] at h
    rw [pathCases, Option.isSome_or, Option.isSome_map, Bool.or_eq_true]
    exact h.imp (pathIn_isSome c) (pathCases_isSome cs (index + 1))
end

/-- Every component but the tree itself has a structure around it. -/
theorem pathIn_of_mem {t : NodeId} (c : Component) (h : t ∈ c.ids) :
    ∃ l, c.pathIn t = some l ∧ (l = [] → c.id = t) := by
  obtain ⟨l, hl⟩ := Option.isSome_iff_exists.mp (pathIn_isSome c h)
  exact ⟨l, hl, fun hnil => id_of_pathIn_nil (hnil ▸ hl)⟩

/-- A path that is carried on by a parent starts in the part or is the parent alone. -/
theorem path_snoc {t p parent : NodeId} {role r : Role} {rest : List (NodeId × Role)}
    {c : Component}
    (h : (c.pathIn t).map (· ++ [(parent, r)]) = some ((p, role) :: rest)) :
    (∃ rest', c.pathIn t = some ((p, role) :: rest')) ∨ (c.id = t ∧ p = parent ∧ role = r) := by
  obtain ⟨l, hl, he⟩ := Option.map_eq_some_iff.mp h
  cases l with
  | nil =>
    simp only [List.nil_append, List.cons.injEq, Prod.mk.injEq] at he
    exact Or.inr ⟨id_of_pathIn_nil hl, he.1.1.symm, he.1.2.symm⟩
  | cons x l =>
    simp only [List.cons_append, List.cons.injEq] at he
    exact Or.inl ⟨l, by rw [hl, he.1]⟩

mutual
/-- The first structure around a component is its parent. -/
theorem plays_of_pathIn {t p : NodeId} {role : Role} {rest : List (NodeId × Role)} :
    (c : Component) → c.pathIn t = some ((p, role) :: rest) →
      ∃ d, Within d c ∧ d.id = p ∧ d.Plays t role
  | .block i => by
    intro h
    rw [pathIn] at h
    split at h <;> cases h
  | .seq i elements => by
    intro h
    rw [pathIn] at h
    split at h
    · cases h
    · rcases plays_of_pathElements elements 0 h with ⟨c, hc, d, hd, hid, hp⟩ |
          ⟨rfl, k, d, hk, hd, rfl⟩
      · exact ⟨d, .of_mem_seq hc hd, hid, hp⟩
      · exact ⟨_, .here, rfl, by rw [Nat.zero_add]; exact ⟨d, hk, hd⟩⟩
  | .fork i cond cases => by
    intro h
    rw [pathIn] at h
    split at h
    · cases h
    · split at h
      · next hc =>
        cases h
        exact ⟨_, .here, rfl, hc⟩
      · rcases plays_of_pathCases cases 0 h with ⟨c, hc, d, hd, hid, hp⟩ | ⟨rfl, k, d, hk, hd, rfl⟩
        · exact ⟨d, .of_mem_fork hc hd, hid, hp⟩
        · exact ⟨_, .here, rfl, by rw [Nat.zero_add]; exact ⟨d, hk, hd⟩⟩
  | .loop i start cond body update after => by
    intro h
    rw [pathIn] at h
    split at h
    · cases h
    · split at h
      · next hc =>
        cases h
        exact ⟨_, .here, rfl, hc⟩
      · split at h
        · next ha =>
          cases h
          exact ⟨_, .here, rfl, ha⟩
        · rcases Option.or_eq_some_iff.mp h with h | ⟨_, h⟩
          · rcases path_snoc h with ⟨_, h⟩ | ⟨hid, rfl, rfl⟩
            · obtain ⟨d, hd, hp⟩ := plays_of_pathIn start h
              exact ⟨d, .start hd, hp⟩
            · exact ⟨_, .here, rfl, hid⟩
          · rcases Option.or_eq_some_iff.mp h with h | ⟨_, h⟩
            · rcases path_snoc h with ⟨_, h⟩ | ⟨hid, rfl, rfl⟩
              · obtain ⟨d, hd, hp⟩ := plays_of_pathIn body h
                exact ⟨d, .body hd, hp⟩
              · exact ⟨_, .here, rfl, hid⟩
            · rcases path_snoc h with ⟨_, h⟩ | ⟨hid, rfl, rfl⟩
              · obtain ⟨d, hd, hp⟩ := plays_of_pathIn update h
                exact ⟨d, .update hd, hp⟩
              · exact ⟨_, .here, rfl, hid⟩

theorem plays_of_pathElements {t p parent : NodeId} {role : Role} {rest : List (NodeId × Role)} :
    (cs : List Component) → (index : Nat) →
      pathElements t parent index cs = some ((p, role) :: rest) →
      (∃ c ∈ cs, ∃ d, Within d c ∧ d.id = p ∧ d.Plays t role) ∨
        (p = parent ∧ ∃ k d, cs[k]? = some d ∧ d.id = t ∧ role = .element (index + k))
  | [], _ => by simp [pathElements]
  | c :: cs, index => by
    intro h
    rw [pathElements] at h
    rcases Option.or_eq_some_iff.mp h with h | ⟨_, h⟩
    · rcases path_snoc h with ⟨_, h⟩ | ⟨hid, rfl, rfl⟩
      · exact Or.inl ⟨c, List.mem_cons_self, plays_of_pathIn c h⟩
      · exact Or.inr ⟨rfl, 0, c, rfl, hid, rfl⟩
    · rcases plays_of_pathElements cs (index + 1) h with ⟨c', hc, hd⟩ | ⟨hp, k, d, hk, hd, hr⟩
      · exact Or.inl ⟨c', List.mem_cons_of_mem _ hc, hd⟩
      · exact Or.inr ⟨hp, k + 1, d, hk, hd, by rw [hr, Nat.add_right_comm, Nat.add_assoc]⟩

theorem plays_of_pathCases {t p parent : NodeId} {role : Role} {rest : List (NodeId × Role)} :
    (cs : List Component) → (index : Nat) →
      pathCases t parent index cs = some ((p, role) :: rest) →
      (∃ c ∈ cs, ∃ d, Within d c ∧ d.id = p ∧ d.Plays t role) ∨
        (p = parent ∧ ∃ k d, cs[k]? = some d ∧ d.id = t ∧ role = .case (index + k))
  | [], _ => by simp [pathCases]
  | c :: cs, index => by
    intro h
    rw [pathCases] at h
    rcases Option.or_eq_some_iff.mp h with h | ⟨_, h⟩
    · rcases path_snoc h with ⟨_, h⟩ | ⟨hid, rfl, rfl⟩
      · exact Or.inl ⟨c, List.mem_cons_self, plays_of_pathIn c h⟩
      · exact Or.inr ⟨rfl, 0, c, rfl, hid, rfl⟩
    · rcases plays_of_pathCases cs (index + 1) h with ⟨c', hc, hd⟩ | ⟨hp, k, d, hk, hd, hr⟩
      · exact Or.inl ⟨c', List.mem_cons_of_mem _ hc, hd⟩
      · exact Or.inr ⟨hp, k + 1, d, hk, hd, by rw [hr, Nat.add_right_comm, Nat.add_assoc]⟩
end

theorem pathIn_self (c : Component) : c.pathIn c.id = some [] := by
  cases c <;> rw [pathIn, Component.id, if_pos rfl]

mutual
/-- A change that keeps the number of a component keeps the way to it. -/
theorem pathIn_modify {t : NodeId} {g : Component → Component} (hg : ∀ d, (g d).id = d.id) :
    (c : Component) → (c.modify t g).pathIn t = c.pathIn t
  | .block i => by
    rw [modify]
    split
    · next hi =>
      subst hi
      have h := pathIn_self (g (.block i))
      rw [hg, Component.id] at h
      rw [h, pathIn, if_pos rfl]
    · rfl
  | .seq i elements => by
    rw [modify]
    split
    · next hi =>
      subst hi
      have h := pathIn_self (g (.seq i elements))
      rw [hg, Component.id] at h
      rw [h, pathIn, if_pos rfl]
    · rw [pathIn, pathIn, pathElements_modify hg elements]
  | .fork i cond cases => by
    rw [modify]
    split
    · next hi =>
      subst hi
      have h := pathIn_self (g (.fork i cond cases))
      rw [hg, Component.id] at h
      rw [h, pathIn, if_pos rfl]
    · rw [pathIn, pathIn, pathCases_modify hg cases]
  | .loop i start cond body update after => by
    rw [modify]
    split
    · next hi =>
      subst hi
      have h := pathIn_self (g (.loop i start cond body update after))
      rw [hg, Component.id] at h
      rw [h, pathIn, if_pos rfl]
    · rw [pathIn, pathIn, pathIn_modify hg start, pathIn_modify hg body, pathIn_modify hg update]

theorem pathElements_modify {t parent : NodeId} {g : Component → Component} {index : Nat}
    (hg : ∀ d, (g d).id = d.id) : (cs : List Component) →
      pathElements t parent index (modifyAll t g cs) = pathElements t parent index cs
  | [] => rfl
  | c :: cs => by
    rw [modifyAll, pathElements, pathElements, pathIn_modify hg c, pathElements_modify hg cs]

theorem pathCases_modify {t parent : NodeId} {g : Component → Component} {index : Nat}
    (hg : ∀ d, (g d).id = d.id) : (cs : List Component) →
      pathCases t parent index (modifyAll t g cs) = pathCases t parent index cs
  | [] => rfl
  | c :: cs => by
    rw [modifyAll, pathCases, pathCases, pathIn_modify hg c, pathCases_modify hg cs]
end

end DefFlow.Flow.Component
