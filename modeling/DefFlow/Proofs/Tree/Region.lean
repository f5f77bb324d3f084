import DefFlow.Proofs.Tree.Order
import DefFlow.Proofs.Tree.Place
import DefFlow.Flow.Func

/-!
# Parts of a tree as regions

Control comes into a part of a tree at its entry only and goes out of it at its leaves only.
Where it comes from and where it goes to is what the two walks answer for the part. Main
statements: the predecessors and the successors of blocks are two views of the same edges, and
the edges across the border of a component are those between its predecessors and its entry
and between its leaves and its successors.
-/

set_option autoImplicit false

namespace DefFlow.Flow.Component

section

variable {t i cond after p s : NodeId} {d e start body update : Component} {l r : List Component}

theorem mem_blocks_of_within (h : Within d e) {b : NodeId} (hb : b ∈ d.blocks) : b ∈ e.blocks := by
  induction h with
  | here => exact hb
  | element _ ih | case _ ih =>
    simp only [blocks, mem_blocksAll, List.mem_append, List.mem_cons]
    first
      | exact ⟨_, .inr (.inl rfl), ih⟩
      | exact .inr ⟨_, .inr (.inl rfl), ih⟩
  | start _ ih | body _ ih | update _ ih => simp [blocks, ih]

theorem mem_ids_of_within (h : Within d e) : d.id ∈ e.ids := by
  induction h with
  | here => exact id_mem_ids d
  | element _ ih | case _ ih =>
    simp only [ids, idsAll_append, idsAll, List.mem_cons, List.mem_append]
    grind
  | start _ ih | body _ ih | update _ ih => simp [ids, ih]

/-! ## Where control comes from -/

/-- Among the elements of a sequence only one holds the component that is looked for. -/
theorem predsElements_part (hn : (idsAll (l ++ e :: r)).Nodup) (ht : t ∈ e.ids)
    (preds : List NodeId) : ∃ k, predsElements t preds (l ++ e :: r) = e.predsIn t k ∧
      ∀ p s, s ∈ e.blocks → ((EdgeElements p s (l ++ e :: r) ∨
        (p ∈ preds ∧ entryAll (l ++ e :: r) = some s)) ↔ e.Comes k p s) := by
  induction l generalizing preds with
  | nil =>
    rw [List.nil_append, idsAll, List.nodup_append] at hn
    obtain ⟨-, -, hd⟩ := hn
    refine ⟨preds, ?_, fun p s hs => ?_⟩
    · rw [List.nil_append, predsElements, predsElements_eq_none r _ fun h => hd t ht t h rfl,
        Option.or_none]
    · have hr : s ∉ blocksAll r := fun h =>
        hd s (mem_ids_of_mem_blocks hs) s (mem_idsAll_of_mem_blocksAll h) rfl
      exact comes_head hr
  | cons c l ih =>
    rw [List.cons_append, idsAll, List.nodup_append] at hn
    obtain ⟨-, hcs, hd⟩ := hn
    have hin : ∀ x ∈ e.ids, x ∈ idsAll (l ++ e :: r) := fun x hx => by
      rw [idsAll_append, idsAll]
      simp [hx]
    obtain ⟨k, hk, hcomes⟩ := ih hcs (c.exits preds)
    refine ⟨k, ?_, fun p s hs => ?_⟩
    · rw [List.cons_append, predsElements, predsIn_eq_none c preds fun h => hd t h t (hin t ht) rfl,
        Option.none_or, hk]
    · have hc : s ∉ c.blocks := fun h =>
        hd s (mem_ids_of_mem_blocks h) s (hin s (mem_ids_of_mem_blocks hs)) rfl
      rw [← hcomes p s hs, List.cons_append]
      exact comes_tail hc

theorem predsCases_part (hn : (idsAll (l ++ e :: r)).Nodup) (ht : t ∈ e.ids)
    (preds : List NodeId) : predsCases t preds (l ++ e :: r) = e.predsIn t preds := by
  induction l with
  | nil =>
    rw [List.nil_append, idsAll, List.nodup_append] at hn
    rw [List.nil_append, predsCases, predsCases_eq_none r _ fun h => hn.2.2 t ht t h rfl,
      Option.or_none]
  | cons c l ih =>
    rw [List.cons_append, idsAll, List.nodup_append] at hn
    have hin : t ∈ idsAll (l ++ e :: r) := by
      rw [idsAll_append, idsAll]
      simp [ht]
    rw [List.cons_append, predsCases, predsIn_eq_none c preds fun h => hn.2.2 t h t hin rfl,
      Option.none_or, ih hn.2.1]

theorem exists_case_iff {P : Component → Prop} (hn : (idsAll (l ++ e :: r)).Nodup) {b : NodeId}
    (hb : b ∈ e.blocks) (hP : ∀ c, P c → b ∈ c.blocks) : (∃ c ∈ l ++ e :: r, P c) ↔ P e := by
  refine ⟨?_, fun h => ⟨e, by simp, h⟩⟩
  rintro ⟨c, hc, h⟩
  have hbe := mem_ids_of_mem_blocks hb
  rw [List.mem_append, List.mem_cons] at hc
  rcases hc with hc | rfl | hc
  · have hm : b ∈ blocksAll l := mem_blocksAll.mpr ⟨c, hc, hP c h⟩
    exact absurd (mem_idsAll_of_mem_blocksAll hm) (beside_of_nodup hn hbe).1
  · exact h
  · have hm : b ∈ blocksAll r := mem_blocksAll.mpr ⟨c, hc, hP c h⟩
    exact absurd (mem_idsAll_of_mem_blocksAll hm) (beside_of_nodup hn hbe).2

/-- What the walk upward answers for a part of a tree is where control comes into the part. -/
theorem predsIn_part {c : Component} (h : Within d c) (hn : c.ids.Nodup) (preds : List NodeId) :
    ∃ k, c.predsIn d.id preds = some k ∧
      ∀ p s, s ∈ d.blocks → (c.Comes preds p s ↔ d.Comes k p s) := by
  induction h generalizing preds with
  | here =>
    refine ⟨preds, ?_, fun p s _ => Iff.rfl⟩
    cases d <;> simp [predsIn, Component.id]
  | @element i l r e h ih =>
    have ht := mem_ids_of_within h
    obtain ⟨hi, -, -⟩ := beside_element hn fun _ => ht
    rw [ids, List.nodup_cons] at hn
    obtain ⟨k, hk, hcomes⟩ := predsElements_part hn.2 ht preds
    obtain ⟨k', hk', hcomes'⟩ := ih (element_nodup (i := i) (by rwa [ids, List.nodup_cons])) k
    refine ⟨k', by rw [predsIn, if_neg hi, hk, hk'], fun p s hs => ?_⟩
    rw [← hcomes' p s hs, ← hcomes p s (mem_blocks_of_within h hs), Comes, Edge, entry]
  | @case i cond l r e h ih =>
    have ht := mem_ids_of_within h
    obtain ⟨hi, hcond, -, -⟩ := beside_case hn fun _ => ht
    obtain ⟨k, hk, hcomes⟩ := ih (case_nodup hn) [cond]
    simp only [ids, List.nodup_cons, List.mem_cons, not_or] at hn
    refine ⟨k, by simp [predsIn, hi, hcond, predsCases_part hn.2.2 ht, hk], fun p s hs => ?_⟩
    have hse := mem_blocks_of_within h hs
    have hne : cond ≠ s := fun hc => hn.2.1 (by
      rw [hc, idsAll_append, idsAll]
      simp [mem_ids_of_mem_blocks hse])
    rw [← hcomes p s hs, Comes, Edge, entry, edgeCases_iff,
      exists_case_iff hn.2.2 hse fun c hc => (Edge.mem c hc).2,
      exists_case_iff hn.2.2 hse fun c hc => mem_blocks_of_entry hc]
    simp [Comes, hne]
  | @start i cond after start body update h ih =>
    have ha := apart_of_nodup hn
    obtain ⟨hi, hcond, hafter, -, -⟩ := beside_start hn fun _ => mem_ids_of_within h
    obtain ⟨k, hk, hcomes⟩ := ih ha.start_nodup preds
    refine ⟨k, by simp [predsIn, hi, hcond, hafter, hk], fun p s hs => ?_⟩
    rw [← hcomes p s hs, ha.comes_start preds (mem_blocks_of_within h hs)]
  | @body i cond after start body update h ih =>
    have ha := apart_of_nodup hn
    obtain ⟨hi, hcond, hafter, hst, -⟩ := beside_body hn fun _ => mem_ids_of_within h
    obtain ⟨k, hk, hcomes⟩ := ih ha.body_nodup [cond]
    refine ⟨k, by simp [predsIn, hi, hcond, hafter, predsIn_eq_none start preds hst, hk],
      fun p s hs => ?_⟩
    rw [← hcomes p s hs, ha.comes_body preds (mem_blocks_of_within h hs)]
  | @update i cond after start body update h ih =>
    have ha := apart_of_nodup hn
    obtain ⟨hi, hcond, hafter, hst, hbo⟩ := beside_update hn fun _ => mem_ids_of_within h
    obtain ⟨k, hk, hcomes⟩ := ih ha.update_nodup (body.exits [cond])
    refine ⟨k, by simp [predsIn, hi, hcond, hafter, predsIn_eq_none start preds hst,
      predsIn_eq_none body [cond] hbo, hk], fun p s hs => ?_⟩
    rw [← hcomes p s hs, ha.comes_update preds (mem_blocks_of_within h hs)]

/-! ## Where control goes to -/

theorem succsElements_part (hn : (idsAll (l ++ e :: r)).Nodup) (ht : t ∈ e.ids)
    (succs : List NodeId) :
    succsElements t succs (l ++ e :: r) = e.succsIn t (enterAll r succs) ∧
      ∀ p s, p ∈ e.blocks → ((EdgeElements p s (l ++ e :: r) ∨
        (p ∈ leavesLast (l ++ e :: r) ∧ s ∈ succs)) ↔ e.Goes (enterAll r succs) p s) := by
  induction l with
  | nil =>
    rw [List.nil_append, idsAll, List.nodup_append] at hn
    obtain ⟨-, -, hd⟩ := hn
    refine ⟨?_, fun p s hp => ?_⟩
    · rw [List.nil_append, succsElements, succsElements_eq_none r _ fun h => hd t ht t h rfl,
        Option.or_none]
    · have hr : p ∉ blocksAll r := fun h =>
        hd p (mem_ids_of_mem_blocks hp) p (mem_idsAll_of_mem_blocksAll h) rfl
      exact goes_head hr
  | cons c l ih =>
    rw [List.cons_append, idsAll, List.nodup_append] at hn
    obtain ⟨-, hcs, hd⟩ := hn
    have hin : ∀ x ∈ e.ids, x ∈ idsAll (l ++ e :: r) := fun x hx => by
      rw [idsAll_append, idsAll]
      simp [hx]
    obtain ⟨hk, hgoes⟩ := ih hcs
    refine ⟨?_, fun p s hp => ?_⟩
    · rw [List.cons_append, succsElements, succsIn_eq_none c _ fun h => hd t h t (hin t ht) rfl,
        Option.none_or, hk]
    · have hc : p ∉ c.blocks := fun h =>
        hd p (mem_ids_of_mem_blocks h) p (hin p (mem_ids_of_mem_blocks hp)) rfl
      rw [← hgoes p s hp, List.cons_append]
      exact goes_tail hc

theorem succsCases_part (hn : (idsAll (l ++ e :: r)).Nodup) (ht : t ∈ e.ids)
    (succs : List NodeId) : succsCases t succs (l ++ e :: r) = e.succsIn t succs := by
  induction l with
  | nil =>
    rw [List.nil_append, idsAll, List.nodup_append] at hn
    rw [List.nil_append, succsCases, succsCases_eq_none r _ fun h => hn.2.2 t ht t h rfl,
      Option.or_none]
  | cons c l ih =>
    rw [List.cons_append, idsAll, List.nodup_append] at hn
    have hin : t ∈ idsAll (l ++ e :: r) := by
      rw [idsAll_append, idsAll]
      simp [ht]
    rw [List.cons_append, succsCases, succsIn_eq_none c succs fun h => hn.2.2 t h t hin rfl,
      Option.none_or, ih hn.2.1]

/-- What the walk downward answers for a part of a tree is where control goes from the part. -/
theorem succsIn_part {c : Component} (h : Within d c) (hn : c.ids.Nodup) (succs : List NodeId) :
    ∃ k, c.succsIn d.id succs = some k ∧
      ∀ p s, p ∈ d.blocks → (c.Goes succs p s ↔ d.Goes k p s) := by
  induction h generalizing succs with
  | here =>
    refine ⟨succs, ?_, fun p s _ => Iff.rfl⟩
    cases d <;> simp [succsIn, Component.id]
  | @element i l r e h ih =>
    have ht := mem_ids_of_within h
    obtain ⟨hi, -, -⟩ := beside_element hn fun _ => ht
    obtain ⟨k, hk, hgoes⟩ := ih (element_nodup hn) (enterAll r succs)
    rw [ids, List.nodup_cons] at hn
    obtain ⟨hk', hgoes'⟩ := succsElements_part hn.2 ht succs
    refine ⟨k, by rw [succsIn, if_neg hi, hk', hk], fun p s hp => ?_⟩
    rw [← hgoes p s hp, ← hgoes' p s (mem_blocks_of_within h hp), Goes, Edge, leaves]
  | @case i cond l r e h ih =>
    have ht := mem_ids_of_within h
    obtain ⟨hi, hcond, -, -⟩ := beside_case hn fun _ => ht
    obtain ⟨k, hk, hgoes⟩ := ih (case_nodup hn) succs
    simp only [ids, List.nodup_cons, List.mem_cons, not_or] at hn
    refine ⟨k, by simp [succsIn, hi, hcond, succsCases_part hn.2.2 ht, hk], fun p s hp => ?_⟩
    have hpe := mem_blocks_of_within h hp
    have hne : p ≠ cond := fun hc => hn.2.1 (by
      rw [← hc, idsAll_append, idsAll]
      simp [mem_ids_of_mem_blocks hpe])
    rw [← hgoes p s hp, Goes, Edge, leaves, List.mem_eraseDups, mem_leavesCases, edgeCases_iff,
      exists_case_iff hn.2.2 hpe fun c hc => (Edge.mem c hc).1,
      exists_case_iff hn.2.2 hpe fun c hc => mem_blocks_of_mem_leaves c hc]
    simp [Goes, hne]
  | @start i cond after start body update h ih =>
    have ha := apart_of_nodup hn
    obtain ⟨hi, hcond, hafter, -, -⟩ := beside_start hn fun _ => mem_ids_of_within h
    obtain ⟨k, hk, hgoes⟩ := ih ha.start_nodup [cond]
    refine ⟨k, by simp [succsIn, hi, hcond, hafter, hk], fun p s hp => ?_⟩
    rw [← hgoes p s hp, ha.goes_start (mem_blocks_of_within h hp)]
  | @body i cond after start body update h ih =>
    have ha := apart_of_nodup hn
    obtain ⟨hi, hcond, hafter, hst, -⟩ := beside_body hn fun _ => mem_ids_of_within h
    obtain ⟨k, hk, hgoes⟩ := ih ha.body_nodup (update.enter [cond])
    refine ⟨k, by simp [succsIn, hi, hcond, hafter, succsIn_eq_none start [cond] hst, hk],
      fun p s hp => ?_⟩
    rw [← hgoes p s hp, ha.goes_body (mem_blocks_of_within h hp)]
  | @update i cond after start body update h ih =>
    have ha := apart_of_nodup hn
    obtain ⟨hi, hcond, hafter, hst, hbo⟩ := beside_update hn fun _ => mem_ids_of_within h
    obtain ⟨k, hk, hgoes⟩ := ih ha.update_nodup [cond]
    refine ⟨k, by simp [succsIn, hi, hcond, hafter, succsIn_eq_none start [cond] hst,
      succsIn_eq_none body (update.enter [cond]) hbo, hk], fun p s hp => ?_⟩
    rw [← hgoes p s hp, ha.goes_update (mem_blocks_of_within h hp)]

end

/-! ## Parts and single blocks -/

mutual
/-- What is found under a number has that number, and its blocks are blocks of the tree. -/
theorem find?_sound {t : NodeId} {d : Component} : (c : Component) → c.find? t = some d →
    d.id = t ∧ d.blocks ⊆ c.blocks
  | .block i => by
    intro h
    rw [find?] at h
    split at h
    · next hi => exact Option.some.inj h ▸ ⟨hi, fun _ hb => hb⟩
    · cases h
  | .seq i elements => by
    intro h
    rw [find?] at h
    split at h
    · next hi => exact Option.some.inj h ▸ ⟨hi, fun _ hb => hb⟩
    · rw [blocks]
      exact findAll?_sound elements h
  | .fork i cond cases => by
    intro h
    rw [find?] at h
    rw [blocks]
    split at h
    · next hi =>
      rw [← Option.some.inj h, blocks]
      exact ⟨hi, fun _ hb => hb⟩
    · split at h
      · next hc => exact Option.some.inj h ▸ ⟨hc, by simp [blocks]⟩
      · obtain ⟨hid, hsub⟩ := findAll?_sound cases h
        exact ⟨hid, fun _ hb => List.mem_cons_of_mem _ (hsub hb)⟩
  | .loop i start cond body update after => by
    intro h
    rw [find?] at h
    split at h
    · next hi => exact Option.some.inj h ▸ ⟨hi, fun _ hb => hb⟩
    · split at h
      · next hc => exact Option.some.inj h ▸ ⟨hc, by simp [blocks]⟩
      · split at h
        · next ha => exact Option.some.inj h ▸ ⟨ha, by simp [blocks]⟩
        · rw [Option.or_eq_some_iff, Option.or_eq_some_iff] at h
          rcases h with h | ⟨-, h | ⟨-, h⟩⟩
          · obtain ⟨hid, hsub⟩ := find?_sound start h
            exact ⟨hid, fun _ hb => by simp [blocks, hsub hb]⟩
          · obtain ⟨hid, hsub⟩ := find?_sound body h
            exact ⟨hid, fun _ hb => by simp [blocks, hsub hb]⟩
          · obtain ⟨hid, hsub⟩ := find?_sound update h
            exact ⟨hid, fun _ hb => by simp [blocks, hsub hb]⟩

theorem findAll?_sound {t : NodeId} {d : Component} : (cs : List Component) →
    findAll? t cs = some d → d.id = t ∧ d.blocks ⊆ blocksAll cs
  | [] => by simp [findAll?]
  | c :: cs => by
    intro h
    rw [findAll?, Option.or_eq_some_iff] at h
    rcases h with h | ⟨-, h⟩
    · obtain ⟨hid, hsub⟩ := find?_sound c h
      exact ⟨hid, fun _ hb => by simp [blocksAll, hsub hb]⟩
    · obtain ⟨hid, hsub⟩ := findAll?_sound cs h
      exact ⟨hid, fun _ hb => by simp [blocksAll, hsub hb]⟩
end

mutual
theorem find?_isSome {t : NodeId} : (c : Component) → t ∈ c.ids → (c.find? t).isSome = true
  | .block i => by
    intro h
    rw [ids, List.mem_singleton] at h
    simp [find?, h]
  | .seq i elements => by
    intro h
    rw [ids, List.mem_cons] at h
    rw [find?]
    split
    · rfl
    · next hi => exact findAll?_isSome elements (h.resolve_left (Ne.symm hi))
  | .fork i cond cases => by
    intro h
    rw [ids, List.mem_cons, List.mem_cons] at h
    rw [find?]
    split
    · rfl
    · next hi =>
      split
      · rfl
      · next hc =>
        exact findAll?_isSome cases ((h.resolve_left (Ne.symm hi)).resolve_left (Ne.symm hc))
  | .loop i start cond body update after => by
    intro h
    rw [find?]
    split
    · rfl
    · next hi =>
      split
      · rfl
      · next hc =>
        split
        · rfl
        · next ha =>
          simp only [ids, List.cons_append, List.mem_cons, List.mem_append, List.not_mem_nil,
            or_false, Ne.symm hi, Ne.symm hc, Ne.symm ha, false_or] at h
          simp only [Option.isSome_or, Bool.or_eq_true]
          rcases h with (h | h) | h
          · exact .inl (find?_isSome start h)
          · exact .inr (.inl (find?_isSome body h))
          · exact .inr (.inr (find?_isSome update h))

theorem findAll?_isSome {t : NodeId} : (cs : List Component) → t ∈ idsAll cs →
    (findAll? t cs).isSome = true
  | [] => by simp [idsAll]
  | c :: cs => by
    intro h
    rw [idsAll, List.mem_append] at h
    rw [findAll?, Option.isSome_or, Bool.or_eq_true]
    exact h.imp (find?_isSome c) (findAll?_isSome cs)
end

variable {c d : Component} {t : NodeId}

/-- Control comes into whatever is found in a tree at its entry, from where the walk says. -/
theorem predsIn_found (hn : c.ids.Nodup) (hd : c.find? t = some d) (preds : List NodeId) :
    ∃ k, c.predsIn t preds = some k ∧ ∀ p s, p ∉ d.blocks → s ∈ d.blocks →
      (c.Comes preds p s ↔ p ∈ k ∧ d.entry = some s) := by
  obtain ⟨rfl, hsub⟩ := find?_sound c hd
  rcases within_of_find? c hd with ⟨b, rfl⟩ | ⟨hw, -⟩
  · have hb : b ∈ c.blocks := hsub (by simp [blocks])
    obtain ⟨k, hk, hmem⟩ := predsIn_answer c preds hn hb
    refine ⟨k, hk, fun p s _ hs => ?_⟩
    obtain rfl : s = b := by simpa [blocks] using hs
    rw [hmem, entry, Comes]
    exact ⟨fun h => ⟨h, rfl⟩, And.left⟩
  · obtain ⟨k, hk, hcomes⟩ := predsIn_part hw hn preds
    refine ⟨k, hk, fun p s hp hs => ?_⟩
    rw [hcomes p s hs, Comes, or_iff_right (not_goes hp s).1]

/-- Control goes out of whatever is found in a tree at its leaves, to where the walk says. -/
theorem succsIn_found (hn : c.ids.Nodup) (hd : c.find? t = some d) (succs : List NodeId) :
    ∃ k, c.succsIn t succs = some k ∧ ∀ p s, p ∈ d.blocks → s ∉ d.blocks →
      (c.Goes succs p s ↔ p ∈ d.leaves ∧ s ∈ k) := by
  obtain ⟨rfl, hsub⟩ := find?_sound c hd
  rcases within_of_find? c hd with ⟨b, rfl⟩ | ⟨hw, -⟩
  · have hb : b ∈ c.blocks := hsub (by simp [blocks])
    obtain ⟨k, hk, hmem⟩ := succsIn_answer c succs hn hb
    refine ⟨k, hk, fun p s hp _ => ?_⟩
    obtain rfl : p = b := by simpa [blocks] using hp
    rw [hmem, leaves, Goes, and_comm (a := s ∈ succs)]
    exact ⟨fun h => ⟨by simp, h⟩, And.right⟩
  · obtain ⟨k, hk, hgoes⟩ := succsIn_part hw hn succs
    refine ⟨k, hk, fun p s hp hs => ?_⟩
    rw [hgoes p s hp, Goes, or_iff_right (not_comes hs p).1]

end DefFlow.Flow.Component

namespace DefFlow.Flow.Func

open Component

variable {f : Func}

theorem preds_of_body {t : NodeId} {l : List NodeId} (h : f.body.predsIn t [] = some l) :
    f.preds t = l := by
  rw [preds, trees, List.findSome?_cons, h]
  rfl

theorem succs_of_body {t : NodeId} {l : List NodeId} (h : f.body.succsIn t [] = some l) :
    f.succs t = l := by
  rw [succs, trees, List.findSome?_cons, h]
  rfl

theorem contains_iff_mem {c : Component} {t : NodeId} : c.contains t = true ↔ t ∈ c.ids := by
  rw [Component.contains, List.contains_iff_mem]

theorem find?_trees {t : NodeId} (h : t ∈ f.body.ids) : f.find? t = f.body.find? t := by
  obtain ⟨c, hc⟩ := Option.isSome_iff_exists.mp (find?_isSome f.body h)
  rw [Func.find?, trees, findAll?, hc, Option.some_or]

/-- Both walks find the block they start at, neither answers with the same block twice, and each
sees an edge from its own end: the predecessors of a block are the blocks that it succeeds. -/
theorem preds_and_succs_agree (hn : f.body.ids.Nodup) {p b : NodeId} (hp : p ∈ f.blocks)
    (hb : b ∈ f.blocks) :
    f.body.predsIn b [] = some (f.preds b) ∧ f.body.succsIn p [] = some (f.succs p) ∧
      (f.preds b).Nodup ∧ (f.succs p).Nodup ∧ (p ∈ f.preds b ↔ b ∈ f.succs p) := by
  obtain ⟨l, hl, hpreds⟩ := predsIn_answer f.body [] hn hb
  obtain ⟨k, hk, hsuccs⟩ := succsIn_answer f.body [] hn hp
  rw [preds_of_body hl, succs_of_body hk, hpreds, hsuccs]
  refine ⟨hl, hk, predsIn_nodup f.body [] List.nodup_nil hl,
    succsIn_nodup f.body [] List.nodup_nil hk, ?_⟩
  simp

def loopAroundFork : Func := { Func.new 0 "f" with
  body := .seq 2 [.block 3, .loop 4 (.seq 5 []) 6 (.seq 7 [.fork 8 9 [.seq 10 [], .block 11]])
    (.seq 12 []) 13, .fork 14 15 []] }

/-- Through the empty case of the fork control comes back to the condition of the loop. -/
theorem preds_and_succs_agree_behind_empty_case :
    loopAroundFork.preds 6 = [3, 9, 11] ∧ loopAroundFork.succs 9 = [6, 11] ∧
      (9 ∈ loopAroundFork.preds 6 ↔ 6 ∈ loopAroundFork.succs 9) :=
  ⟨by decide, by decide, (preds_and_succs_agree (f := loopAroundFork) (p := 9) (b := 6)
    (by decide) (by decide) (by decide)).2.2.2.2⟩

/-- A component of the body that has a block is entered from its predecessors at its entry and
left through its leaves to its successors, and by no other edge. -/
theorem component_is_region (hn : f.body.ids.Nodup) {t : NodeId} {c : Component}
    (hin : f.attached t = true) (hc : f.find? t = some c) (hne : c.blocks ≠ []) :
    (∀ p ∈ f.blocks, ∀ s ∈ f.blocks, p ∉ c.blocks → s ∈ c.blocks →
      (s ∈ f.succs p ↔ p ∈ f.preds t ∧ c.entry = some s)) ∧
    (∀ p ∈ f.blocks, ∀ s ∈ f.blocks, p ∈ c.blocks → s ∉ c.blocks →
      (s ∈ f.succs p ↔ p ∈ c.leaves ∧ s ∈ f.succs t)) ∧
    c.leaves ≠ [] ∧ c.leaves.Nodup ∧ ∀ b ∈ c.leaves, b ∈ c.blocks := by
  have hbody : f.body.find? t = some c := by
    rw [attached, Bool.and_eq_true, contains_iff_mem] at hin
    exact (find?_trees hin.2).symm.trans hc
  obtain ⟨k, hk, hcomes⟩ := predsIn_found hn hbody []
  obtain ⟨m, hm, hgoes⟩ := succsIn_found hn hbody []
  have hedge : ∀ {p s : NodeId}, p ∈ f.blocks → (s ∈ f.succs p ↔ f.body.Edge p s) := by
    intro p s hp
    obtain ⟨l, hl, hmem⟩ := succsIn_answer f.body [] hn hp
    rw [succs_of_body hl, hmem]
    simp
  refine ⟨fun p hp s _ hpc hsc => ?_, fun p hp s _ hpc hsc => ?_,
    fun hl => hne ((leaves_eq_nil_iff c).mp hl), leaves_nodup c,
    fun b => mem_blocks_of_mem_leaves c⟩
  · rw [hedge hp, preds_of_body hk, ← hcomes p s hpc hsc, Comes]
    simp
  · rw [hedge hp, succs_of_body hm, ← hgoes p s hpc hsc, Goes]
    simp

/-- The fork is entered from the condition of the loop, and left to it from both of its leaves. -/
theorem component_is_region_of_fork :
    loopAroundFork.find? 8 = some (.fork 8 9 [.seq 10 [], .block 11]) ∧
      loopAroundFork.preds 8 = [6] ∧ loopAroundFork.succs 8 = [6] ∧
      (9 ∈ loopAroundFork.succs 6 ↔ 6 ∈ loopAroundFork.preds 8 ∧
        (Component.fork 8 9 [.seq 10 [], .block 11]).entry = some 9) := by
  have hfind : loopAroundFork.find? 8 = some (.fork 8 9 [.seq 10 [], .block 11]) := rfl
  refine ⟨hfind, by decide, by decide, ?_⟩
  exact (component_is_region (f := loopAroundFork) (by decide) (by decide) hfind
    (by decide)).1 6 (by decide) 9 (by decide) (by decide) (by decide)

end DefFlow.Flow.Func
