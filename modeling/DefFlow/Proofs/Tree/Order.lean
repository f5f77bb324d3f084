import DefFlow.Proofs.Lists
import DefFlow.Proofs.Tree.Edge

/-!
# The order of the blocks

An edge leads forward in the order of the blocks, or back to the condition of a
loop from within that loop. Every block but the entry is reached by an edge that
leads forward, and a loop is entered through its condition only.
-/

set_option autoImplicit false

namespace DefFlow.Flow.Component

def Before (l : List NodeId) (a b : NodeId) : Prop := [a, b].Sublist l

theorem before_left {l : List NodeId} (k : List NodeId) {a b : NodeId} (h : Before l a b) :
    Before (l ++ k) a b :=
  h.trans (List.sublist_append_left l k)

theorem before_right (l : List NodeId) {k : List NodeId} {a b : NodeId} (h : Before k a b) :
    Before (l ++ k) a b :=
  h.trans (List.sublist_append_right l k)

theorem before_across {l k : List NodeId} {a b : NodeId} (ha : a ∈ l) (hb : b ∈ k) :
    Before (l ++ k) a b :=
  (List.singleton_sublist.mpr ha).append (List.singleton_sublist.mpr hb)

theorem before_cons {l : List NodeId} (x : NodeId) {a b : NodeId} (h : Before l a b) :
    Before (x :: l) a b :=
  h.cons x

theorem before_head {l : List NodeId} {a b : NodeId} (h : b ∈ l) : Before (a :: l) a b :=
  (List.singleton_sublist.mpr h).cons_cons a

theorem idxOf_lt_of_before {l : List NodeId} {a b : NodeId} (hn : l.Nodup)
    (h : Before l a b) : l.idxOf a < l.idxOf b := by
  induction l with
  | nil => simp [Before] at h
  | cons x l ih =>
    rw [List.nodup_cons] at hn
    rcases List.sublist_cons_iff.mp h with h | ⟨r, hr, h⟩
    · have ha : a ∈ l := h.subset (by simp)
      have hb : b ∈ l := h.subset (by simp)
      have hax : x ≠ a := fun e => hn.1 (e ▸ ha)
      have hbx : x ≠ b := fun e => hn.1 (e ▸ hb)
      rw [List.idxOf_cons_ne _ hax, List.idxOf_cons_ne _ hbx]
      exact Nat.succ_lt_succ (ih hn.2 h)
    · obtain ⟨rfl, rfl⟩ := List.cons.inj hr
      have hb : b ∈ l := h.subset (by simp)
      have hbx : a ≠ b := fun e => hn.1 (e ▸ hb)
      rw [List.idxOf_cons_self, List.idxOf_cons_ne _ hbx]
      exact Nat.succ_pos _

/-! ## Every block is reached -/

theorem exists_leaf {c : Component} (h : c.blocks ≠ []) : ∃ p, p ∈ c.leaves :=
  List.exists_mem_of_ne_nil _ fun hl => h ((leaves_eq_nil_iff c).mp hl)

mutual
theorem entry_or_forward {b : NodeId} : (c : Component) → b ∈ c.blocks →
    c.entry = some b ∨ ∃ p, c.Edge p b ∧ Before c.blocks p b
  | .block _ => by
    rw [blocks, entry, List.mem_singleton]
    exact fun h => Or.inl (by rw [h])
  | .seq _ elements => by
    rw [blocks, entry]
    exact entryAll_or_forward elements
  | .fork _ cond cases => by
    rw [blocks, entry, List.mem_cons]
    rintro (rfl | h)
    · exact Or.inl rfl
    · obtain ⟨p, he, hb⟩ := forward_cases cond cases h
      exact Or.inr ⟨p, he, hb⟩
  | .loop _ start cond body update after => by
    simp only [blocks, entry, List.mem_append, List.mem_cons, List.not_mem_nil, or_false]
    rintro (((h | rfl | h) | h) | rfl)
    · rcases entry_or_forward start h with h | ⟨p, he, hb⟩
      · simp [h]
      · exact Or.inr ⟨p, by simp [Edge, he], before_left _ (before_left _ (before_left _ hb))⟩
    · by_cases hs : start.blocks = []
      · simp [(entry_eq_none_iff start).mpr hs]
      · obtain ⟨p, hp⟩ := exists_leaf hs
        exact Or.inr ⟨p, by simp [Edge, hp], before_left _ (before_left _
          (before_across (mem_blocks_of_mem_leaves start hp) (by simp)))⟩
    · rcases entry_or_forward body h with h' | ⟨p, he, hb⟩
      · exact Or.inr ⟨cond, by simp [Edge, mem_enter, h'], before_left _ (before_left _
          (before_right _ (before_head h)))⟩
      · exact Or.inr ⟨p, by simp [Edge, he], before_left _ (before_left _
          (before_right _ (before_cons _ hb)))⟩
    · rcases entry_or_forward update h with h' | ⟨p, he, hb⟩
      · by_cases ho : body.blocks = []
        · exact Or.inr ⟨cond, by simp [Edge, mem_enter, ho, h'], before_left _
            (before_across (by simp) h)⟩
        · obtain ⟨p, hp⟩ := exists_leaf ho
          have hpb := mem_blocks_of_mem_leaves body hp
          exact Or.inr ⟨p, by simp [Edge, mem_enter, hp, h'], before_left _
            (before_across (by simp [hpb]) h)⟩
      · exact Or.inr ⟨p, by simp [Edge, he], before_left _ (before_right _ hb)⟩
    · exact Or.inr ⟨cond, by simp [Edge], before_across (by simp) (by simp)⟩

theorem entryAll_or_forward {b : NodeId} : (cs : List Component) → b ∈ blocksAll cs →
    entryAll cs = some b ∨ ∃ p, EdgeElements p b cs ∧ Before (blocksAll cs) p b
  | [] => by simp [blocksAll]
  | c :: cs => by
    rw [blocksAll, List.mem_append]
    rintro (h | h)
    · rcases entry_or_forward c h with h | ⟨p, he, hb⟩
      · simp [entryAll, h]
      · exact Or.inr ⟨p, by simp [EdgeElements, he], before_left _ hb⟩
    · rcases entryAll_or_forward cs h with h' | ⟨p, he, hb⟩
      · by_cases hc : c.blocks = []
        · simp [entryAll, (entry_eq_none_iff c).mpr hc, h']
        · obtain ⟨p, hp⟩ := exists_leaf hc
          exact Or.inr ⟨p, by simp [EdgeElements, hp, h'],
            before_across (mem_blocks_of_mem_leaves c hp) h⟩
      · exact Or.inr ⟨p, by simp [EdgeElements, he], before_right _ hb⟩

theorem forward_cases {b : NodeId} (cond : NodeId) :
    (cs : List Component) → b ∈ blocksAll cs →
      ∃ p, EdgeCases p b cond cs ∧ Before (cond :: blocksAll cs) p b
  | [] => by simp [blocksAll]
  | c :: cs => by
    rw [blocksAll, List.mem_append]
    rintro (h | h)
    · rcases entry_or_forward c h with h' | ⟨p, he, hb⟩
      · exact ⟨cond, by simp [EdgeCases, h'], before_head (by simp [h])⟩
      · exact ⟨p, by simp [EdgeCases, he], before_cons _ (before_left _ hb)⟩
    · obtain ⟨p, he, hb⟩ := forward_cases cond cs h
      refine ⟨p, by simp [EdgeCases, he], ?_⟩
      exact hb.trans (List.Sublist.cons_cons _ (List.sublist_append_right _ _))
end

/-! ## Loops -/

mutual
def loops : Component → List (NodeId × List NodeId)
  | .block _ => []
  | .seq _ elements => loopsAll elements
  | .fork _ _ cases => loopsAll cases
  | .loop _ start cond body update _ =>
    (cond, cond :: (body.blocks ++ update.blocks)) :: (start.loops ++ body.loops ++ update.loops)

def loopsAll : List Component → List (NodeId × List NodeId)
  | [] => []
  | c :: cs => c.loops ++ loopsAll cs
end

mutual
theorem forward_or_back {p s : NodeId} : (c : Component) → c.Edge p s →
    Before c.blocks p s ∨ ∃ r, (s, r) ∈ c.loops ∧ p ∈ r
  | .block _ => by simp [Edge]
  | .seq _ elements => by
    rw [Edge, blocks, loops]
    exact forward_or_back_elements elements
  | .fork _ cond cases => by
    rw [Edge, blocks, loops]
    exact forward_or_back_cases cond cases
  | .loop _ start cond body update after => by
    simp only [Edge, blocks, loops, mem_enter]
    rintro (h | h | h | ⟨h, rfl⟩ | ⟨rfl, (h | ⟨_, h | ⟨_, h⟩⟩) | rfl⟩ |
        ⟨h, h' | ⟨_, h'⟩⟩ | ⟨h, rfl⟩)
    · rcases forward_or_back start h with hb | ⟨r, hr, hp⟩
      · exact Or.inl (before_left _ (before_left _ (before_left _ hb)))
      · exact Or.inr ⟨r, by simp [hr], hp⟩
    · rcases forward_or_back body h with hb | ⟨r, hr, hp⟩
      · exact Or.inl (before_left _ (before_left _ (before_right _ (before_cons _ hb))))
      · exact Or.inr ⟨r, by simp [hr], hp⟩
    · rcases forward_or_back update h with hb | ⟨r, hr, hp⟩
      · exact Or.inl (before_left _ (before_right _ hb))
      · exact Or.inr ⟨r, by simp [hr], hp⟩
    · exact Or.inl (before_left _ (before_left _
        (before_across (mem_blocks_of_mem_leaves start h) (by simp))))
    · exact Or.inl (before_left _ (before_left _
        (before_right _ (before_head (mem_blocks_of_entry h)))))
    · exact Or.inl (before_left _ (before_across (by simp) (mem_blocks_of_entry h)))
    · rw [List.mem_singleton.mp h]
      exact Or.inr ⟨_, List.mem_cons_self, by simp⟩
    · exact Or.inl (before_across (by simp) (by simp))
    · have hp := mem_blocks_of_mem_leaves body h
      exact Or.inl (before_left _ (before_across (by simp [hp]) (mem_blocks_of_entry h')))
    · rw [List.mem_singleton.mp h']
      exact Or.inr ⟨_, List.mem_cons_self, by simp [mem_blocks_of_mem_leaves body h]⟩
    · exact Or.inr ⟨_, List.mem_cons_self, by simp [mem_blocks_of_mem_leaves update h]⟩

theorem forward_or_back_elements {p s : NodeId} : (cs : List Component) → EdgeElements p s cs →
    Before (blocksAll cs) p s ∨ ∃ r, (s, r) ∈ loopsAll cs ∧ p ∈ r
  | [] => by simp [EdgeElements]
  | c :: cs => by
    rw [EdgeElements, blocksAll, loopsAll]
    rintro (h | h | ⟨h, h'⟩)
    · rcases forward_or_back c h with hb | ⟨r, hr, hp⟩
      · exact Or.inl (before_left _ hb)
      · exact Or.inr ⟨r, List.mem_append_left _ hr, hp⟩
    · rcases forward_or_back_elements cs h with hb | ⟨r, hr, hp⟩
      · exact Or.inl (before_right _ hb)
      · exact Or.inr ⟨r, List.mem_append_right _ hr, hp⟩
    · exact Or.inl (before_across (mem_blocks_of_mem_leaves c h) (mem_blocksAll_of_entryAll h'))

theorem forward_or_back_cases {p s : NodeId} (cond : NodeId) :
    (cs : List Component) → EdgeCases p s cond cs →
      Before (cond :: blocksAll cs) p s ∨ ∃ r, (s, r) ∈ loopsAll cs ∧ p ∈ r
  | [] => by simp [EdgeCases]
  | c :: cs => by
    rw [EdgeCases, blocksAll, loopsAll]
    rintro (h | h | ⟨rfl, h⟩)
    · rcases forward_or_back c h with hb | ⟨r, hr, hp⟩
      · exact Or.inl (before_cons _ (before_left _ hb))
      · exact Or.inr ⟨r, List.mem_append_left _ hr, hp⟩
    · rcases forward_or_back_cases cond cs h with hb | ⟨r, hr, hp⟩
      · exact Or.inl (hb.trans (List.Sublist.cons_cons _ (List.sublist_append_right _ _)))
      · exact Or.inr ⟨r, List.mem_append_right _ hr, hp⟩
    · exact Or.inl (before_head (List.mem_append_left _ (mem_blocks_of_entry h)))
end

mutual
theorem loop_before {h x : NodeId} {r : List NodeId} : (c : Component) → (h, r) ∈ c.loops →
    x ∈ r → (h ∈ c.blocks ∧ x ∈ c.blocks) ∧ (x = h ∨ Before c.blocks h x)
  | .block _ => by simp [loops]
  | .seq _ elements => by
    rw [loops, blocks]
    exact loop_before_all elements
  | .fork _ cond cases => by
    rw [loops, blocks]
    intro hl hx
    obtain ⟨⟨hh, hx'⟩, hb⟩ := loop_before_all cases hl hx
    exact ⟨⟨List.mem_cons_of_mem _ hh, List.mem_cons_of_mem _ hx'⟩, hb.imp_right (before_cons _)⟩
  | .loop _ start cond body update after => by
    simp only [loops, blocks, List.mem_cons, List.mem_append, Prod.mk.injEq]
    rintro (⟨rfl, rfl⟩ | (hl | hl) | hl) hx
    · rcases List.mem_cons.mp hx with rfl | hx
      · simp
      · rcases List.mem_append.mp hx with hx | hx
        · exact ⟨by simp [hx], Or.inr (before_left _ (before_left _ (before_right _
            (before_head hx))))⟩
        · exact ⟨by simp [hx], Or.inr (before_left _ (before_across (by simp) hx))⟩
    · obtain ⟨⟨hh, hx'⟩, hb⟩ := loop_before start hl hx
      exact ⟨by simp [hh, hx'], hb.imp_right fun hb =>
        before_left _ (before_left _ (before_left _ hb))⟩
    · obtain ⟨⟨hh, hx'⟩, hb⟩ := loop_before body hl hx
      exact ⟨by simp [hh, hx'], hb.imp_right fun hb =>
        before_left _ (before_left _ (before_right _ (before_cons _ hb)))⟩
    · obtain ⟨⟨hh, hx'⟩, hb⟩ := loop_before update hl hx
      exact ⟨by simp [hh, hx'], hb.imp_right fun hb => before_left _ (before_right _ hb)⟩

theorem loop_before_all {h x : NodeId} {r : List NodeId} :
    (cs : List Component) → (h, r) ∈ loopsAll cs → x ∈ r →
      (h ∈ blocksAll cs ∧ x ∈ blocksAll cs) ∧ (x = h ∨ Before (blocksAll cs) h x)
  | [] => by simp [loopsAll]
  | c :: cs => by
    simp only [loopsAll, blocksAll, List.mem_append]
    rintro (hl | hl) hx
    · obtain ⟨⟨hh, hx'⟩, hb⟩ := loop_before c hl hx
      exact ⟨by simp [hh, hx'], hb.imp_right (before_left _)⟩
    · obtain ⟨⟨hh, hx'⟩, hb⟩ := loop_before_all cs hl hx
      exact ⟨by simp [hh, hx'], hb.imp_right (before_right _)⟩
end

mutual
theorem eq_of_entry_in_loop {h x : NodeId} {r : List NodeId} : (c : Component) → c.ids.Nodup →
    (h, r) ∈ c.loops → x ∈ r → c.entry = some x → x = h
  | .block _ => by simp [loops]
  | .seq _ elements => by
    rw [ids, List.nodup_cons, loops, entry]
    exact fun hn => eq_of_entryAll_in_loop elements hn.2
  | .fork _ cond cases => by
    simp only [ids, List.nodup_cons, loops, entry, Option.some.injEq]
    rintro ⟨_, hc, _⟩ hl hx rfl
    exact absurd (mem_idsAll_of_mem_blocksAll (loop_before_all cases hl hx).1.2) hc
  | .loop _ start cond body update after => by
    intro hn
    have ha := apart_of_nodup hn
    simp only [loops, entry, List.mem_cons, List.mem_append, Prod.mk.injEq, Option.some.injEq]
    rintro (⟨rfl, rfl⟩ | (hl | hl) | hl) hx he
    · cases hs : start.entry with
      | none => simpa [hs] using he.symm
      | some e =>
        rw [hs, Option.getD_some] at he
        subst he
        have hi := mem_ids_of_mem_blocks (mem_blocks_of_entry hs)
        rcases List.mem_cons.mp hx with h | hx
        · exact h
        · rcases List.mem_append.mp hx with hx | hx
          · exact absurd (mem_ids_of_mem_blocks hx) (ha.start_body _ hi)
          · exact absurd (mem_ids_of_mem_blocks hx) (ha.start_update _ hi)
    · have hb := (loop_before start hl hx).1.2
      cases hs : start.entry with
      | none => simp [(entry_eq_none_iff start).mp hs] at hb
      | some e =>
        rw [hs, Option.getD_some] at he
        exact eq_of_entry_in_loop start ha.start_nodup hl hx (by rw [hs, he])
    · have hb := mem_ids_of_mem_blocks (loop_before body hl hx).1.2
      cases hs : start.entry with
      | none =>
        rw [hs, Option.getD_none] at he
        exact absurd (he ▸ hb) ha.cond_body
      | some e =>
        rw [hs, Option.getD_some] at he
        exact absurd hb (ha.start_body x (he ▸ mem_ids_of_mem_blocks (mem_blocks_of_entry hs)))
    · have hb := mem_ids_of_mem_blocks (loop_before update hl hx).1.2
      cases hs : start.entry with
      | none =>
        rw [hs, Option.getD_none] at he
        exact absurd (he ▸ hb) ha.cond_update
      | some e =>
        rw [hs, Option.getD_some] at he
        exact absurd hb (ha.start_update x (he ▸ mem_ids_of_mem_blocks (mem_blocks_of_entry hs)))

theorem eq_of_entryAll_in_loop {h x : NodeId} {r : List NodeId} :
    (cs : List Component) → (idsAll cs).Nodup → (h, r) ∈ loopsAll cs → x ∈ r →
      entryAll cs = some x → x = h
  | [] => by simp [loopsAll]
  | c :: cs => by
    simp only [idsAll, List.nodup_append, loopsAll, entryAll, List.mem_append]
    rintro ⟨hc, hcs, hd⟩ (hl | hl) hx he
    · have hb := (loop_before c hl hx).1.2
      cases hs : c.entry with
      | none => simp [(entry_eq_none_iff c).mp hs] at hb
      | some e =>
        rw [hs, Option.some_or] at he
        exact eq_of_entry_in_loop c hc hl hx (by rw [hs, he])
    · have hb := mem_idsAll_of_mem_blocksAll (loop_before_all cs hl hx).1.2
      cases hs : c.entry with
      | none =>
        rw [hs, Option.none_or] at he
        exact eq_of_entryAll_in_loop cs hcs hl hx he
      | some e =>
        rw [hs, Option.some_or, Option.some.injEq] at he
        exact absurd rfl (hd x (he ▸ mem_ids_of_mem_blocks (mem_blocks_of_entry hs)) x hb)
end

mutual
theorem edge_in_loop {h p x : NodeId} {r : List NodeId} : (c : Component) → c.ids.Nodup →
    (h, r) ∈ c.loops → x ∈ r → x ≠ h → c.Edge p x → p ∈ r
  | .block _ => by simp [loops]
  | .seq _ elements => by
    rw [ids, List.nodup_cons, loops, Edge]
    exact fun hn => edge_in_loop_elements elements hn.2
  | .fork _ cond cases => by
    simp only [ids, List.nodup_cons, loops, Edge]
    rintro ⟨_, _, hn⟩
    exact edge_in_loop_cases cond cases hn
  | .loop _ start cond body update after => by
    intro hn
    have ha := apart_of_nodup hn
    simp only [loops, List.mem_cons, List.mem_append, Prod.mk.injEq]
    rintro (⟨rfl, rfl⟩ | (hl | hl) | hl) hx hne he
    · have hx : x ∈ body.blocks ∨ x ∈ update.blocks := by
        rcases List.mem_cons.mp hx with hx | hx
        · exact absurd hx hne
        · exact List.mem_append.mp hx
      rcases hx with hx | hx
      · rcases (ha.comes_body [] hx).mp (.inl he) with he | ⟨hp, _⟩
        · simp [(Edge.mem body he).1]
        · simp [List.mem_singleton.mp hp]
      · rcases (ha.comes_update [] hx).mp (.inl he) with he | ⟨hp, _⟩
        · simp [(Edge.mem update he).1]
        · rcases mem_exits.mp hp with hp | ⟨_, hp⟩
          · simp [mem_blocks_of_mem_leaves body hp]
          · simp [List.mem_singleton.mp hp]
    · have hs := (loop_before start hl hx).1.2
      rcases (ha.comes_start [] hs).mp (.inl he) with he | ⟨hnil, _⟩
      · exact edge_in_loop start ha.start_nodup hl hx hne he
      · cases hnil
    · have hb := (loop_before body hl hx).1.2
      rcases (ha.comes_body [] hb).mp (.inl he) with he | ⟨_, he⟩
      · exact edge_in_loop body ha.body_nodup hl hx hne he
      · exact absurd (eq_of_entry_in_loop body ha.body_nodup hl hx he) hne
    · have hu := (loop_before update hl hx).1.2
      rcases (ha.comes_update [] hu).mp (.inl he) with he | ⟨_, he⟩
      · exact edge_in_loop update ha.update_nodup hl hx hne he
      · exact absurd (eq_of_entry_in_loop update ha.update_nodup hl hx he) hne

theorem edge_in_loop_elements {h p x : NodeId} {r : List NodeId} :
    (cs : List Component) → (idsAll cs).Nodup → (h, r) ∈ loopsAll cs → x ∈ r → x ≠ h →
      EdgeElements p x cs → p ∈ r
  | [] => by simp [loopsAll]
  | c :: cs => by
    simp only [idsAll, List.nodup_append, loopsAll, EdgeElements, List.mem_append]
    rintro ⟨hc, hcs, hd⟩ (hl | hl) hx hne he
    · have hb := mem_ids_of_mem_blocks (loop_before c hl hx).1.2
      rcases he with he | he | ⟨_, he⟩
      · exact edge_in_loop c hc hl hx hne he
      · exact absurd rfl (hd x hb x (mem_idsAll_of_mem_blocksAll (EdgeElements.mem cs he).2))
      · exact absurd rfl (hd x hb x (mem_idsAll_of_mem_blocksAll (mem_blocksAll_of_entryAll he)))
    · have hb := mem_idsAll_of_mem_blocksAll (loop_before_all cs hl hx).1.2
      rcases he with he | he | ⟨_, he⟩
      · exact absurd rfl (hd x (mem_ids_of_mem_blocks (Edge.mem c he).2) x hb)
      · exact edge_in_loop_elements cs hcs hl hx hne he
      · exact absurd (eq_of_entryAll_in_loop cs hcs hl hx he) hne

theorem edge_in_loop_cases {h p x : NodeId} {r : List NodeId} (cond : NodeId) :
    (cs : List Component) → (idsAll cs).Nodup → (h, r) ∈ loopsAll cs → x ∈ r → x ≠ h →
      EdgeCases p x cond cs → p ∈ r
  | [] => by simp [loopsAll]
  | c :: cs => by
    simp only [idsAll, List.nodup_append, loopsAll, EdgeCases, List.mem_append]
    rintro ⟨hc, hcs, hd⟩ (hl | hl) hx hne he
    · have hb := mem_ids_of_mem_blocks (loop_before c hl hx).1.2
      rcases he with he | he | ⟨_, he⟩
      · exact edge_in_loop c hc hl hx hne he
      · exact absurd rfl (hd x hb x (mem_idsAll_of_mem_blocksAll (EdgeCases.mem cond cs he).2))
      · exact absurd (eq_of_entry_in_loop c hc hl hx he) hne
    · have hb := mem_idsAll_of_mem_blocksAll (loop_before_all cs hl hx).1.2
      rcases he with he | he | ⟨_, he⟩
      · exact absurd rfl (hd x (mem_ids_of_mem_blocks (Edge.mem c he).2) x hb)
      · exact edge_in_loop_cases cond cs hcs hl hx hne he
      · exact absurd rfl (hd x (mem_ids_of_mem_blocks (mem_blocks_of_entry he)) x hb)
end

/-! ## No edge is listed twice -/

theorem orElse_nodup {l k : List NodeId} (hl : l.Nodup) (hk : k.Nodup) : (orElse l k).Nodup := by
  rw [orElse]
  split <;> assumption

mutual
theorem leaves_nodup : (c : Component) → c.leaves.Nodup
  | .block _ => by simp [leaves]
  | .seq _ elements => by
    rw [leaves]
    exact leavesLast_nodup elements
  | .fork _ cond cases => by
    rw [leaves]
    exact nodup_eraseDups _
  | .loop _ _ _ _ _ _ => by simp [leaves]

theorem leavesLast_nodup : (cs : List Component) → (leavesLast cs).Nodup
  | [] => by simp [leavesLast]
  | c :: cs => by
    rw [leavesLast]
    exact orElse_nodup (leavesLast_nodup cs) (leaves_nodup c)
end

theorem exits_nodup (c : Component) {preds : List NodeId} (h : preds.Nodup) :
    (c.exits preds).Nodup :=
  orElse_nodup (leaves_nodup c) h

mutual
theorem predsIn_nodup {b : NodeId} {l : List NodeId} : (c : Component) → (preds : List NodeId) →
    preds.Nodup → c.predsIn b preds = some l → l.Nodup
  | .block _, preds => by
    intro hp h
    rw [predsIn] at h
    split at h
    · exact Option.some.inj h ▸ hp
    · cases h
  | .seq _ elements, preds => by
    intro hp h
    rw [predsIn] at h
    split at h
    · exact Option.some.inj h ▸ hp
    · exact predsElements_nodup elements preds hp h
  | .fork _ cond cases, preds => by
    intro hp h
    rw [predsIn] at h
    split at h
    · exact Option.some.inj h ▸ hp
    · exact predsCases_nodup cases [cond] (List.nodup_singleton _) h
  | .loop _ start cond body update after, preds => by
    intro hp h
    rw [predsIn] at h
    split at h
    · exact Option.some.inj h ▸ hp
    · split at h
      · exact Option.some.inj h ▸ nodup_eraseDups _
      · split at h
        · exact Option.some.inj h ▸ List.nodup_singleton _
        · rcases Option.or_eq_some_iff.mp h with h | ⟨_, h⟩
          · exact predsIn_nodup start preds hp h
          · rcases Option.or_eq_some_iff.mp h with h | ⟨_, h⟩
            · exact predsIn_nodup body [cond] (List.nodup_singleton _) h
            · exact predsIn_nodup update _ (exits_nodup _ (List.nodup_singleton _)) h

theorem predsElements_nodup {b : NodeId} {l : List NodeId} :
    (cs : List Component) → (preds : List NodeId) → preds.Nodup →
      predsElements b preds cs = some l → l.Nodup
  | [], _ => by simp [predsElements]
  | c :: cs, preds => by
    intro hp h
    rw [predsElements] at h
    rcases Option.or_eq_some_iff.mp h with h | ⟨_, h⟩
    · exact predsIn_nodup c preds hp h
    · exact predsElements_nodup cs _ (exits_nodup c hp) h

theorem predsCases_nodup {b : NodeId} {l : List NodeId} :
    (cs : List Component) → (preds : List NodeId) → preds.Nodup →
      predsCases b preds cs = some l → l.Nodup
  | [], _ => by simp [predsCases]
  | c :: cs, preds => by
    intro hp h
    rw [predsCases] at h
    rcases Option.or_eq_some_iff.mp h with h | ⟨_, h⟩
    · exact predsIn_nodup c preds hp h
    · exact predsCases_nodup cs preds hp h
end

theorem enter_nodup (c : Component) {succs : List NodeId} (h : succs.Nodup) :
    (c.enter succs).Nodup := by
  rw [enter]
  cases c.entry with
  | some b => exact List.nodup_singleton b
  | none => exact h

theorem enterAll_nodup (cs : List Component) {succs : List NodeId} (h : succs.Nodup) :
    (enterAll cs succs).Nodup := by
  rw [enterAll]
  cases entryAll cs with
  | some b => exact List.nodup_singleton b
  | none => exact h

mutual
theorem succsIn_nodup {b : NodeId} {l : List NodeId} : (c : Component) → (succs : List NodeId) →
    succs.Nodup → c.succsIn b succs = some l → l.Nodup
  | .block _, succs => by
    intro hs h
    rw [succsIn] at h
    split at h
    · exact Option.some.inj h ▸ hs
    · cases h
  | .seq _ elements, succs => by
    intro hs h
    rw [succsIn] at h
    split at h
    · exact Option.some.inj h ▸ hs
    · exact succsElements_nodup elements succs hs h
  | .fork _ cond cases, succs => by
    intro hs h
    rw [succsIn] at h
    split at h
    · exact Option.some.inj h ▸ hs
    · split at h
      · rw [Option.some.injEq] at h
        rw [← h]
        split
        · exact hs
        · exact nodup_eraseDups _
      · exact succsCases_nodup cases succs hs h
  | .loop _ start cond body update after, succs => by
    intro hs h
    rw [succsIn] at h
    split at h
    · exact Option.some.inj h ▸ hs
    · split at h
      · exact Option.some.inj h ▸ nodup_eraseDups _
      · rcases Option.or_eq_some_iff.mp h with h | ⟨_, h⟩
        · exact succsIn_nodup start [cond] (List.nodup_singleton _) h
        · rcases Option.or_eq_some_iff.mp h with h | ⟨_, h⟩
          · exact succsIn_nodup body _ (enter_nodup _ (List.nodup_singleton _)) h
          · exact succsIn_nodup update [cond] (List.nodup_singleton _) h

theorem succsElements_nodup {b : NodeId} {l : List NodeId} :
    (cs : List Component) → (succs : List NodeId) → succs.Nodup →
      succsElements b succs cs = some l → l.Nodup
  | [], _ => by simp [succsElements]
  | c :: cs, succs => by
    intro hs h
    rw [succsElements] at h
    rcases Option.or_eq_some_iff.mp h with h | ⟨_, h⟩
    · exact succsIn_nodup c _ (enterAll_nodup cs hs) h
    · exact succsElements_nodup cs succs hs h

theorem succsCases_nodup {b : NodeId} {l : List NodeId} :
    (cs : List Component) → (succs : List NodeId) → succs.Nodup →
      succsCases b succs cs = some l → l.Nodup
  | [], _ => by simp [succsCases]
  | c :: cs, succs => by
    intro hs h
    rw [succsCases] at h
    rcases Option.or_eq_some_iff.mp h with h | ⟨_, h⟩
    · exact succsIn_nodup c succs hs h
    · exact succsCases_nodup cs succs hs h
end

end DefFlow.Flow.Component
