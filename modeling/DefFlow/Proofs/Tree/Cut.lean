import DefFlow.Proofs.Tree.Flatten
import DefFlow.Proofs.Tree.Place

/-!
# Cutting a block

The second half of a block is put right behind the first: behind it in its sequence,
behind the loop that it ends, or as the condition of its fork, which then follows the
first half.
-/

set_option autoImplicit false

namespace DefFlow.Flow.Component

def cutAt (b b' : NodeId) (x : NodeId) : Option NodeId := if x = b then some b' else none

section

variable {b b' i x : NodeId} {cs l r : List Component}

theorem cutAt_self : cutAt b b' b = some b' := if_pos rfl

theorem cutAt_of_ne (h : x ≠ b) : cutAt b b' x = none := if_neg h

theorem lastOf_cutAt_self : lastOf (cutAt b b') b = b' := by rw [lastOf, cutAt_self]; rfl

theorem lastOf_cutAt_of_ne (h : x ≠ b) : lastOf (cutAt b b') x = x :=
  lastOf_of_none (cutAt_of_ne h)

theorem cutAt_of_not_mem {l : List NodeId} (h : b ∉ l) : ∀ x ∈ l, cutAt b b' x = none :=
  fun _ hx => cutAt_of_ne fun he => h (he ▸ hx)

theorem grows_block : Grows (cutAt b b') [b'] [.block b] [.block b, .block b'] where
  blocks := by simp [blocksAll, blocks, grown, cutAt_self]
  leaves x := by simp [leavesLast, leaves, orElse, lastOf_cutAt_self]
  edge p s := by
    simp only [EdgeElements, Edge, leaves, entryAll, entry, blocksAll, blocks]
    simp only [false_or, or_false, List.mem_singleton, Option.or_none, List.append_nil,
      reduceCtorEq, and_false, false_and, exists_false, Option.some.injEq]
    constructor
    · rintro ⟨rfl, rfl⟩
      exact ⟨rfl, cutAt_self⟩
    · rintro ⟨rfl, h⟩
      rw [cutAt_self, Option.some.injEq] at h
      exact ⟨rfl, h⟩
  ids := .refl _

theorem grows_condition (h : b ∉ blocksAll cs) :
    Grows (cutAt b b') [b'] [.fork i b cs] [.block b, .fork i b' cs] where
  blocks := by
    rw [blocksAll, blocksAll_singleton, blocksAll_singleton, blocks, blocks, blocks,
      List.flatMap_cons, flatMap_grown (cutAt_of_not_mem h), grown, cutAt_self]
    rfl
  leaves x := by
    have hne : ∀ {y}, (∃ c ∈ cs, y ∈ c.leaves) → y ≠ b := by
      rintro y ⟨c, hc, hy⟩ rfl
      exact h (mem_blocksAll.mpr ⟨c, hc, mem_blocks_of_mem_leaves c hy⟩)
    rw [leavesLast_singleton, ← List.singleton_append, mem_leavesLast_append,
      leavesLast_singleton, blocksAll_singleton, blocks, leaves, leaves]
    simp only [List.mem_eraseDups, mem_leavesCases, reduceCtorEq, false_and, or_false]
    constructor
    · rintro (hx | ⟨rfl, hx⟩)
      · exact ⟨x, Or.inl hx, (lastOf_cutAt_of_ne (hne hx)).symm⟩
      · exact ⟨b, Or.inr ⟨rfl, hx⟩, lastOf_cutAt_self.symm⟩
    · rintro ⟨y, hy | ⟨rfl, hy⟩, rfl⟩
      · rw [lastOf_cutAt_of_ne (hne hy)]
        exact Or.inl hy
      · exact Or.inr ⟨lastOf_cutAt_self, hy⟩
  edge p s := by
    have hne : ∀ {q}, (∃ c ∈ cs, c.Edge q s) → q ≠ b := by
      rintro q ⟨c, hc, hq⟩ rfl
      exact h (mem_blocksAll.mpr ⟨c, hc, (Edge.mem c hq).1⟩)
    rw [← List.singleton_append, edgeElements_append]
    simp only [edgeElements_singleton, blocksAll_singleton, leavesLast_singleton, Edge, leaves,
      edgeCases_iff, entryAll, entry, blocks, Option.some_or, Option.some.injEq,
      List.mem_cons, List.not_mem_nil, or_false, false_or]
    constructor
    · rintro ((hp | ⟨rfl, hs⟩) | ⟨rfl, rfl⟩)
      · exact Or.inl ⟨p, Or.inl hp, (lastOf_cutAt_of_ne (hne hp)).symm⟩
      · exact Or.inl ⟨b, Or.inr ⟨rfl, hs⟩, lastOf_cutAt_self.symm⟩
      · exact Or.inr ⟨Or.inl rfl, cutAt_self⟩
    · rintro (⟨q, hq | ⟨rfl, hs⟩, rfl⟩ | ⟨rfl | hp, hs⟩)
      · rw [lastOf_cutAt_of_ne (hne hq)]
        exact Or.inl (Or.inl hq)
      · exact Or.inl (Or.inr ⟨lastOf_cutAt_self, hs⟩)
      · rw [cutAt_self, Option.some.injEq] at hs
        exact Or.inr ⟨rfl, hs⟩
      · rw [cutAt_of_not_mem h p hp] at hs
        cases hs
  ids := by
    rw [List.subperm_ext_iff]
    intro a _
    simp only [idsAll, ids, List.count_append, List.count_cons, List.cons_append, List.count_nil,
      List.append_nil, List.nil_append]
    omega

theorem ne_after_of_edge {start body update : Component} {cond p s : NodeId}
    (hn : (Component.loop i start cond body update b).ids.Nodup)
    (h : (Component.loop i start cond body update b).Edge p s) : p ≠ b := by
  have ha := apart_of_nodup hn
  have hs : ∀ {q}, q ∈ start.blocks → q ≠ b := fun hq he =>
    ha.after_start (he ▸ mem_ids_of_mem_blocks hq)
  have hb : ∀ {q}, q ∈ body.blocks → q ≠ b := fun hq he =>
    ha.after_body (he ▸ mem_ids_of_mem_blocks hq)
  have hu : ∀ {q}, q ∈ update.blocks → q ≠ b := fun hq he =>
    ha.after_update (he ▸ mem_ids_of_mem_blocks hq)
  rw [Edge] at h
  rcases h with h | h | h | ⟨h, _⟩ | ⟨rfl, _⟩ | ⟨h, _⟩ | ⟨h, _⟩
  · exact hs (Edge.mem start h).1
  · exact hb (Edge.mem body h).1
  · exact hu (Edge.mem update h).1
  · exact hs (mem_blocks_of_mem_leaves start h)
  · exact Ne.symm ha.after_cond
  · exact hb (mem_blocks_of_mem_leaves body h)
  · exact hu (mem_blocks_of_mem_leaves update h)

theorem grows_after {start body update : Component} {cond : NodeId}
    (hn : (Component.loop i start cond body update b).ids.Nodup) :
    Grows (cutAt b b') [b'] [.loop i start cond body update b]
      [.loop i start cond body update b, .block b'] where
  blocks := by
    have ha := apart_of_nodup hn
    have hrest : b ∉ start.blocks ++ cond :: body.blocks ++ update.blocks := by
      simp only [List.mem_append, List.mem_cons, not_or]
      exact ⟨⟨fun h => ha.after_start (mem_ids_of_mem_blocks h), ha.after_cond,
        fun h => ha.after_body (mem_ids_of_mem_blocks h)⟩,
        fun h => ha.after_update (mem_ids_of_mem_blocks h)⟩
    rw [blocksAll, blocksAll_singleton, blocksAll_singleton, blocks, blocks, List.flatMap_append,
      flatMap_grown (cutAt_of_not_mem hrest), List.flatMap_singleton, grown, cutAt_self,
      List.append_assoc]
    rfl
  leaves x := by simp [leavesLast, leaves, orElse, lastOf_cutAt_self]
  edge p s := by
    rw [← List.singleton_append, edgeElements_append]
    simp only [edgeElements_singleton, blocksAll_singleton, leavesLast_singleton, leaves, entryAll,
      entry, Option.some_or, Option.some.injEq, List.mem_singleton]
    constructor
    · rintro (hp | hp | ⟨rfl, rfl⟩)
      · exact Or.inl ⟨p, hp, (lastOf_cutAt_of_ne (ne_after_of_edge hn hp)).symm⟩
      · cases hp
      · exact Or.inr ⟨by simp [blocks], cutAt_self⟩
    · rintro (⟨q, hq, rfl⟩ | ⟨hp, hs⟩)
      · rw [lastOf_cutAt_of_ne (ne_after_of_edge hn hq)]
        exact Or.inl hq
      · rw [cutAt] at hs
        split at hs
        · next hpb => exact Or.inr (Or.inr ⟨hpb, Option.some.inj hs⟩)
        · cases hs
  ids := by
    rw [idsAll, idsAll_singleton, idsAll_singleton, ids]

inductive Cleft (b b' : NodeId) : Component → List Component → Prop
  | block : Cleft b b' (.block b) [.block b, .block b']
  | condition (i : NodeId) (cs : List Component) :
      Cleft b b' (.fork i b cs) [.block b, .fork i b' cs]
  | after (i : NodeId) (start : Component) (cond : NodeId) (body update : Component) :
      Cleft b b' (.loop i start cond body update b) [.loop i start cond body update b, .block b']

namespace Cleft

variable {d : Component}

theorem mem_blocks (h : Cleft b b' d cs) : b ∈ d.blocks := by cases h <;> simp [blocks]

theorem grows (h : Cleft b b' d cs) (hn : d.ids.Nodup) : Grows (cutAt b b') [b'] [d] cs := by
  cases h with
  | block => exact grows_block
  | condition i cs =>
    rw [ids, List.nodup_cons, List.nodup_cons] at hn
    exact grows_condition fun hm => hn.2.1 (mem_idsAll_of_mem_blocksAll hm)
  | after => exact grows_after hn

end Cleft

/-! ## Where the halves are put -/

/-- A sequence with a new number stands for its elements. -/
theorem alike_seq (q : NodeId) (cs : List Component) : Alike [q] cs [.seq q cs] :=
  alike_collapse_new (.refl cs) false q

variable {tail : NodeId → Option NodeId} {extra : List NodeId} {c : Component}

/-- A component is replaced by several, which a new sequence holds. -/
theorem Grows.wrap (h : Grows tail extra [c] cs) (q : NodeId) :
    Grows tail (extra ++ [q]) [c] [.seq q cs] :=
  h.alike (alike_seq q cs)

theorem Grows.splice (h : Grows tail extra [c] cs) (hl : ∀ x ∈ blocksAll l, tail x = none)
    (hr : ∀ x ∈ blocksAll r, tail x = none) :
    Grows tail extra [.seq i (l ++ c :: r)] [.seq i (l ++ (cs ++ r))] := by
  have hwhole := (Grows.refl hl).append (h.append (.refl hr))
  rw [List.nil_append, List.append_nil] at hwhole
  exact hwhole.seq i

inductive Puts (d : Component) (cs : List Component) (c : Component) :
    List NodeId → Component → Prop
  | spliced {s : NodeId} {l r : List Component} (h : Within (.seq s (l ++ d :: r)) c) :
      Puts d cs c [] (c.modify s fun _ => .seq s (l ++ (cs ++ r)))
  | wrapped (q : NodeId) (h : Within d c) : Puts d cs c [q] (c.modify d.id fun _ => .seq q cs)

theorem Puts.within {d c' : Component} {new : List NodeId} (h : Puts d cs c new c') :
    Within d c := by
  cases h with
  | spliced h => exact .trans (.element .here) h
  | wrapped _ h => exact h

theorem Puts.grows {d c' : Component} {new : List NodeId} (h : Puts d cs c new c')
    (hn : c.ids.Nodup) (hd : Grows tail extra [d] cs) (hout : ∀ x, x ∉ d.blocks → tail x = none) :
    Grows tail (extra ++ new) [c] [c'] := by
  cases h with
  | @spliced s l r h =>
    have hseq : (idsAll (l ++ d :: r)).Nodup := by
      have := h.nodup hn
      rw [ids, List.nodup_cons] at this
      exact this.2
    have hbeside : ∀ x, x ∈ d.blocks → x ∉ blocksAll l ∧ x ∉ blocksAll r := fun x hx =>
      (beside_of_nodup hseq (mem_ids_of_mem_blocks hx)).imp
        (mt mem_idsAll_of_mem_blocksAll) (mt mem_idsAll_of_mem_blocksAll)
    rw [List.append_nil]
    refine h.grows (d := .seq s (l ++ d :: r)) hn (hd.splice (fun x hx => hout x fun hm =>
      (hbeside x hm).1 hx) fun x hx => hout x fun hm => (hbeside x hm).2 hx) ?_
    intro x _ hx
    refine hout x fun hm => hx ?_
    rw [blocks, mem_blocksAll]
    exact ⟨d, List.mem_append_right _ List.mem_cons_self, hm⟩
  | wrapped q h => exact h.grows hn (hd.wrap q) fun x _ hx => hout x hx

end

end DefFlow.Flow.Component
