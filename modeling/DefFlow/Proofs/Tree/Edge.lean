import DefFlow.Flow.Component
import Mathlib.Data.List.Nodup

/-!
# Edges of a component tree

The predecessors and the successors of a block are found by two walks that hand
down what the surroundings contribute. Both read one relation: the edges of a
tree, put together from the entries and the leaves of its parts.
-/

set_option autoImplicit false

namespace DefFlow.Flow.Component

mutual
def Edge (p s : NodeId) : Component → Prop
  | .block _ => False
  | .seq _ elements => EdgeElements p s elements
  | .fork _ cond cases => EdgeCases p s cond cases
  | .loop _ start cond body update after =>
    start.Edge p s ∨ body.Edge p s ∨ update.Edge p s ∨
      (p ∈ start.leaves ∧ s = cond) ∨
      (p = cond ∧ (s ∈ body.enter (update.enter [cond]) ∨ s = after)) ∨
      (p ∈ body.leaves ∧ s ∈ update.enter [cond]) ∨
      (p ∈ update.leaves ∧ s = cond)

def EdgeElements (p s : NodeId) : List Component → Prop
  | [] => False
  | c :: cs => c.Edge p s ∨ EdgeElements p s cs ∨ (p ∈ c.leaves ∧ entryAll cs = some s)

def EdgeCases (p s cond : NodeId) : List Component → Prop
  | [] => False
  | c :: cs => c.Edge p s ∨ EdgeCases p s cond cs ∨ (p = cond ∧ c.entry = some s)
end

/-! ## Blocks, entries and leaves -/

mutual
theorem blocks_sublist : (c : Component) → c.blocks.Sublist c.ids
  | .block _ => by simp [blocks, ids]
  | .seq _ elements => by
    rw [blocks, ids]
    exact (blocksAll_sublist elements).cons _
  | .fork _ cond cases => by
    rw [blocks, ids]
    exact ((blocksAll_sublist cases).cons_cons cond).cons _
  | .loop _ start cond body update after => by
    rw [blocks, ids]
    simp only [List.cons_append]
    refine List.Sublist.cons _ ?_
    exact (((blocks_sublist start).append ((blocks_sublist body).cons_cons cond)).append
      (blocks_sublist update)).append (List.Sublist.refl _)

theorem blocksAll_sublist : (cs : List Component) → (blocksAll cs).Sublist (idsAll cs)
  | [] => by simp [blocksAll, idsAll]
  | c :: cs => by
    rw [blocksAll, idsAll]
    exact (blocks_sublist c).append (blocksAll_sublist cs)
end

theorem mem_ids_of_mem_blocks {c : Component} {b : NodeId} (h : b ∈ c.blocks) : b ∈ c.ids :=
  (blocks_sublist c).subset h

theorem mem_idsAll_of_mem_blocksAll {cs : List Component} {b : NodeId}
    (h : b ∈ blocksAll cs) : b ∈ idsAll cs :=
  (blocksAll_sublist cs).subset h

mutual
theorem entry_eq_head : (c : Component) → c.entry = c.blocks.head?
  | .block _ => rfl
  | .seq _ elements => by rw [entry, blocks, entryAll_eq_head elements]
  | .fork _ cond cases => by simp [entry, blocks]
  | .loop _ start cond body update after => by
    rw [entry, blocks, entry_eq_head start]
    cases start.blocks <;> simp

theorem entryAll_eq_head : (cs : List Component) → entryAll cs = (blocksAll cs).head?
  | [] => rfl
  | c :: cs => by
    rw [entryAll, blocksAll, entry_eq_head c, entryAll_eq_head cs, List.head?_append]
end

theorem mem_blocks_of_entry {c : Component} {b : NodeId} (h : c.entry = some b) :
    b ∈ c.blocks :=
  List.mem_of_mem_head? (by rw [← entry_eq_head, h]; rfl)

theorem mem_blocksAll_of_entryAll {cs : List Component} {b : NodeId}
    (h : entryAll cs = some b) : b ∈ blocksAll cs :=
  List.mem_of_mem_head? (by rw [← entryAll_eq_head, h]; rfl)

theorem entry_eq_none_iff (c : Component) : c.entry = none ↔ c.blocks = [] := by
  rw [entry_eq_head, List.head?_eq_none_iff]

theorem mem_orElse {l k : List NodeId} {x : NodeId} :
    x ∈ orElse l k ↔ x ∈ l ∨ (l = [] ∧ x ∈ k) := by
  cases l <;> simp [orElse]

mutual
theorem mem_blocks_of_mem_leaves {b : NodeId} : (c : Component) → b ∈ c.leaves → b ∈ c.blocks
  | .block _ => by simp [leaves, blocks]
  | .seq _ elements => by
    rw [leaves, blocks]
    exact mem_blocksAll_of_mem_leavesLast elements
  | .fork _ cond cases => by
    rw [leaves, blocks, List.mem_eraseDups, List.mem_cons]
    exact mem_of_mem_leavesCases cond cases
  | .loop _ start cond body update after => by
    rw [leaves, blocks]
    intro h
    exact List.mem_append_right _ h

theorem mem_blocksAll_of_mem_leavesLast {b : NodeId} :
    (cs : List Component) → b ∈ leavesLast cs → b ∈ blocksAll cs
  | [] => by simp [leavesLast]
  | c :: cs => by
    rw [leavesLast, blocksAll, mem_orElse, List.mem_append]
    rintro (h | ⟨_, h⟩)
    · exact Or.inr (mem_blocksAll_of_mem_leavesLast cs h)
    · exact Or.inl (mem_blocks_of_mem_leaves c h)

theorem mem_of_mem_leavesCases {b : NodeId} (cond : NodeId) :
    (cs : List Component) → b ∈ leavesCases cond cs → b = cond ∨ b ∈ blocksAll cs
  | [] => by
    rw [leavesCases, List.mem_singleton]
    exact Or.inl
  | [c] => by
    rw [leavesCases, mem_orElse, blocksAll, blocksAll, List.append_nil]
    rintro (h | ⟨_, h⟩)
    · exact Or.inr (mem_blocks_of_mem_leaves c h)
    · exact Or.inl (List.mem_singleton.mp h)
  | c :: d :: cs => by
    rw [leavesCases, List.mem_append, mem_orElse, blocksAll, List.mem_append]
    · rintro ((h | ⟨_, h⟩) | h)
      · exact Or.inr (Or.inl (mem_blocks_of_mem_leaves c h))
      · exact Or.inl (List.mem_singleton.mp h)
      · exact (mem_of_mem_leavesCases cond (d :: cs) h).imp_right Or.inr
    · simp
end

mutual
theorem leaves_eq_nil_iff : (c : Component) → (c.leaves = [] ↔ c.blocks = [])
  | .block _ => by simp [leaves, blocks]
  | .seq _ elements => by
    rw [leaves, blocks]
    exact leavesLast_eq_nil_iff elements
  | .fork _ cond cases => by
    rw [leaves, blocks]
    refine ⟨fun h => ?_, fun h => absurd h (by simp)⟩
    obtain ⟨x, hx⟩ := leavesCases_ne_nil cond cases
    rw [← List.mem_eraseDups, h] at hx
    simp at hx
  | .loop _ start cond body update after => by simp [leaves, blocks]

theorem leavesLast_eq_nil_iff : (cs : List Component) → (leavesLast cs = [] ↔ blocksAll cs = [])
  | [] => by simp [leavesLast, blocksAll]
  | c :: cs => by
    rw [leavesLast, blocksAll, List.append_eq_nil_iff, ← leaves_eq_nil_iff c,
      ← leavesLast_eq_nil_iff cs]
    cases h : leavesLast cs <;> simp [orElse]

theorem leavesCases_ne_nil (cond : NodeId) :
    (cs : List Component) → ∃ x, x ∈ leavesCases cond cs
  | [] => ⟨cond, by simp [leavesCases]⟩
  | [c] => by
    rw [leavesCases]
    cases h : c.leaves with
    | nil => exact ⟨cond, by simp [orElse]⟩
    | cons x xs => exact ⟨x, by simp [orElse]⟩
  | c :: d :: cs => by
    obtain ⟨x, hx⟩ := leavesCases_ne_nil cond (d :: cs)
    refine ⟨x, ?_⟩
    rw [leavesCases, List.mem_append]
    · exact Or.inr hx
    · simp
end

theorem mem_enter {c : Component} {succs : List NodeId} {s : NodeId} :
    s ∈ c.enter succs ↔ c.entry = some s ∨ (c.blocks = [] ∧ s ∈ succs) := by
  rw [enter]
  cases h : c.entry with
  | none => simp [(entry_eq_none_iff c).mp h]
  | some b =>
    have hb : c.blocks ≠ [] := fun hn => by simp [(entry_eq_none_iff c).mpr hn] at h
    simp [hb, eq_comm]

theorem mem_enterAll {cs : List Component} {succs : List NodeId} {s : NodeId} :
    s ∈ enterAll cs succs ↔ entryAll cs = some s ∨ (blocksAll cs = [] ∧ s ∈ succs) := by
  rw [enterAll]
  cases h : entryAll cs with
  | none =>
    rw [entryAll_eq_head, List.head?_eq_none_iff] at h
    simp [h]
  | some b =>
    have hb : blocksAll cs ≠ [] := fun hn => by simp [entryAll_eq_head, hn] at h
    simp [hb, eq_comm]

theorem mem_exits {c : Component} {preds : List NodeId} {p : NodeId} :
    p ∈ c.exits preds ↔ p ∈ c.leaves ∨ (c.blocks = [] ∧ p ∈ preds) := by
  rw [exits, mem_orElse, leaves_eq_nil_iff]

theorem mem_leavesCases {cond x : NodeId} : {cs : List Component} →
    (x ∈ leavesCases cond cs ↔
      (∃ c ∈ cs, x ∈ c.leaves) ∨ (x = cond ∧ (cs = [] ∨ ∃ c ∈ cs, c.blocks = [])))
  | [] => by simp [leavesCases]
  | [c] => by
    rw [leavesCases, mem_orElse, leaves_eq_nil_iff]
    simp [and_comm]
  | c :: d :: cs => by
    have ih := @mem_leavesCases cond x (d :: cs)
    have he : leavesCases cond (c :: d :: cs) = orElse c.leaves [cond] ++
        leavesCases cond (d :: cs) := by
      rw [leavesCases]
      simp
    simp only [reduceCtorEq, false_or] at ih ⊢
    rw [he, List.mem_append, mem_orElse, leaves_eq_nil_iff, ih]
    generalize d :: cs = ds
    rw [List.exists_mem_cons_iff, List.exists_mem_cons_iff, List.mem_singleton]
    constructor
    · rintro ((h | ⟨h, h'⟩) | h | ⟨h, h'⟩)
      · exact Or.inl (Or.inl h)
      · exact Or.inr ⟨h', Or.inl h⟩
      · exact Or.inl (Or.inr h)
      · exact Or.inr ⟨h, Or.inr h'⟩
    · rintro ((h | h) | ⟨h, h' | h'⟩)
      · exact Or.inl (Or.inl h)
      · exact Or.inr (Or.inl h)
      · exact Or.inl (Or.inr ⟨h', h⟩)
      · exact Or.inr (Or.inr ⟨h, h'⟩)

theorem edgeCases_iff {cond p s : NodeId} : {cs : List Component} →
    (EdgeCases p s cond cs ↔
      (∃ c ∈ cs, c.Edge p s) ∨ (p = cond ∧ ∃ c ∈ cs, c.entry = some s))
  | [] => by simp [EdgeCases]
  | c :: cs => by
    simp only [EdgeCases, @edgeCases_iff cond p s cs, List.exists_mem_cons_iff]
    constructor
    · rintro (h | (h | ⟨h, h'⟩) | ⟨h, h'⟩)
      · exact Or.inl (Or.inl h)
      · exact Or.inl (Or.inr h)
      · exact Or.inr ⟨h, Or.inr h'⟩
      · exact Or.inr ⟨h, Or.inl h'⟩
    · rintro ((h | h) | ⟨h, h' | h'⟩)
      · exact Or.inl h
      · exact Or.inr (Or.inl (Or.inl h))
      · exact Or.inr (Or.inr ⟨h, h'⟩)
      · exact Or.inr (Or.inl (Or.inr ⟨h, h'⟩))

theorem mem_blocksAll {b : NodeId} : {cs : List Component} →
    (b ∈ blocksAll cs ↔ ∃ c ∈ cs, b ∈ c.blocks)
  | [] => by simp [blocksAll]
  | c :: cs => by
    rw [blocksAll, List.mem_append, @mem_blocksAll b cs, List.exists_mem_cons_iff]

theorem mem_idsAll {i : NodeId} {cs : List Component} : i ∈ idsAll cs ↔ ∃ c ∈ cs, i ∈ c.ids := by
  induction cs with
  | nil => simp [idsAll]
  | cons c cs ih => rw [idsAll, List.mem_append, ih, List.exists_mem_cons_iff]

/-! ## Edges join blocks of the tree -/

mutual
theorem Edge.mem {p s : NodeId} : (c : Component) → c.Edge p s → p ∈ c.blocks ∧ s ∈ c.blocks
  | .block _ => by simp [Edge]
  | .seq _ elements => by
    rw [Edge, blocks]
    exact EdgeElements.mem elements
  | .fork _ cond cases => by
    rw [Edge, blocks]
    intro h
    obtain ⟨hp, hs⟩ := EdgeCases.mem cond cases h
    exact ⟨List.mem_cons.mpr hp, List.mem_cons_of_mem _ hs⟩
  | .loop _ start cond body update after => by
    rw [Edge, blocks]
    simp only [List.mem_append, List.mem_cons, List.not_mem_nil, or_false, mem_enter]
    rintro (h | h | h | ⟨h, rfl⟩ | ⟨rfl, h⟩ | ⟨h, h'⟩ | ⟨h, rfl⟩)
    · simp [Edge.mem start h]
    · simp [Edge.mem body h]
    · simp [Edge.mem update h]
    · simp [mem_blocks_of_mem_leaves start h]
    · refine ⟨by simp, ?_⟩
      rcases h with (h | ⟨_, h | ⟨_, rfl⟩⟩) | rfl
      · simp [mem_blocks_of_entry h]
      · simp [mem_blocks_of_entry h]
      · simp
      · simp
    · refine ⟨by simp [mem_blocks_of_mem_leaves body h], ?_⟩
      rcases h' with h' | ⟨_, rfl⟩
      · simp [mem_blocks_of_entry h']
      · simp
    · simp [mem_blocks_of_mem_leaves update h]

theorem EdgeElements.mem {p s : NodeId} :
    (cs : List Component) → EdgeElements p s cs → p ∈ blocksAll cs ∧ s ∈ blocksAll cs
  | [] => by simp [EdgeElements]
  | c :: cs => by
    rw [EdgeElements, blocksAll]
    rintro (h | h | ⟨h, h'⟩)
    · simp [Edge.mem c h]
    · simp [EdgeElements.mem cs h]
    · simp [mem_blocks_of_mem_leaves c h, mem_blocksAll_of_entryAll h']

theorem EdgeCases.mem {p s : NodeId} (cond : NodeId) :
    (cs : List Component) → EdgeCases p s cond cs →
      (p = cond ∨ p ∈ blocksAll cs) ∧ s ∈ blocksAll cs
  | [] => by simp [EdgeCases]
  | c :: cs => by
    rw [EdgeCases, blocksAll]
    rintro (h | h | ⟨rfl, h⟩)
    · simp [Edge.mem c h]
    · obtain ⟨hp, hs⟩ := EdgeCases.mem cond cs h
      exact ⟨hp.imp_right (List.mem_append_right _), List.mem_append_right _ hs⟩
    · simp [mem_blocks_of_entry h]
end

/-! ## Predecessors -/

mutual
theorem predsIn_eq_none {b : NodeId} :
    (c : Component) → (preds : List NodeId) → b ∉ c.ids → c.predsIn b preds = none
  | .block id, preds => by
    intro h
    simp only [ids, List.mem_singleton] at h
    simp [predsIn, Ne.symm h]
  | .seq id elements, preds => by
    intro h
    simp only [ids, List.mem_cons, not_or] at h
    simp [predsIn, Ne.symm h.1, predsElements_eq_none elements preds h.2]
  | .fork id cond cases, preds => by
    intro h
    simp only [ids, List.mem_cons, not_or] at h
    simp [predsIn, Ne.symm h.1, Ne.symm h.2.1, predsCases_eq_none cases [cond] h.2.2]
  | .loop id start cond body update after, preds => by
    intro h
    simp only [ids, List.cons_append, List.mem_cons, List.mem_append, List.not_mem_nil, or_false,
      not_or] at h
    obtain ⟨h1, ⟨⟨h2, h3, h4⟩, h5⟩, h6⟩ := h
    simp [predsIn, Ne.symm h1, Ne.symm h3, Ne.symm h6, predsIn_eq_none start preds h2,
      predsIn_eq_none body [cond] h4, predsIn_eq_none update (body.exits [cond]) h5]

theorem predsElements_eq_none {b : NodeId} :
    (cs : List Component) → (preds : List NodeId) → b ∉ idsAll cs →
      predsElements b preds cs = none
  | [], _ => fun _ => rfl
  | c :: cs, preds => by
    intro h
    simp only [idsAll, List.mem_append, not_or] at h
    simp [predsElements, predsIn_eq_none c preds h.1,
      predsElements_eq_none cs (c.exits preds) h.2]

theorem predsCases_eq_none {b : NodeId} :
    (cs : List Component) → (preds : List NodeId) → b ∉ idsAll cs → predsCases b preds cs = none
  | [], _ => fun _ => rfl
  | c :: cs, preds => by
    intro h
    simp only [idsAll, List.mem_append, not_or] at h
    simp [predsCases, predsIn_eq_none c preds h.1, predsCases_eq_none cs preds h.2]
end

structure Apart (id : NodeId) (start body update : List NodeId) (cond after : NodeId) : Prop where
  start_nodup : start.Nodup
  body_nodup : body.Nodup
  update_nodup : update.Nodup
  id_cond : id ≠ cond
  id_after : id ≠ after
  id_start : id ∉ start
  id_body : id ∉ body
  id_update : id ∉ update
  cond_start : cond ∉ start
  cond_body : cond ∉ body
  cond_update : cond ∉ update
  after_cond : after ≠ cond
  after_start : after ∉ start
  after_body : after ∉ body
  after_update : after ∉ update
  start_body : ∀ x ∈ start, x ∉ body
  start_update : ∀ x ∈ start, x ∉ update
  body_update : ∀ x ∈ body, x ∉ update

theorem apart_of_nodup {id cond after : NodeId} {start body update : Component}
    (h : (Component.loop id start cond body update after).ids.Nodup) :
    Apart id start.ids body.ids update.ids cond after := by
  simp only [ids, List.cons_append, List.nodup_cons, List.nodup_append', List.mem_append,
    List.mem_cons, List.not_mem_nil, or_false, not_or, List.disjoint_cons_right,
    List.disjoint_append_left, List.disjoint_cons_left, List.disjoint_nil_right, and_true,
    List.nodup_nil] at h
  obtain ⟨⟨⟨⟨his, hic, hib⟩, hiu⟩, hia⟩, ⟨⟨hs, ⟨hcb, hb⟩, hcs, hsb⟩, hu, hsu, hcu, hbu⟩,
    -, ⟨has, hac, hab⟩, hau⟩ := h
  exact {
    start_nodup := hs, body_nodup := hb, update_nodup := hu
    id_cond := hic, id_after := hia, id_start := his, id_body := hib, id_update := hiu
    cond_start := hcs, cond_body := hcb, cond_update := hcu
    after_cond := hac, after_start := has, after_body := hab, after_update := hau
    start_body := hsb, start_update := hsu, body_update := hbu }

/-- Control comes from `p` to the block `s` of the tree, along an edge or from one of the blocks
before the tree. -/
def Comes (c : Component) (preds : List NodeId) (p s : NodeId) : Prop :=
  c.Edge p s ∨ (p ∈ preds ∧ c.entry = some s)

/-- Control goes from the block `p` of the tree to `s`, along an edge or to one of the blocks
behind the tree. -/
def Goes (c : Component) (succs : List NodeId) (p s : NodeId) : Prop :=
  c.Edge p s ∨ (p ∈ c.leaves ∧ s ∈ succs)

theorem not_comes {c : Component} {s : NodeId} (h : s ∉ c.blocks) (p : NodeId) :
    ¬ c.Edge p s ∧ c.entry ≠ some s :=
  ⟨fun he => h (Edge.mem c he).2, fun he => h (mem_blocks_of_entry he)⟩

theorem not_goes {c : Component} {p : NodeId} (h : p ∉ c.blocks) (s : NodeId) :
    ¬ c.Edge p s ∧ p ∉ c.leaves :=
  ⟨fun he => h (Edge.mem c he).1, fun hl => h (mem_blocks_of_mem_leaves c hl)⟩

theorem not_mem_blocks {c : Component} {b : NodeId} (h : b ∉ c.ids) : b ∉ c.blocks :=
  fun hb => h (mem_ids_of_mem_blocks hb)

theorem getD_entry_ne {c : Component} {s cond : NodeId} (h : c.entry ≠ some s) (hs : s ≠ cond) :
    c.entry.getD cond ≠ s := by
  cases he : c.entry with
  | none => simpa using Ne.symm hs
  | some x => simpa [he] using h

namespace Apart

variable {id cond after : NodeId} {start body update : Component} {preds succs : List NodeId}
variable {p s : NodeId}

section

variable (ha : Apart id start.ids body.ids update.ids cond after)

include ha

/-! A part of a loop is entered and left through its own edges and by way of the parts around
it only. -/

theorem comes_start (preds : List NodeId) (hs : s ∈ start.blocks) :
    (loop id start cond body update after).Comes preds p s ↔ start.Comes preds p s := by
  have hi := mem_ids_of_mem_blocks hs
  obtain ⟨h1, h2⟩ := not_comes (not_mem_blocks (ha.start_body s hi)) p
  obtain ⟨h3, h4⟩ := not_comes (not_mem_blocks (ha.start_update s hi)) p
  have h5 : s ≠ cond := fun hc => ha.cond_start (hc ▸ hi)
  have h6 : s ≠ after := fun hc => ha.after_start (hc ▸ hi)
  have h7 : start.entry.getD cond = s ↔ start.entry = some s := by
    cases start.entry <;> simp [Ne.symm h5]
  simp [Comes, Edge, entry, mem_enter, h1, h2, h3, h4, h5, h6, h7]

theorem comes_body (preds : List NodeId) (hs : s ∈ body.blocks) :
    (loop id start cond body update after).Comes preds p s ↔ body.Comes [cond] p s := by
  have hi := mem_ids_of_mem_blocks hs
  obtain ⟨h1, h2⟩ := not_comes (not_mem_blocks fun hm => ha.start_body s hm hi) p
  obtain ⟨h3, h4⟩ := not_comes (not_mem_blocks (ha.body_update s hi)) p
  have h5 : s ≠ cond := fun hc => ha.cond_body (hc ▸ hi)
  have h6 : s ≠ after := fun hc => ha.after_body (hc ▸ hi)
  have h7 := getD_entry_ne h2 h5
  simp [Comes, Edge, entry, mem_enter, h1, h3, h4, h5, h6, h7]

theorem comes_update (preds : List NodeId) (hs : s ∈ update.blocks) :
    (loop id start cond body update after).Comes preds p s ↔
      update.Comes (body.exits [cond]) p s := by
  have hi := mem_ids_of_mem_blocks hs
  obtain ⟨h1, h2⟩ := not_comes (not_mem_blocks fun hm => ha.start_update s hm hi) p
  obtain ⟨h3, h4⟩ := not_comes (not_mem_blocks fun hm => ha.body_update s hm hi) p
  have h5 : s ≠ cond := fun hc => ha.cond_update (hc ▸ hi)
  have h6 : s ≠ after := fun hc => ha.after_update (hc ▸ hi)
  have h7 := getD_entry_ne h2 h5
  simp only [Comes, Edge, entry, mem_enter, mem_exits, h1, h3, h4, h5, h6, h7, false_or, or_false,
    and_false, List.mem_singleton, Option.some.injEq]
  grind

theorem comes_cond : (loop id start cond body update after).Comes preds p cond ↔
    p ∈ start.exits preds ∨ p ∈ update.exits (body.exits [cond]) := by
  obtain ⟨h1, h2⟩ := not_comes (not_mem_blocks ha.cond_start) p
  obtain ⟨h3, h4⟩ := not_comes (not_mem_blocks ha.cond_body) p
  obtain ⟨h5, h6⟩ := not_comes (not_mem_blocks ha.cond_update) p
  have h7 : start.entry.getD cond = cond ↔ start.blocks = [] := by
    rw [← entry_eq_none_iff]
    cases he : start.entry with
    | none => simp
    | some e =>
      have : e ≠ cond := fun h => h2 (h ▸ he)
      simp [this]
  simp only [Comes, Edge, entry, h1, h3, h4, h5, h6, h7, mem_enter, mem_exits,
    List.mem_singleton, Ne.symm ha.after_cond, Option.some.injEq, and_true, or_false, false_or]
  grind

theorem comes_after :
    (loop id start cond body update after).Comes preds p after ↔ p = cond := by
  obtain ⟨h1, h2⟩ := not_comes (not_mem_blocks ha.after_start) p
  obtain ⟨h3, h4⟩ := not_comes (not_mem_blocks ha.after_body) p
  obtain ⟨h5, h6⟩ := not_comes (not_mem_blocks ha.after_update) p
  have h7 := getD_entry_ne h2 ha.after_cond
  simp [Comes, Edge, entry, h1, h3, h4, h5, h6, h7, ha.after_cond, mem_enter]

theorem goes_start (hp : p ∈ start.blocks) :
    (loop id start cond body update after).Goes succs p s ↔ start.Goes [cond] p s := by
  have hi := mem_ids_of_mem_blocks hp
  obtain ⟨h1, h2⟩ := not_goes (not_mem_blocks (ha.start_body p hi)) s
  obtain ⟨h3, h4⟩ := not_goes (not_mem_blocks (ha.start_update p hi)) s
  have h5 : p ≠ cond := fun hc => ha.cond_start (hc ▸ hi)
  have h6 : p ≠ after := fun hc => ha.after_start (hc ▸ hi)
  simp [Goes, Edge, leaves, h1, h2, h3, h4, h5, h6]

theorem goes_body (hp : p ∈ body.blocks) :
    (loop id start cond body update after).Goes succs p s ↔
      body.Goes (update.enter [cond]) p s := by
  have hi := mem_ids_of_mem_blocks hp
  obtain ⟨h1, h2⟩ := not_goes (not_mem_blocks fun hm => ha.start_body p hm hi) s
  obtain ⟨h3, h4⟩ := not_goes (not_mem_blocks (ha.body_update p hi)) s
  have h5 : p ≠ cond := fun hc => ha.cond_body (hc ▸ hi)
  have h6 : p ≠ after := fun hc => ha.after_body (hc ▸ hi)
  simp [Goes, Edge, leaves, h1, h2, h3, h4, h5, h6]

theorem goes_update (hp : p ∈ update.blocks) :
    (loop id start cond body update after).Goes succs p s ↔ update.Goes [cond] p s := by
  have hi := mem_ids_of_mem_blocks hp
  obtain ⟨h1, h2⟩ := not_goes (not_mem_blocks fun hm => ha.start_update p hm hi) s
  obtain ⟨h3, h4⟩ := not_goes (not_mem_blocks fun hm => ha.body_update p hm hi) s
  have h5 : p ≠ cond := fun hc => ha.cond_update (hc ▸ hi)
  have h6 : p ≠ after := fun hc => ha.after_update (hc ▸ hi)
  simp [Goes, Edge, leaves, h1, h2, h3, h4, h5, h6]

/-- From the condition of a loop control goes into the next round or behind the loop. -/
theorem goes_cond : (loop id start cond body update after).Goes succs cond s ↔
    s ∈ body.enter (update.enter [cond]) ∨ s = after := by
  obtain ⟨h1, h2⟩ := not_goes (not_mem_blocks ha.cond_start) s
  obtain ⟨h3, h4⟩ := not_goes (not_mem_blocks ha.cond_body) s
  obtain ⟨h5, h6⟩ := not_goes (not_mem_blocks ha.cond_update) s
  simp [Goes, Edge, leaves, h1, h2, h3, h4, h5, h6, Ne.symm ha.after_cond]

theorem goes_after :
    (loop id start cond body update after).Goes succs after s ↔ s ∈ succs := by
  obtain ⟨h1, h2⟩ := not_goes (not_mem_blocks ha.after_start) s
  obtain ⟨h3, h4⟩ := not_goes (not_mem_blocks ha.after_body) s
  obtain ⟨h5, h6⟩ := not_goes (not_mem_blocks ha.after_update) s
  simp [Goes, Edge, leaves, h1, h2, h3, h4, h5, h6, ha.after_cond]

end

theorem id_ne (ha : Apart id start.ids body.ids update.ids cond after) {b : NodeId}
    (hb : b ∈ (loop id start cond body update after).blocks) : id ≠ b := by
  simp only [blocks, List.mem_append, List.mem_cons, List.not_mem_nil, or_false] at hb
  rintro rfl
  rcases hb with ((h | h | h) | h) | h
  · exact ha.id_start (mem_ids_of_mem_blocks h)
  · exact ha.id_cond h
  · exact ha.id_body (mem_ids_of_mem_blocks h)
  · exact ha.id_update (mem_ids_of_mem_blocks h)
  · exact ha.id_after h

end Apart

section

variable {c : Component} {cs : List Component} {preds succs : List NodeId} {p s : NodeId}

/-! The first element of a sequence is entered as the sequence is, the others from the leaves of
the first or past it. -/

theorem comes_head (hs : s ∉ blocksAll cs) :
    (EdgeElements p s (c :: cs) ∨ (p ∈ preds ∧ entryAll (c :: cs) = some s)) ↔
      c.Comes preds p s := by
  have h1 : ¬ EdgeElements p s cs := fun h => hs (EdgeElements.mem cs h).2
  have h2 : entryAll cs ≠ some s := fun h => hs (mem_blocksAll_of_entryAll h)
  simp [Comes, EdgeElements, entryAll, h1, h2]

theorem comes_tail (hs : s ∉ c.blocks) :
    (EdgeElements p s (c :: cs) ∨ (p ∈ preds ∧ entryAll (c :: cs) = some s)) ↔
      EdgeElements p s cs ∨ (p ∈ c.exits preds ∧ entryAll cs = some s) := by
  obtain ⟨h1, h2⟩ := not_comes hs p
  simp only [EdgeElements, entryAll, mem_exits, h1, false_or, Option.or_eq_some_iff, h2,
    entry_eq_none_iff]
  grind

theorem goes_head (hp : p ∉ blocksAll cs) :
    (EdgeElements p s (c :: cs) ∨ (p ∈ leavesLast (c :: cs) ∧ s ∈ succs)) ↔
      c.Goes (enterAll cs succs) p s := by
  have h1 : ¬ EdgeElements p s cs := fun h => hp (EdgeElements.mem cs h).1
  have h2 : p ∉ leavesLast cs := fun h => hp (mem_blocksAll_of_mem_leavesLast cs h)
  simp only [Goes, EdgeElements, leavesLast, mem_orElse, mem_enterAll, h1, h2, false_or,
    leavesLast_eq_nil_iff]
  grind

theorem goes_tail (hp : p ∉ c.blocks) :
    (EdgeElements p s (c :: cs) ∨ (p ∈ leavesLast (c :: cs) ∧ s ∈ succs)) ↔
      EdgeElements p s cs ∨ (p ∈ leavesLast cs ∧ s ∈ succs) := by
  obtain ⟨h1, h2⟩ := not_goes hp s
  simp [EdgeElements, leavesLast, mem_orElse, h1, h2]

end

def PredsAnswer (b : NodeId) (preds : List NodeId) (edge : NodeId → Prop) (entry : Option NodeId)
    (answer : Option (List NodeId)) : Prop :=
  ∃ l, answer = some l ∧ ∀ p, p ∈ l ↔ edge p ∨ (p ∈ preds ∧ entry = some b)

mutual
theorem predsIn_answer {b : NodeId} :
    (c : Component) → (preds : List NodeId) → c.ids.Nodup → b ∈ c.blocks →
      PredsAnswer b preds (fun p => c.Edge p b) c.entry (c.predsIn b preds)
  | .block id, preds => by
    intro _ hb
    rw [blocks, List.mem_singleton] at hb
    subst hb
    exact ⟨preds, by simp [predsIn], fun p => by simp [Edge, entry]⟩
  | .seq id elements, preds => by
    intro hn hb
    rw [ids, List.nodup_cons] at hn
    rw [blocks] at hb
    have hid : id ≠ b := fun h => hn.1 (h ▸ mem_idsAll_of_mem_blocksAll hb)
    obtain ⟨l, hl, hm⟩ := predsElements_answer elements preds hn.2 hb
    exact ⟨l, by simp [predsIn, hid, hl], hm⟩
  | .fork id cond cases, preds => by
    intro hn hb
    simp only [ids, List.nodup_cons, List.mem_cons, not_or] at hn
    rw [blocks, List.mem_cons] at hb
    obtain ⟨⟨hic, hid⟩, hc, hn⟩ := hn
    by_cases h : b = cond
    · subst h
      refine ⟨preds, by simp [predsIn], fun p => ?_⟩
      have he : ¬ EdgeCases p b b cases := fun h =>
        hc (mem_idsAll_of_mem_blocksAll (EdgeCases.mem b cases h).2)
      simp [Edge, entry, he]
    · have hb := hb.resolve_left h
      have hib : id ≠ b := fun h => hid (h ▸ mem_idsAll_of_mem_blocksAll hb)
      obtain ⟨l, hl, hm⟩ := predsCases_answer cond cases hn hc hb
      refine ⟨l, by simp [predsIn, hib, Ne.symm h, hl], fun p => ?_⟩
      simp [Edge, entry, Ne.symm h, hm]
  | .loop id start cond body update after, preds => by
    intro hn hb
    have ha := apart_of_nodup hn
    have hi := ha.id_ne hb
    simp only [blocks, List.mem_append, List.mem_cons, List.not_mem_nil, or_false] at hb
    by_cases hc : b = cond
    · subst hc
      refine ⟨(start.exits preds ++ update.exits (body.exits [b])).eraseDups,
        by simp [predsIn, hi], fun p => Iff.trans ?_ ha.comes_cond.symm⟩
      rw [List.mem_eraseDups, List.mem_append]
    by_cases hf : b = after
    · subst hf
      refine ⟨[cond], by simp [predsIn, hi, Ne.symm hc], fun p => Iff.trans ?_ ha.comes_after.symm⟩
      exact List.mem_singleton
    rcases hb with ((hb | hb | hb) | hb) | hb
    · obtain ⟨l, hl, hm⟩ := predsIn_answer start preds ha.start_nodup hb
      exact ⟨l, by simp [predsIn, hi, Ne.symm hc, Ne.symm hf, hl],
        fun p => (hm p).trans (ha.comes_start preds hb).symm⟩
    · exact absurd hb hc
    · have hbi := mem_ids_of_mem_blocks hb
      have hs : start.predsIn b preds = none :=
        predsIn_eq_none start preds fun h => ha.start_body b h hbi
      obtain ⟨l, hl, hm⟩ := predsIn_answer body [cond] ha.body_nodup hb
      exact ⟨l, by simp [predsIn, hi, Ne.symm hc, Ne.symm hf, hs, hl],
        fun p => (hm p).trans (ha.comes_body preds hb).symm⟩
    · have hbi := mem_ids_of_mem_blocks hb
      have hs : start.predsIn b preds = none :=
        predsIn_eq_none start preds fun h => ha.start_update b h hbi
      have ho : body.predsIn b [cond] = none :=
        predsIn_eq_none body [cond] fun h => ha.body_update b h hbi
      obtain ⟨l, hl, hm⟩ := predsIn_answer update (body.exits [cond]) ha.update_nodup hb
      exact ⟨l, by simp [predsIn, hi, Ne.symm hc, Ne.symm hf, hs, ho, hl],
        fun p => (hm p).trans (ha.comes_update preds hb).symm⟩
    · exact absurd hb hf

theorem predsElements_answer {b : NodeId} :
    (cs : List Component) → (preds : List NodeId) → (idsAll cs).Nodup → b ∈ blocksAll cs →
      PredsAnswer b preds (fun p => EdgeElements p b cs) (entryAll cs) (predsElements b preds cs)
  | [], _ => by simp [blocksAll]
  | c :: cs, preds => by
    intro hn hb
    rw [idsAll, List.nodup_append] at hn
    obtain ⟨hc, hcs, hd⟩ := hn
    rw [blocksAll, List.mem_append] at hb
    by_cases h : b ∈ c.blocks
    · have hcs' : b ∉ blocksAll cs := fun h' =>
        hd b (mem_ids_of_mem_blocks h) b (mem_idsAll_of_mem_blocksAll h') rfl
      obtain ⟨l, hl, hm⟩ := predsIn_answer c preds hc h
      exact ⟨l, by simp [predsElements, hl], fun p => (hm p).trans (comes_head hcs').symm⟩
    · have hb := hb.resolve_left h
      have hi : b ∉ c.ids := fun h' => hd b h' b (mem_idsAll_of_mem_blocksAll hb) rfl
      obtain ⟨l, hl, hm⟩ := predsElements_answer cs (c.exits preds) hcs hb
      exact ⟨l, by simp [predsElements, predsIn_eq_none c preds hi, hl],
        fun p => (hm p).trans (comes_tail h).symm⟩

theorem predsCases_answer {b : NodeId} (cond : NodeId) :
    (cs : List Component) → (idsAll cs).Nodup → cond ∉ idsAll cs → b ∈ blocksAll cs →
      ∃ l, predsCases b [cond] cs = some l ∧ ∀ p, p ∈ l ↔ EdgeCases p b cond cs
  | [] => by simp [blocksAll]
  | c :: cs => by
    intro hn hcond hb
    rw [idsAll, List.nodup_append] at hn
    obtain ⟨hc, hcs, hd⟩ := hn
    rw [idsAll, List.mem_append, not_or] at hcond
    rw [blocksAll, List.mem_append] at hb
    by_cases h : b ∈ c.blocks
    · have hcs' : b ∉ blocksAll cs := fun h' =>
        hd b (mem_ids_of_mem_blocks h) b (mem_idsAll_of_mem_blocksAll h') rfl
      obtain ⟨l, hl, hm⟩ := predsIn_answer c [cond] hc h
      refine ⟨l, by simp [predsCases, hl], fun p => ?_⟩
      have h1 : ¬ EdgeCases p b cond cs := fun h => hcs' (EdgeCases.mem cond cs h).2
      simp [EdgeCases, hm, h1]
    · have hb := hb.resolve_left h
      have hi : b ∉ c.ids := fun h' => hd b h' b (mem_idsAll_of_mem_blocksAll hb) rfl
      obtain ⟨l, hl, hm⟩ := predsCases_answer cond cs hcs hcond.2 hb
      refine ⟨l, by simp [predsCases, predsIn_eq_none c [cond] hi, hl], fun p => ?_⟩
      have h1 : ¬ c.Edge p b := fun h' => h (Edge.mem c h').2
      have h2 : c.entry ≠ some b := fun h' => h (mem_blocks_of_entry h')
      simp [EdgeCases, hm, h1, h2]
end

/-! ## Successors -/

mutual
theorem succsIn_eq_none {b : NodeId} :
    (c : Component) → (succs : List NodeId) → b ∉ c.ids → c.succsIn b succs = none
  | .block id, succs => by
    intro h
    simp only [ids, List.mem_singleton] at h
    simp [succsIn, Ne.symm h]
  | .seq id elements, succs => by
    intro h
    simp only [ids, List.mem_cons, not_or] at h
    simp [succsIn, Ne.symm h.1, succsElements_eq_none elements succs h.2]
  | .fork id cond cases, succs => by
    intro h
    simp only [ids, List.mem_cons, not_or] at h
    simp [succsIn, Ne.symm h.1, Ne.symm h.2.1, succsCases_eq_none cases succs h.2.2]
  | .loop id start cond body update after, succs => by
    intro h
    simp only [ids, List.cons_append, List.mem_cons, List.mem_append, List.not_mem_nil, or_false,
      not_or] at h
    obtain ⟨h1, ⟨⟨h2, h3, h4⟩, h5⟩, h6⟩ := h
    simp [succsIn, Ne.symm h1, Ne.symm h3, Ne.symm h6, succsIn_eq_none start [cond] h2,
      succsIn_eq_none body (update.enter [cond]) h4, succsIn_eq_none update [cond] h5]

theorem succsElements_eq_none {b : NodeId} :
    (cs : List Component) → (succs : List NodeId) → b ∉ idsAll cs →
      succsElements b succs cs = none
  | [], _ => fun _ => rfl
  | c :: cs, succs => by
    intro h
    simp only [idsAll, List.mem_append, not_or] at h
    simp [succsElements, succsIn_eq_none c (enterAll cs succs) h.1,
      succsElements_eq_none cs succs h.2]

theorem succsCases_eq_none {b : NodeId} :
    (cs : List Component) → (succs : List NodeId) → b ∉ idsAll cs → succsCases b succs cs = none
  | [], _ => fun _ => rfl
  | c :: cs, succs => by
    intro h
    simp only [idsAll, List.mem_append, not_or] at h
    simp [succsCases, succsIn_eq_none c succs h.1, succsCases_eq_none cs succs h.2]
end

def SuccsAnswer (b : NodeId) (succs : List NodeId) (edge : NodeId → Prop) (leaves : List NodeId)
    (answer : Option (List NodeId)) : Prop :=
  ∃ l, answer = some l ∧ ∀ s, s ∈ l ↔ edge s ∨ (s ∈ succs ∧ b ∈ leaves)

theorem succsIn_fork_cond {id cond : NodeId} {cases : List Component} (hi : id ≠ cond)
    (hc : cond ∉ idsAll cases) (succs : List NodeId) :
    SuccsAnswer cond succs (fun s => (Component.fork id cond cases).Edge cond s)
      (Component.fork id cond cases).leaves
      ((Component.fork id cond cases).succsIn cond succs) := by
  refine ⟨if cases.isEmpty then succs else (cases.flatMap (enter · succs)).eraseDups,
    by simp [succsIn, hi], fun s => ?_⟩
  have h1 : ∀ c ∈ cases, ¬ c.Edge cond s := fun c hm h =>
    hc (mem_idsAll_of_mem_blocksAll (mem_blocksAll.mpr ⟨c, hm, (Edge.mem c h).1⟩))
  have h2 : ∀ c ∈ cases, cond ∉ c.leaves := fun c hm h =>
    hc (mem_idsAll_of_mem_blocksAll (mem_blocksAll.mpr ⟨c, hm, mem_blocks_of_mem_leaves c h⟩))
  have h3 : ¬ ∃ c ∈ cases, c.Edge cond s := fun ⟨c, hm, h⟩ => h1 c hm h
  have h4 : ¬ ∃ c ∈ cases, cond ∈ c.leaves := fun ⟨c, hm, h⟩ => h2 c hm h
  simp only [leaves, List.mem_eraseDups, mem_leavesCases, Edge, edgeCases_iff, h3, h4, false_or,
    true_and]
  cases cases with
  | nil => simp
  | cons c cs =>
    simp only [List.isEmpty_cons, Bool.false_eq_true, if_false, List.mem_eraseDups,
      List.mem_flatMap, mem_enter, reduceCtorEq, false_or]
    constructor
    · rintro ⟨d, hd, h | ⟨h, h'⟩⟩
      · exact Or.inl ⟨d, hd, h⟩
      · exact Or.inr ⟨h', d, hd, h⟩
    · rintro (⟨d, hd, h⟩ | ⟨h', d, hd, h⟩)
      · exact ⟨d, hd, Or.inl h⟩
      · exact ⟨d, hd, Or.inr ⟨h, h'⟩⟩

mutual
theorem succsIn_answer {b : NodeId} :
    (c : Component) → (succs : List NodeId) → c.ids.Nodup → b ∈ c.blocks →
      SuccsAnswer b succs (fun s => c.Edge b s) c.leaves (c.succsIn b succs)
  | .block id, succs => by
    intro _ hb
    rw [blocks, List.mem_singleton] at hb
    subst hb
    exact ⟨succs, by simp [succsIn], fun s => by simp [Edge, leaves]⟩
  | .seq id elements, succs => by
    intro hn hb
    rw [ids, List.nodup_cons] at hn
    rw [blocks] at hb
    have hid : id ≠ b := fun h => hn.1 (h ▸ mem_idsAll_of_mem_blocksAll hb)
    obtain ⟨l, hl, hm⟩ := succsElements_answer elements succs hn.2 hb
    exact ⟨l, by simp [succsIn, hid, hl], hm⟩
  | .fork id cond cases, succs => by
    intro hn hb
    simp only [ids, List.nodup_cons, List.mem_cons, not_or] at hn
    rw [blocks, List.mem_cons] at hb
    obtain ⟨⟨hic, hid⟩, hc, hn⟩ := hn
    by_cases h : b = cond
    · subst h
      exact succsIn_fork_cond hic hc succs
    · have hb := hb.resolve_left h
      have hib : id ≠ b := fun h => hid (h ▸ mem_idsAll_of_mem_blocksAll hb)
      obtain ⟨l, hl, hm⟩ := succsCases_answer cases succs hn hb
      refine ⟨l, by simp [succsIn, hib, Ne.symm h, hl], fun s => ?_⟩
      simp [hm, leaves, List.mem_eraseDups, mem_leavesCases, Edge, edgeCases_iff, h]
  | .loop id start cond body update after, succs => by
    intro hn hb
    have ha := apart_of_nodup hn
    have hi := ha.id_ne hb
    simp only [blocks, List.mem_append, List.mem_cons, List.not_mem_nil, or_false] at hb
    by_cases hc : b = cond
    · subst hc
      refine ⟨(body.enter (update.enter [b]) ++ [after]).eraseDups,
        by simp [succsIn, hi, ha.after_cond], fun s => ?_⟩
      rw [List.mem_eraseDups, List.mem_append, List.mem_singleton, and_comm]
      exact ha.goes_cond.symm
    by_cases hf : b = after
    · subst hf
      exact ⟨succs, by simp [succsIn], fun s => by rw [and_comm]; exact ha.goes_after.symm⟩
    rcases hb with ((hb | hb | hb) | hb) | hb
    · obtain ⟨l, hl, hm⟩ := succsIn_answer start [cond] ha.start_nodup hb
      refine ⟨l, by simp [succsIn, hi, Ne.symm hc, Ne.symm hf, hl], fun s => (hm s).trans ?_⟩
      rw [and_comm, and_comm (a := s ∈ succs)]
      exact (ha.goes_start hb).symm
    · exact absurd hb hc
    · have hbi := mem_ids_of_mem_blocks hb
      have hs : start.succsIn b [cond] = none :=
        succsIn_eq_none start [cond] fun h => ha.start_body b h hbi
      obtain ⟨l, hl, hm⟩ := succsIn_answer body (update.enter [cond]) ha.body_nodup hb
      refine ⟨l, by simp [succsIn, hi, Ne.symm hc, Ne.symm hf, hs, hl], fun s => (hm s).trans ?_⟩
      rw [and_comm, and_comm (a := s ∈ succs)]
      exact (ha.goes_body hb).symm
    · have hbi := mem_ids_of_mem_blocks hb
      have hs : start.succsIn b [cond] = none :=
        succsIn_eq_none start [cond] fun h => ha.start_update b h hbi
      have ho : body.succsIn b (update.enter [cond]) = none :=
        succsIn_eq_none body _ fun h => ha.body_update b h hbi
      obtain ⟨l, hl, hm⟩ := succsIn_answer update [cond] ha.update_nodup hb
      refine ⟨l, by simp [succsIn, hi, Ne.symm hc, Ne.symm hf, hs, ho, hl],
        fun s => (hm s).trans ?_⟩
      rw [and_comm, and_comm (a := s ∈ succs)]
      exact (ha.goes_update hb).symm
    · exact absurd hb hf

theorem succsElements_answer {b : NodeId} :
    (cs : List Component) → (succs : List NodeId) → (idsAll cs).Nodup → b ∈ blocksAll cs →
      SuccsAnswer b succs (fun s => EdgeElements b s cs) (leavesLast cs)
        (succsElements b succs cs)
  | [], _ => by simp [blocksAll]
  | c :: cs, succs => by
    intro hn hb
    rw [idsAll, List.nodup_append] at hn
    obtain ⟨hc, hcs, hd⟩ := hn
    rw [blocksAll, List.mem_append] at hb
    by_cases h : b ∈ c.blocks
    · have hcs' : b ∉ blocksAll cs := fun h' =>
        hd b (mem_ids_of_mem_blocks h) b (mem_idsAll_of_mem_blocksAll h') rfl
      obtain ⟨l, hl, hm⟩ := succsIn_answer c (enterAll cs succs) hc h
      refine ⟨l, by simp [succsElements, hl], fun s => (hm s).trans ?_⟩
      rw [and_comm, and_comm (a := s ∈ succs)]
      exact (goes_head hcs').symm
    · have hb := hb.resolve_left h
      have hi : b ∉ c.ids := fun h' => hd b h' b (mem_idsAll_of_mem_blocksAll hb) rfl
      obtain ⟨l, hl, hm⟩ := succsElements_answer cs succs hcs hb
      refine ⟨l, by simp [succsElements, succsIn_eq_none c _ hi, hl], fun s => (hm s).trans ?_⟩
      rw [and_comm, and_comm (a := s ∈ succs)]
      exact (goes_tail h).symm

theorem succsCases_answer {b : NodeId} :
    (cs : List Component) → (succs : List NodeId) → (idsAll cs).Nodup → b ∈ blocksAll cs →
      ∃ l, succsCases b succs cs = some l ∧
        ∀ s, s ∈ l ↔ (∃ c ∈ cs, c.Edge b s) ∨ (s ∈ succs ∧ ∃ c ∈ cs, b ∈ c.leaves)
  | [], _ => by simp [blocksAll]
  | c :: cs, succs => by
    intro hn hb
    rw [idsAll, List.nodup_append] at hn
    obtain ⟨hc, hcs, hd⟩ := hn
    rw [blocksAll, List.mem_append] at hb
    by_cases h : b ∈ c.blocks
    · have hcs' : ∀ d ∈ cs, b ∉ d.blocks := fun d hd' h' =>
        hd b (mem_ids_of_mem_blocks h) b
          (mem_idsAll_of_mem_blocksAll (mem_blocksAll.mpr ⟨d, hd', h'⟩)) rfl
      obtain ⟨l, hl, hm⟩ := succsIn_answer c succs hc h
      refine ⟨l, by simp [succsCases, hl], fun s => ?_⟩
      have h1 : ¬ ∃ d ∈ cs, d.Edge b s := fun ⟨d, hd', h⟩ => hcs' d hd' (Edge.mem d h).1
      have h2 : ¬ ∃ d ∈ cs, b ∈ d.leaves :=
        fun ⟨d, hd', h⟩ => hcs' d hd' (mem_blocks_of_mem_leaves d h)
      rw [List.exists_mem_cons_iff, List.exists_mem_cons_iff, hm]
      simp [h1, h2]
    · have hb := hb.resolve_left h
      have hi : b ∉ c.ids := fun h' => hd b h' b (mem_idsAll_of_mem_blocksAll hb) rfl
      obtain ⟨l, hl, hm⟩ := succsCases_answer cs succs hcs hb
      refine ⟨l, by simp [succsCases, succsIn_eq_none c _ hi, hl], fun s => ?_⟩
      have h1 : ¬ c.Edge b s := fun h' => h (Edge.mem c h').1
      have h2 : b ∉ c.leaves := fun h' => h (mem_blocks_of_mem_leaves c h')
      rw [List.exists_mem_cons_iff, List.exists_mem_cons_iff, hm]
      simp [h1, h2]
end

end DefFlow.Flow.Component
