import DefFlow.Proofs.Tree.Straight

/-!
# Simple trees

A tree is simple if every structure in it is needed. Flattening makes a held component simple,
and it leaves a simple component as it is. Any other component loses a structure.
-/

set_option autoImplicit false

namespace DefFlow.Flow.Component

mutual
/-- No sequence is an element of a sequence or has a single element, and every fork has at least
two cases. -/
def Simple : Component → Prop
  | .block _ => True
  | .seq _ elements =>
    elements.length ≠ 1 ∧ (∀ c ∈ elements, c.kind ≠ .seq) ∧ SimpleAll elements
  | .fork _ _ cases => 2 ≤ cases.length ∧ SimpleAll cases
  | .loop _ start _ body update _ => start.Simple ∧ body.Simple ∧ update.Simple

def SimpleAll : List Component → Prop
  | [] => True
  | c :: cs => c.Simple ∧ SimpleAll cs
end

section

variable {c : Component} {cs : List Component}

theorem simpleAll_iff : SimpleAll cs ↔ ∀ c ∈ cs, c.Simple := by
  induction cs with
  | nil => simp [SimpleAll]
  | cons c cs ih => simp [SimpleAll, ih]

/-! ## Flattening makes simple -/

/-- The elements of a simple sequence are simple, and none of them is a sequence. -/
theorem Simple.spliced (h : c.Simple) : ∀ e ∈ c.spliced, e.kind ≠ .seq ∧ e.Simple := by
  intro e he
  cases c with
  | seq i elements =>
    rw [Simple] at h
    exact ⟨h.2.1 e he, simpleAll_iff.mp h.2.2 e he⟩
  | block =>
    obtain rfl := List.mem_singleton.mp he
    exact ⟨by simp [kind], h⟩
  | fork =>
    obtain rfl := List.mem_singleton.mp he
    exact ⟨by simp [kind], h⟩
  | loop =>
    obtain rfl := List.mem_singleton.mp he
    exact ⟨by simp [kind], h⟩

/-- A held sequence of simple parts loses its shell if there is only one of them. -/
theorem simple_collapse (id : NodeId) (h : ∀ e ∈ cs, e.kind ≠ .seq ∧ e.Simple) :
    (collapse true id cs).Simple := by
  match cs with
  | [c] => exact (h c List.mem_cons_self).2
  | [] => exact ⟨by simp, by simp, trivial⟩
  | c :: d :: cs =>
    exact ⟨by simp, fun e he => (h e he).1, simpleAll_iff.mpr fun e he => (h e he).2⟩

mutual
theorem flatten_simple (next : NodeId) : (c : Component) → (c.flatten true next).1.Simple
  | .block _ => trivial
  | .seq i elements => by
    refine simple_collapse i fun e he => ?_
    obtain ⟨d, hd, he⟩ := List.mem_flatMap.mp he
    exact (flattenAll_simple next elements d hd).spliced e he
  | .fork i cond cases => by
    have hall := flattenAll_simple next cases
    rw [flatten]
    generalize flattenAll next cases = r at hall
    obtain ⟨ds, n⟩ := r
    match ds with
    | [] => trivial
    | [d] =>
      -- The condition comes before the elements of the only case.
      refine simple_collapse n fun e he => ?_
      rcases List.mem_cons.mp he with rfl | he
      · exact ⟨by simp [kind], trivial⟩
      · exact (hall d List.mem_cons_self).spliced e he
    | d :: e :: ds => exact ⟨by simp, simpleAll_iff.mpr hall⟩
  | .loop i start cond body update after =>
    ⟨flatten_simple next start, flatten_simple _ body, flatten_simple _ update⟩

theorem flattenAll_simple (next : NodeId) : (cs : List Component) →
    ∀ c ∈ (flattenAll next cs).1, c.Simple
  | [], _, hc => nomatch hc
  | c :: cs, d, hd => by
    rcases List.mem_cons.mp hd with rfl | hd
    · exact flatten_simple next c
    · exact flattenAll_simple _ cs d hd
end

/-! ## Nothing to flatten -/

theorem flatMap_spliced_of_simple (h : ∀ c ∈ cs, c.kind ≠ .seq) : cs.flatMap spliced = cs := by
  induction cs with
  | nil => rfl
  | cons c cs ih =>
    have hc : c.spliced = [c] := by
      cases c with
      | seq => exact absurd rfl (h _ List.mem_cons_self)
      | block => rfl
      | fork => rfl
      | loop => rfl
    rw [List.flatMap_cons, hc, ih fun d hd => h d (List.mem_cons_of_mem _ hd)]
    rfl

theorem collapse_of_length (held : Bool) (id : NodeId) (h : cs.length ≠ 1) :
    collapse held id cs = .seq id cs := by
  match held, cs with
  | true, [c] => exact absurd rfl h
  | true, [] => rfl
  | true, c :: d :: cs => rfl
  | false, cs => rfl

mutual
theorem flatten_of_simple (held : Bool) (next : NodeId) : (c : Component) → c.Simple →
    c.flatten held next = (c, next)
  | .block _, _ => rfl
  | .seq i elements, h => by
    rw [Simple] at h
    rw [flatten, flattenAll_of_simple next elements h.2.2]
    dsimp only
    rw [flatMap_spliced_of_simple h.2.1, collapse_of_length held i h.1]
  | .fork i cond cases, h => by
    rw [Simple] at h
    rw [flatten, flattenAll_of_simple next cases h.2]
    match held, cases with
    | true, c :: d :: cs => rfl
    | false, c :: d :: cs => rfl
  | .loop i start cond body update after, h => by
    rw [Simple] at h
    rw [flatten, flatten_of_simple true next start h.1]
    dsimp only
    rw [flatten_of_simple true next body h.2.1]
    dsimp only
    rw [flatten_of_simple true next update h.2.2]

theorem flattenAll_of_simple (next : NodeId) : (cs : List Component) → SimpleAll cs →
    flattenAll next cs = (cs, next)
  | [], _ => rfl
  | c :: cs, h => by
    rw [SimpleAll] at h
    rw [flattenAll, flatten_of_simple true next c h.1]
    dsimp only
    rw [flattenAll_of_simple next cs h.2]
end

/-! ## Something to flatten -/

def oldShells (bound : NodeId) (cs : List Component) : Nat :=
  (shellsAll cs).countP (decide <| · < bound)

variable {bound i : NodeId} {ds : List Component}

theorem oldShells_cons :
    oldShells bound (c :: cs) = oldShells bound [c] + oldShells bound cs := by
  simp only [oldShells, shellsAll, List.append_nil, List.countP_append]

theorem oldShells_seq : oldShells bound [.seq i cs] =
    (if i < bound then 1 else 0) + oldShells bound cs := by
  simp only [oldShells, shellsAll, shells, List.append_nil, List.countP_cons, decide_eq_true_eq]
  exact Nat.add_comm _ _

theorem oldShells_fork {cond : NodeId} : oldShells bound [.fork i cond cs] =
    (if i < bound then 1 else 0) + oldShells bound cs := by
  simp only [oldShells, shellsAll, shells, List.append_nil, List.countP_cons, decide_eq_true_eq]
  exact Nat.add_comm _ _

theorem oldShells_loop {cond after : NodeId} {start body update : Component} :
    oldShells bound [.loop i start cond body update after] = (if i < bound then 1 else 0) +
      oldShells bound [start] + oldShells bound [body] + oldShells bound [update] := by
  simp only [oldShells, shellsAll, shells, List.append_nil, List.cons_append, List.countP_cons,
    List.countP_append, decide_eq_true_eq]
  omega

/-- Taking elements out of a sequence costs the number of the sequence. -/
theorem oldShells_spliced (h : c.kind = .seq) (hb : ∀ s ∈ c.shells, s < bound) :
    oldShells bound c.spliced + 1 = oldShells bound [c] := by
  cases c with
  | seq i elements =>
    rw [shells, List.forall_mem_cons] at hb
    rw [oldShells_seq, if_pos hb.1, Component.spliced]
    exact Nat.add_comm _ _
  | block => cases h
  | fork => cases h
  | loop => cases h

theorem oldShells_spliced_le (bound : NodeId) (c : Component) :
    oldShells bound c.spliced ≤ oldShells bound [c] := by
  cases c with
  | seq i elements =>
    rw [oldShells_seq, Component.spliced]
    exact Nat.le_add_left _ _
  | block => exact Nat.le_refl _
  | fork => exact Nat.le_refl _
  | loop => exact Nat.le_refl _

theorem oldShells_append : oldShells bound (cs ++ ds) =
    oldShells bound cs + oldShells bound ds := by
  rw [oldShells, shellsAll_append, List.countP_append]
  rfl

theorem oldShells_flatMap_le (bound : NodeId) (cs : List Component) :
    oldShells bound (cs.flatMap Component.spliced) ≤ oldShells bound cs := by
  induction cs with
  | nil => exact Nat.le_refl _
  | cons c cs ih =>
    rw [List.flatMap_cons, oldShells_append, oldShells_cons]
    exact Nat.add_le_add (oldShells_spliced_le bound c) ih

theorem oldShells_flatMap_lt (hb : ∀ s ∈ shellsAll cs, s < bound) (hc : c ∈ cs)
    (hk : c.kind = .seq) :
    oldShells bound (cs.flatMap Component.spliced) < oldShells bound cs := by
  induction cs with
  | nil => cases hc
  | cons d cs ih =>
    simp only [shellsAll, List.mem_append] at hb
    rw [List.flatMap_cons, oldShells_append, oldShells_cons]
    rcases List.mem_cons.mp hc with rfl | hc
    · have := oldShells_spliced hk fun s hs => hb s (Or.inl hs)
      have := oldShells_flatMap_le bound cs
      omega
    · have := ih (fun s hs => hb s (Or.inr hs)) hc
      have := oldShells_spliced_le bound d
      omega

theorem oldShells_collapse_le (bound i : NodeId) (held : Bool) (cs : List Component) :
    oldShells bound [collapse held i cs] ≤ (if i < bound then 1 else 0) + oldShells bound cs := by
  unfold collapse
  split
  · exact Nat.le_add_left _ _
  · exact Nat.le_of_eq oldShells_seq

theorem oldShells_flatten_le {next : NodeId}
    (h : c.Simple ∨ oldShells bound [(c.flatten true next).1] < oldShells bound [c]) :
    oldShells bound [(c.flatten true next).1] ≤ oldShells bound [c] := by
  rcases h with hs | hlt
  · exact Nat.le_of_eq (by rw [flatten_of_simple true next c hs])
  · exact Nat.le_of_lt hlt

theorem oldShells_flattenAll_le {next : NodeId}
    (h : SimpleAll cs ∨ oldShells bound (flattenAll next cs).1 < oldShells bound cs) :
    oldShells bound (flattenAll next cs).1 ≤ oldShells bound cs := by
  rcases h with hs | hlt
  · exact Nat.le_of_eq (by rw [flattenAll_of_simple next cs hs])
  · exact Nat.le_of_lt hlt

mutual
/-- A component that is not simple loses one of its structures. -/
theorem simple_or_loses {next : NodeId} (hn : bound ≤ next) : (c : Component) →
    (∀ s ∈ c.shells, s < bound) →
    c.Simple ∨ oldShells bound [(c.flatten true next).1] < oldShells bound [c]
  | .block _, _ => Or.inl trivial
  | .seq i elements, h => by
    rw [shells, List.forall_mem_cons] at h
    rw [flatten, oldShells_seq, if_pos h.1]
    have hle := oldShells_collapse_le bound i true
      ((flattenAll next elements).1.flatMap Component.spliced)
    rw [if_pos h.1] at hle
    have hflat := oldShells_flatMap_le bound (flattenAll next elements).1
    rcases simpleAll_or_loses hn elements h.2 with hs | hlt
    · rw [flattenAll_of_simple next elements hs] at hle hflat ⊢
      dsimp only at hle hflat ⊢
      by_cases hk : ∃ e ∈ elements, e.kind = .seq
      · obtain ⟨e, he, hk⟩ := hk
        have := oldShells_flatMap_lt h.2 he hk
        exact Or.inr (by omega)
      · have hk' : ∀ e ∈ elements, e.kind ≠ .seq := fun e he hs => hk ⟨e, he, hs⟩
        rw [flatMap_spliced_of_simple hk']
        by_cases hl : elements.length = 1
        · obtain ⟨e, rfl⟩ := List.length_eq_one_iff.mp hl
          exact Or.inr (Nat.lt_add_of_pos_left Nat.one_pos)
        · exact Or.inl ⟨hl, hk', hs⟩
    · exact Or.inr (by dsimp only; omega)
  | .fork i cond cases, h => by
    rw [shells, List.forall_mem_cons] at h
    have hall := simpleAll_or_loses hn cases h.2
    have hle := oldShells_flattenAll_le hall
    have hnext := le_flattenAll next cases
    rw [flatten, oldShells_fork, if_pos h.1]
    cases hr : flattenAll next cases with
    | mk ds n =>
    rw [hr] at hall hle hnext
    match ds, hr with
    | [], _ => exact Or.inr (Nat.lt_of_lt_of_le Nat.one_pos (Nat.le_add_right _ _))
    | [d], _ =>
      -- The new sequence has a new number.
      have hcollapse := oldShells_collapse_le bound n true (.block cond :: d.spliced)
      rw [if_neg (Nat.not_lt.mpr (Nat.le_trans hn hnext)),
        oldShells_cons (c := .block cond)] at hcollapse
      have hd := oldShells_spliced_le bound d
      have hcond : oldShells bound [.block cond] = 0 := rfl
      exact Or.inr (by dsimp only at hle ⊢; omega)
    | d :: e :: ds, hr =>
      rw [oldShells_fork, if_pos h.1]
      refine hall.imp (fun hs => ?_) fun hlt => Nat.add_lt_add_left hlt 1
      rw [flattenAll_of_simple next cases hs, Prod.mk.injEq] at hr
      exact ⟨by rw [hr.1]; simp, hs⟩
  | .loop i start cond body update after, h => by
    simp only [shells, List.cons_append, List.mem_cons, List.mem_append] at h
    have h₁ := simple_or_loses hn start fun s hs => h s (by simp [hs])
    have h₂ := simple_or_loses (Nat.le_trans hn (le_flatten true next start)) body
      fun s hs => h s (by simp [hs])
    have h₃ := simple_or_loses (Nat.le_trans (Nat.le_trans hn (le_flatten true next start))
      (le_flatten true _ body)) update fun s hs => h s (by simp [hs])
    have k₁ := oldShells_flatten_le h₁
    have k₂ := oldShells_flatten_le h₂
    have k₃ := oldShells_flatten_le h₃
    rw [flatten, oldShells_loop, oldShells_loop]
    by_cases hs : start.Simple ∧ body.Simple ∧ update.Simple
    · exact Or.inl hs
    · refine Or.inr ?_
      have hlt : oldShells bound [(start.flatten true next).1] < oldShells bound [start] ∨
          oldShells bound [(body.flatten true (start.flatten true next).2).1] <
            oldShells bound [body] ∨
          oldShells bound [(update.flatten true
            (body.flatten true (start.flatten true next).2).2).1] < oldShells bound [update] := by
        grind
      omega

theorem simpleAll_or_loses {next : NodeId} (hn : bound ≤ next) : (cs : List Component) →
    (∀ s ∈ shellsAll cs, s < bound) →
    SimpleAll cs ∨ oldShells bound (flattenAll next cs).1 < oldShells bound cs
  | [], _ => Or.inl trivial
  | c :: cs, h => by
    simp only [shellsAll, List.mem_append] at h
    have h₁ := simple_or_loses hn c fun s hs => h s (Or.inl hs)
    have h₂ := simpleAll_or_loses (Nat.le_trans hn (le_flatten true next c)) cs
      fun s hs => h s (Or.inr hs)
    rw [flattenAll]
    dsimp only
    rw [oldShells_cons, oldShells_cons (c := c)]
    rcases h₁ with h₁ | h₁ <;> rcases h₂ with h₂ | h₂
    · exact Or.inl ⟨h₁, h₂⟩
    · rw [flatten_of_simple true next c h₁] at h₂ ⊢
      exact Or.inr (Nat.add_lt_add_left h₂ _)
    · rw [flattenAll_of_simple _ cs h₂]
      exact Or.inr (Nat.add_lt_add_right h₁ _)
    · exact Or.inr (Nat.add_lt_add h₁ h₂)
end

/-- A component is as it was, or it has lost one of its structures. -/
theorem same_or_loses (held : Bool) {next : NodeId} (hn : bound ≤ next)
    (h : ∀ s ∈ c.shells, s < bound) : (c.flatten held next).1 = c ∨
      oldShells bound [(c.flatten held next).1] < oldShells bound [c] := by
  cases held with
  | true => exact (simple_or_loses hn c h).imp_left fun hs => by rw [flatten_of_simple _ _ _ hs]
  | false =>
    cases c with
    | block => exact .inl rfl
    | seq i elements =>
      rw [shells, List.forall_mem_cons] at h
      have hflatten : ((Component.seq i elements).flatten false next).1 =
          .seq i ((flattenAll next elements).1.flatMap Component.spliced) := by
        rw [flatten]
        rfl
      have hflat := oldShells_flatMap_le bound (flattenAll next elements).1
      rw [hflatten, oldShells_seq, oldShells_seq]
      rcases simpleAll_or_loses hn elements h.2 with hs | hlt
      · rw [flattenAll_of_simple next elements hs]
        by_cases hk : ∃ e ∈ elements, e.kind = .seq
        · obtain ⟨e, he, hk⟩ := hk
          exact .inr (Nat.add_lt_add_left (oldShells_flatMap_lt h.2 he hk) _)
        · exact .inl (by rw [flatMap_spliced_of_simple fun e he hs => hk ⟨e, he, hs⟩])
      · exact .inr (Nat.add_lt_add_left (Nat.lt_of_le_of_lt hflat hlt) _)
    | fork i cond cases =>
      rw [shells, List.forall_mem_cons] at h
      rw [flatten, oldShells_fork, oldShells_fork]
      rcases simpleAll_or_loses hn cases h.2 with hs | hlt
      · exact .inl (by rw [flattenAll_of_simple next cases hs])
      · exact .inr (Nat.add_lt_add_left hlt _)
    | loop i start cond body update after =>
      exact (simple_or_loses hn _ h).imp_left fun hs => by rw [flatten_of_simple _ _ _ hs]

theorem flatten_of_ids {held : Bool} {next : NodeId} (hb : ∀ s ∈ c.ids, s < next)
    (h : (c.flatten held next).1.ids = c.ids) : (c.flatten held next).1 = c := by
  obtain ⟨extra, halike, -⟩ := flatten_alike held next c
  have hblocks : (c.flatten held next).1.blocks = c.blocks := by
    rw [← blocksAll_singleton, halike.blocks, blocksAll_singleton]
  have hshells : (c.flatten held next).1.shells.Perm c.shells := by
    have h₁ := ids_perm (c.flatten held next).1
    rw [h, hblocks] at h₁
    exact (List.perm_append_right_iff _).mp (h₁.symm.trans (ids_perm c))
  have hsame : oldShells next [(c.flatten held next).1] = oldShells next [c] := by
    simp only [oldShells, shellsAll, List.append_nil]
    exact hshells.countP_eq _
  refine (same_or_loses held (Nat.le_refl next) fun s hs =>
    hb s ((ids_perm c).mem_iff.mpr (List.mem_append_left _ hs))).resolve_right fun hlt => ?_
  exact absurd hsame (Nat.ne_of_lt hlt)

/-! ## Weights -/

mutual
def weight : Component → Nat
  | .block _ => 0
  | .seq _ elements => weightAll elements + 1
  | .fork _ _ cases => weightAll cases + 2
  | .loop _ start _ body update _ => start.weight + body.weight + update.weight + 1

def weightAll : List Component → Nat
  | [] => 0
  | c :: cs => c.weight + weightAll cs
end

theorem weightAll_append (cs ds : List Component) :
    weightAll (cs ++ ds) = weightAll cs + weightAll ds := by
  induction cs with
  | nil => simp [weightAll]
  | cons c cs ih => rw [List.cons_append, weightAll, weightAll, ih, Nat.add_assoc]

theorem weight_le_of_mem (hc : c ∈ cs) : c.weight ≤ weightAll cs := by
  obtain ⟨l, r, rfl⟩ := List.append_of_mem hc
  rw [weightAll_append, weightAll]
  omega

theorem weightAll_flatMap_le (cs : List Component) :
    weightAll (cs.flatMap spliced) ≤ weightAll cs := by
  induction cs with
  | nil => exact Nat.le_refl _
  | cons c cs ih =>
    rw [List.flatMap_cons, weightAll_append, weightAll]
    refine Nat.add_le_add ?_ ih
    cases c <;> simp [spliced, weightAll, weight]

theorem weight_collapse_le (held : Bool) (id : NodeId) (cs : List Component) :
    (collapse held id cs).weight ≤ weightAll cs + 1 := by
  unfold collapse
  split
  · simp [weightAll]
  · exact Nat.le_refl _

mutual
theorem weight_flatten_le (held : Bool) (next : NodeId) : (c : Component) →
    (c.flatten held next).1.weight ≤ c.weight
  | .block _ => Nat.le_refl _
  | .seq i elements => by
    have hall := weightAll_flattenAll_le next elements
    have hflat := weightAll_flatMap_le (flattenAll next elements).1
    have hcollapse := weight_collapse_le held i ((flattenAll next elements).1.flatMap spliced)
    rw [flatten, weight]
    dsimp only
    omega
  | .fork i cond cases => by
    have hall := weightAll_flattenAll_le next cases
    rw [flatten, weight]
    generalize flattenAll next cases = flat at hall
    obtain ⟨ds, n⟩ := flat
    dsimp only at hall ⊢
    split
    · exact Nat.zero_le _
    · next c =>
      have hcollapse := weight_collapse_le true n (.block cond :: c.spliced)
      have hflat := weightAll_flatMap_le [c]
      rw [List.flatMap_cons, List.flatMap_nil, List.append_nil] at hflat
      rw [weightAll, weight] at hcollapse
      dsimp only
      omega
    · rw [weight]
      omega
  | .loop i start cond body update after => by
    have h₁ := weight_flatten_le true next start
    have h₂ := weight_flatten_le true (start.flatten true next).2 body
    have h₃ := weight_flatten_le true (body.flatten true (start.flatten true next).2).2 update
    rw [flatten, weight, weight]
    omega

theorem weightAll_flattenAll_le (next : NodeId) : (cs : List Component) →
    weightAll (flattenAll next cs).1 ≤ weightAll cs
  | [] => Nat.le_refl _
  | c :: cs => by
    have h₁ := weight_flatten_le true next c
    have h₂ := weightAll_flattenAll_le (c.flatten true next).2 cs
    rw [flattenAll, weightAll, weightAll]
    omega
end

mutual
theorem weight_le_length : (c : Component) → c.weight ≤ c.ids.length
  | .block _ => Nat.zero_le _
  | .seq i elements => by
    rw [weight, ids, List.length_cons]
    exact Nat.succ_le_succ (weightAll_le_length elements)
  | .fork i cond cases => by
    rw [weight, ids, List.length_cons, List.length_cons]
    exact Nat.succ_le_succ (Nat.succ_le_succ (weightAll_le_length cases))
  | .loop i start cond body update after => by
    have h₁ := weight_le_length start
    have h₂ := weight_le_length body
    have h₃ := weight_le_length update
    simp only [weight, ids, List.length_append, List.length_cons, List.length_nil]
    omega

theorem weightAll_le_length : (cs : List Component) → weightAll cs ≤ (idsAll cs).length
  | [] => Nat.le_refl _
  | c :: cs => by
    rw [weightAll, idsAll, List.length_append]
    exact Nat.add_le_add (weight_le_length c) (weightAll_le_length cs)
end

end

end DefFlow.Flow.Component
