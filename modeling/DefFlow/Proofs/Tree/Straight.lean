import DefFlow.Proofs.Tree.Flatten
import DefFlow.Proofs.Tree.Parts
import DefFlow.Proofs.Tree.Region

/-!
# Flattening keeps the order of the edges

The leaves of a tree, and the predecessors and successors of its blocks, come in an order, which
flattening keeps as well.
-/

set_option autoImplicit false

namespace DefFlow.Flow.Component

mutual
def shells : Component → List NodeId
  | .block _ => []
  | .seq id elements => id :: shellsAll elements
  | .fork id _ cases => id :: shellsAll cases
  | .loop id start _ body update _ => id :: start.shells ++ body.shells ++ update.shells

def shellsAll : List Component → List NodeId
  | [] => []
  | c :: cs => c.shells ++ shellsAll cs
end

mutual
theorem ids_perm : (c : Component) → c.ids.Perm (c.shells ++ c.blocks)
  | .block _ => .refl _
  | .seq i elements => by
    rw [ids, shells, blocks]
    exact (idsAll_perm_shells elements).cons i
  | .fork i cond cases => by
    rw [ids, shells, blocks]
    exact (((idsAll_perm_shells cases).cons cond).trans List.perm_middle.symm).cons i
  | .loop i start cond body update after => by
    have h₁ := ids_perm start
    have h₂ := ids_perm body
    have h₃ := ids_perm update
    rw [List.perm_iff_count] at h₁ h₂ h₃ ⊢
    intro a
    simp only [ids, shells, blocks, List.count_cons, List.count_append,
        List.cons_append, h₁, h₂, h₃]
    omega

theorem idsAll_perm_shells : (cs : List Component) →
    (idsAll cs).Perm (shellsAll cs ++ blocksAll cs)
  | [] => .refl _
  | c :: cs => by
    have h₁ := ids_perm c
    have h₂ := idsAll_perm_shells cs
    rw [List.perm_iff_count] at h₁ h₂ ⊢
    intro a
    simp only [idsAll, shellsAll, blocksAll, List.count_append, h₁, h₂]
    omega
end

theorem not_mem_shells {c : Component} {b : NodeId} (hn : c.ids.Nodup) (hb : b ∈ c.blocks) :
    b ∉ c.shells := fun hs =>
  (List.nodup_append.mp ((ids_perm c).nodup_iff.mp hn)).2.2 b hs b hb rfl

structure Straight (b : NodeId) (cs ds : List Component) : Prop where
  shells : b ∉ shellsAll ds
  leaves : leavesLast ds = leavesLast cs
  preds : ∀ preds, predsElements b preds ds = predsElements b preds cs
  entry : entryAll ds = entryAll cs
  succs : ∀ succs, succs.Nodup → succsElements b succs ds = succsElements b succs cs

section

variable {b i cond : NodeId} {c d : Component} {cs ds es cs' ds' : List Component}

theorem orElse_assoc (j k l : List NodeId) : orElse j (orElse k l) = orElse (orElse j k) l := by
  cases j with
  | nil => rfl
  | cons x j => rfl

theorem leavesLast_append : leavesLast (cs ++ ds) = orElse (leavesLast ds) (leavesLast cs) := by
  induction cs with
  | nil => rw [List.nil_append, leavesLast]; cases leavesLast ds <;> rfl
  | cons c cs ih => rw [List.cons_append, leavesLast, leavesLast, ih, orElse_assoc]

theorem leavesCases_cons : leavesCases cond (c :: d :: cs) =
    orElse c.leaves [cond] ++ leavesCases cond (d :: cs) := by
  rw [leavesCases]
  simp

theorem shellsAll_append : shellsAll (cs ++ ds) = shellsAll cs ++ shellsAll ds := by
  induction cs with
  | nil => rfl
  | cons c cs ih => rw [List.cons_append, shellsAll, shellsAll, ih, List.append_assoc]

theorem predsElements_append (preds : List NodeId) :
    predsElements b preds (cs ++ ds) =
      (predsElements b preds cs).or (predsElements b (orElse (leavesLast cs) preds) ds) := by
  induction cs generalizing preds with
  | nil => rfl
  | cons c cs ih =>
    rw [List.cons_append, predsElements, predsElements, ih, Option.or_assoc, leavesLast, exits,
      orElse_assoc]

theorem predsElements_singleton (preds : List NodeId) :
    predsElements b preds [c] = c.predsIn b preds := by
  rw [predsElements, predsElements, Option.or_none]

theorem entryAll_singleton : entryAll [c] = c.entry := by rw [entryAll, entryAll, Option.or_none]

theorem enterAll_singleton (succs : List NodeId) : enterAll [c] succs = c.enter succs := by
  rw [enterAll, entryAll_singleton, enter]

theorem enterAll_append (succs : List NodeId) :
    enterAll (cs ++ ds) succs = enterAll cs (enterAll ds succs) := by
  rw [enterAll, enterAll, enterAll, entryAll_append]
  cases entryAll cs <;> rfl

theorem succsElements_append (succs : List NodeId) :
    succsElements b succs (cs ++ ds) =
      (succsElements b (enterAll ds succs) cs).or (succsElements b succs ds) := by
  induction cs with
  | nil => rfl
  | cons c cs ih =>
    rw [List.cons_append, succsElements, succsElements, ih, Option.or_assoc, enterAll_append]

theorem succsElements_singleton (succs : List NodeId) :
    succsElements b succs [c] = c.succsIn b succs := by
  rw [succsElements, succsElements, Option.or_none]
  rfl

namespace Straight

theorem refl (h : b ∉ shellsAll cs) : Straight b cs cs :=
  ⟨h, rfl, fun _ => rfl, rfl, fun _ _ => rfl⟩

theorem trans (h : Straight b cs ds) (h' : Straight b ds es) : Straight b cs es :=
  ⟨h'.shells, h'.leaves.trans h.leaves, fun k => (h'.preds k).trans (h.preds k),
    h'.entry.trans h.entry, fun k hk => (h'.succs k hk).trans (h.succs k hk)⟩

theorem append (h : Straight b cs ds) (h' : Straight b cs' ds') :
    Straight b (cs ++ cs') (ds ++ ds') where
  shells := by
    rw [shellsAll_append, List.mem_append, not_or]
    exact ⟨h.shells, h'.shells⟩
  leaves := by rw [leavesLast_append, leavesLast_append, h.leaves, h'.leaves]
  preds k := by rw [predsElements_append, predsElements_append, h.leaves, h.preds, h'.preds]
  entry := by rw [entryAll_append, entryAll_append, h.entry, h'.entry]
  succs k hk := by
    have henter : enterAll ds' k = enterAll cs' k := by rw [enterAll, enterAll, h'.entry]
    rw [succsElements_append, succsElements_append, henter, h.succs _ (enterAll_nodup cs' hk),
      h'.succs k hk]

theorem of_single (hs : b ∉ d.shells) (hl : d.leaves = c.leaves)
    (hp : ∀ preds, d.predsIn b preds = c.predsIn b preds) (he : d.entry = c.entry)
    (hn : ∀ succs, succs.Nodup → d.succsIn b succs = c.succsIn b succs) :
    Straight b [c] [d] where
  shells := by simpa [shellsAll] using hs
  leaves := by rw [leavesLast_singleton, leavesLast_singleton, hl]
  preds k := by rw [predsElements_singleton, predsElements_singleton, hp]
  entry := by rw [entryAll_singleton, entryAll_singleton, he]
  succs k hk := by rw [succsElements_singleton, succsElements_singleton, hn k hk]

section

variable (h : Straight b [c] [d])

include h

theorem shells_one : b ∉ d.shells := by simpa [shellsAll] using h.shells

theorem leaves_one : d.leaves = c.leaves := by
  rw [← leavesLast_singleton d, h.leaves, leavesLast_singleton]

theorem predsIn (preds : List NodeId) : d.predsIn b preds = c.predsIn b preds := by
  rw [← predsElements_singleton, h.preds, predsElements_singleton]

theorem enter (succs : List NodeId) : d.enter succs = c.enter succs := by
  rw [← enterAll_singleton, ← enterAll_singleton, enterAll, enterAll, h.entry]

theorem succsIn {succs : List NodeId} (hn : succs.Nodup) :
    d.succsIn b succs = c.succsIn b succs := by
  rw [← succsElements_singleton, h.succs succs hn, succsElements_singleton]

end

/-! ### Sequences -/

theorem shell (h : b ∉ shellsAll cs) (hi : i ≠ b) : Straight b cs [.seq i cs] where
  shells := by
    rw [shellsAll, Component.shells, shellsAll, List.append_nil, List.mem_cons, not_or]
    exact ⟨hi.symm, h⟩
  leaves := rfl
  preds k := by rw [predsElements_singleton, Component.predsIn, if_neg hi]
  entry := by rw [entryAll_singleton, Component.entry]
  succs k _ := by rw [succsElements_singleton, Component.succsIn, if_neg hi]

theorem unshell (h : b ∉ shellsAll cs) (hi : i ≠ b) : Straight b [.seq i cs] cs :=
  have hs := shell h hi
  ⟨h, hs.leaves.symm, fun k => (hs.preds k).symm, hs.entry.symm, fun k hk => (hs.succs k hk).symm⟩

theorem spliced (h : b ∉ c.shells) : Straight b [c] c.spliced := by
  cases c with
  | seq i elements =>
    rw [Component.shells, List.mem_cons, not_or] at h
    exact unshell h.2 (Ne.symm h.1)
  | block => exact .refl (by simpa [shellsAll] using h)
  | fork => exact .refl (by simpa [shellsAll] using h)
  | loop => exact .refl (by simpa [shellsAll] using h)

theorem flatMap_spliced : {cs : List Component} → b ∉ shellsAll cs →
    Straight b cs (cs.flatMap Component.spliced)
  | [], h => .refl h
  | c :: cs, h => by
    rw [shellsAll, List.mem_append, not_or] at h
    exact (spliced h.1).append (flatMap_spliced h.2)

theorem collapse_new (h : Straight b cs ds) (held : Bool) (hi : i ≠ b) :
    Straight b cs [collapse held i ds] := by
  unfold collapse
  split
  · exact h
  · exact h.trans (shell h.shells hi)

theorem collapse (h : Straight b cs ds) (held : Bool) (hi : i ≠ b) (hs : b ∉ shellsAll cs) :
    Straight b [.seq i cs] [collapse held i ds] :=
  (unshell hs hi).trans (h.collapse_new held hi)

/-! ### Forks and loops -/

abbrev Each (b : NodeId) : List Component → List Component → Prop :=
  List.Forall₂ fun c d => Straight b [c] [d]

theorem Each.straight (h : Each b cs ds) : Straight b cs ds := by
  induction h with
  | nil => exact .refl (by simp [shellsAll])
  | cons hc _ ih => exact hc.append ih

theorem Each.leavesCases (h : Each b cs ds) :
    Component.leavesCases cond ds = Component.leavesCases cond cs := by
  induction h with
  | nil => rfl
  | cons hc hcs ih =>
    cases hcs with
    | nil => rw [Component.leavesCases, Component.leavesCases, hc.leaves_one]
    | cons _ _ => rw [leavesCases_cons, leavesCases_cons, hc.leaves_one, ih]

theorem Each.predsCases (h : Each b cs ds) (k : List NodeId) :
    Component.predsCases b k ds = Component.predsCases b k cs := by
  induction h with
  | nil => rfl
  | cons hc _ ih => rw [Component.predsCases, Component.predsCases, hc.predsIn, ih]

theorem Each.enter (h : Each b cs ds) (k : List NodeId) :
    ds.flatMap (Component.enter · k) = cs.flatMap (Component.enter · k) := by
  induction h with
  | nil => rfl
  | cons hc _ ih => rw [List.flatMap_cons, List.flatMap_cons, hc.enter, ih]

theorem Each.succsCases (h : Each b cs ds) {k : List NodeId} (hk : k.Nodup) :
    Component.succsCases b k ds = Component.succsCases b k cs := by
  induction h with
  | nil => rfl
  | cons hc _ ih => rw [Component.succsCases, Component.succsCases, hc.succsIn hk, ih]

theorem fork (h : Each b cs ds) (hi : i ≠ b) :
    Straight b [.fork i cond cs] [.fork i cond ds] := by
  refine of_single ?_ ?_ (fun k => ?_) rfl fun k hk => ?_
  · rw [Component.shells, List.mem_cons, not_or]
    exact ⟨hi.symm, h.straight.shells⟩
  · rw [Component.leaves, Component.leaves, h.leavesCases]
  · rw [Component.predsIn, Component.predsIn, h.predsCases]
  · have hempty : ds.isEmpty = cs.isEmpty := by cases h <;> rfl
    rw [Component.succsIn, Component.succsIn, h.enter, h.succsCases hk, hempty]

theorem fork_nil (hi : i ≠ b) : Straight b [.fork i cond []] [.block cond] := by
  refine of_single (by simp [Component.shells]) ?_ (fun k => ?_) rfl fun k _ => ?_
  · rw [Component.leaves, Component.leaves, Component.leavesCases,
      eraseDups_of_nodup (List.nodup_singleton _)]
  · rw [Component.predsIn, Component.predsIn, Component.predsCases]
    simp [hi]
  · rw [Component.succsIn, Component.succsIn, Component.succsCases]
    simp [hi]

theorem fork_one (hi : i ≠ b) (hc : b ∉ c.shells) :
    Straight b [.fork i cond [c]] [.block cond, c] where
  shells := by simpa [shellsAll, Component.shells] using hc
  leaves := by
    rw [leavesLast_singleton, Component.leaves, Component.leavesCases, leavesLast,
      leavesLast_singleton, Component.leaves,
      eraseDups_of_nodup (orElse_nodup (leaves_nodup c) (List.nodup_singleton _))]
  preds k := by
    rw [predsElements_singleton, Component.predsIn, predsElements, Component.predsIn,
      predsElements_singleton, Component.predsCases, Component.predsCases, exits, Component.leaves,
      Option.or_none]
    by_cases hcond : cond = b <;> simp [hi, hcond, orElse]
  entry := rfl
  succs k hk := by
    rw [succsElements_singleton, Component.succsIn, succsElements, Component.succsIn,
      succsElements_singleton, Component.succsCases, Component.succsCases, Option.or_none,
      enterAll_singleton, List.flatMap_singleton, eraseDups_of_nodup (enter_nodup c hk)]
    by_cases hcond : cond = b <;> simp [hi, hcond]

theorem loop {start start' body body' update update' : Component} {after : NodeId}
    (h₁ : Straight b [start] [start']) (h₂ : Straight b [body] [body'])
    (h₃ : Straight b [update] [update']) (hi : i ≠ b) :
    Straight b [.loop i start cond body update after]
        [.loop i start' cond body' update' after] := by
  have hcond : [cond].Nodup := List.nodup_singleton cond
  refine of_single ?_ rfl (fun k => ?_) ?_ fun k _ => ?_
  · simp only [Component.shells, List.mem_cons, List.mem_append, not_or]
    exact ⟨⟨⟨hi.symm, h₁.shells_one⟩, h₂.shells_one⟩, h₃.shells_one⟩
  · simp only [Component.predsIn, exits, h₁.leaves_one, h₂.leaves_one, h₃.leaves_one, h₁.predsIn,
      h₂.predsIn, h₃.predsIn]
  · have hstart := h₁.entry
    rw [entryAll_singleton, entryAll_singleton] at hstart
    rw [Component.entry, Component.entry, hstart]
  · simp only [Component.succsIn, h₂.enter, h₃.enter, h₁.succsIn hcond, h₃.succsIn hcond,
      h₂.succsIn (enter_nodup update hcond)]

end Straight

/-! ## Whole trees -/

theorem le_flatten (held : Bool) (next : NodeId) (c : Component) :
    next ≤ (c.flatten held next).2 := by
  obtain ⟨_, -, hn⟩ := flatten_alike held next c
  exact hn.le

theorem le_flattenAll (next : NodeId) (cs : List Component) : next ≤ (flattenAll next cs).2 := by
  obtain ⟨_, -, hn⟩ := flattenAll_alike next cs
  exact hn.le

mutual
theorem flatten_straight (held : Bool) {next : Nat} (hb : b < next) : (c : Component) →
    b ∉ c.shells → Straight b [c] [(c.flatten held next).1]
  | .block _, h => .refl (by simpa [shellsAll] using h)
  | .seq i elements, h => by
    rw [shells, List.mem_cons, not_or] at h
    have hall := (flattenAll_straight hb elements h.2).straight
    exact (hall.trans (.flatMap_spliced hall.shells)).collapse held (Ne.symm h.1) h.2
  | .fork i cond cases, h => by
    rw [shells, List.mem_cons, not_or] at h
    have hi : i ≠ b := Ne.symm h.1
    have hall := flattenAll_straight hb cases h.2
    have hnext := Nat.lt_of_lt_of_le hb (le_flattenAll next cases)
    rw [flatten]
    generalize flattenAll next cases = r at hall hnext
    obtain ⟨ds, n⟩ := r
    have hfork : Straight b [.fork i cond cases] [.fork i cond ds] := .fork hall hi
    dsimp only
    split
    · exact hfork.trans (.fork_nil hi)
    · next c =>
      have hc : b ∉ c.shells := by simpa [shellsAll] using hall.straight.shells
      have hone := hfork.trans (.fork_one hi hc)
      have hcond : Straight b [.block cond] [.block cond] := .refl (by simp [shellsAll, shells])
      have hflat := hone.trans (hcond.append (.spliced hc))
      exact hflat.collapse_new true (Nat.ne_of_gt hnext)
    · exact hfork
  | .loop i start cond body update after, h => by
    simp only [shells, List.mem_cons, List.mem_append, not_or] at h
    obtain ⟨⟨⟨hi, h₁⟩, h₂⟩, h₃⟩ := h
    have hb₂ := Nat.lt_of_lt_of_le hb (le_flatten true next start)
    have hb₃ := Nat.lt_of_lt_of_le hb₂ (le_flatten true _ body)
    exact .loop (flatten_straight true hb start h₁) (flatten_straight true hb₂ body h₂)
      (flatten_straight true hb₃ update h₃) (Ne.symm hi)

theorem flattenAll_straight {next : Nat} (hb : b < next) : (cs : List Component) →
    b ∉ shellsAll cs → Straight.Each b cs (flattenAll next cs).1
  | [], _ => .nil
  | c :: cs, h => by
    rw [shellsAll, List.mem_append, not_or] at h
    exact .cons (flatten_straight true hb c h.1)
      (flattenAll_straight (Nat.lt_of_lt_of_le hb (le_flatten true next c)) cs h.2)
end

mutual
/-- A part is exchanged for one that leads on in the same way. -/
theorem modify_straight {t : NodeId} {g : Component → Component} : (c : Component) →
    b ∉ c.shells → (∀ d, Within d c → d.id = t → b ∉ d.shells → Straight b [d] [g d]) →
    Straight b [c] [c.modify t g]
  | .block i, h, hg => by
    rw [modify]
    split
    · next hi => exact hg _ .here hi h
    · exact .refl (by simpa [shellsAll] using h)
  | .seq i elements, h, hg => by
    rw [modify]
    split
    · next hi => exact hg _ .here hi h
    · rw [shells, List.mem_cons, not_or] at h
      have hall := modifyAll_straight elements h.2 fun d hd hid => by
        obtain ⟨c, hc, hd⟩ := hd
        obtain ⟨l, r, hlr⟩ := List.append_of_mem hc
        exact hg d (by rw [hlr]; exact .element hd) hid
      exact hall.straight.collapse false (Ne.symm h.1) h.2
  | .fork i cond cases, h, hg => by
    rw [modify]
    split
    · next hi => exact hg _ .here hi h
    · rw [shells, List.mem_cons, not_or] at h
      refine .fork (modifyAll_straight cases h.2 fun d hd hid => ?_) (Ne.symm h.1)
      obtain ⟨c, hc, hd⟩ := hd
      obtain ⟨l, r, hlr⟩ := List.append_of_mem hc
      exact hg d (by rw [hlr]; exact .case hd) hid
  | .loop i start cond body update after, h, hg => by
    rw [modify]
    split
    · next hi => exact hg _ .here hi h
    · simp only [shells, List.mem_cons, List.mem_append, not_or] at h
      obtain ⟨⟨⟨hi, h₁⟩, h₂⟩, h₃⟩ := h
      exact .loop (modify_straight start h₁ fun d hd => hg d (.start hd))
        (modify_straight body h₂ fun d hd => hg d (.body hd))
        (modify_straight update h₃ fun d hd => hg d (.update hd)) (Ne.symm hi)

theorem modifyAll_straight {t : NodeId} {g : Component → Component} : (cs : List Component) →
    b ∉ shellsAll cs → (∀ d, d.PartOf cs → d.id = t → b ∉ d.shells → Straight b [d] [g d]) →
    Straight.Each b cs (modifyAll t g cs)
  | [], _, _ => .nil
  | c :: cs, h, hg => by
    rw [shellsAll, List.mem_append, not_or] at h
    exact .cons (modify_straight c h.1 fun d hd => hg d ⟨c, List.mem_cons_self, hd⟩)
      (modifyAll_straight cs h.2 fun d ⟨e, he, hd⟩ => hg d ⟨e, List.mem_cons_of_mem _ he, hd⟩)
end

end

end DefFlow.Flow.Component
