import DefFlow.Proofs.Tree.Cut
import DefFlow.Proofs.Tree.Straight
import Mathlib.Logic.Equiv.Basic

/-!
# The order of the edges around a cut

When the second half of a block is put behind the first, the leaves of the tree and the
predecessors of its blocks keep their order, with the second half in the place of the first. The
first half leads to the second only, and the second where the first has led.
-/

set_option autoImplicit false

namespace DefFlow.Flow.Component

/-- What has become of a question about the block `t` when `b` is cut: it is one about `t'`, and
`p` and `s` say what becomes of the predecessors and of the successors. -/
inductive Recast (b b' : NodeId) :
    NodeId → NodeId → (List NodeId → List NodeId) → (List NodeId → List NodeId) → Prop
  | other {t : NodeId} (h : t ≠ b) (h' : t ≠ b') :
      Recast b b' t t (List.map (Equiv.swap b b')) fun l => l
  | first : Recast b b' b b (List.map (Equiv.swap b b')) fun _ => [b']
  | second : Recast b b' b b' (fun _ => [b]) fun l => l

structure Cleaves (b b' t t' : NodeId) (p s : List NodeId → List NodeId)
    (cs ds : List Component) : Prop where
  leaves : leavesLast ds = (leavesLast cs).map (Equiv.swap b b')
  entry : entryAll ds = entryAll cs
  preds : ∀ k, predsElements t' (k.map (Equiv.swap b b')) ds = (predsElements t k cs).map p
  succs : ∀ k, succsElements t' k ds = (succsElements t k cs).map s

section

variable {b b' t t' i x cond after : NodeId} {p s : List NodeId → List NodeId}
  {c d : Component} {cs ds cs' ds' : List Component}

namespace Recast

/-- A block or structure that has not been cut is what it was. -/
theorem iff (I : Recast b b' t t' p s) (hx : x ≠ b) (hx' : x ≠ b') : x = t' ↔ x = t := by
  cases I with
  | other => rfl
  | first => rfl
  | second => exact iff_of_false hx' hx

theorem plain (I : Recast b b' t t' p s) (ht : t ≠ b) :
    p = List.map (Equiv.swap b b') ∧ s = fun l => l := by
  cases I with
  | other => exact ⟨rfl, rfl⟩
  | _ => exact absurd rfl ht

end Recast

/-! ## Where nothing is cut -/

theorem map_swap {l : List NodeId} (h : b ∉ l) (h' : b' ∉ l) : l.map (Equiv.swap b b') = l := by
  refine (List.map_congr_left fun x hx => ?_).trans (List.map_id' l)
  exact Equiv.swap_apply_of_ne_of_ne (fun he => h (he ▸ hx)) fun he => h' (he ▸ hx)

theorem map_orElse (g : NodeId → NodeId) (l k : List NodeId) :
    orElse (l.map g) (k.map g) = (orElse l k).map g := by cases l <;> rfl

theorem leaves_apart (h : b ∉ c.ids) (h' : b' ∉ c.ids) :
    c.leaves.map (Equiv.swap b b') = c.leaves :=
  map_swap (fun hm => h (mem_ids_of_mem_blocks (mem_blocks_of_mem_leaves c hm)))
    fun hm => h' (mem_ids_of_mem_blocks (mem_blocks_of_mem_leaves c hm))

theorem exits_apart (h : b ∉ c.ids) (h' : b' ∉ c.ids) (k : List NodeId) :
    c.exits (k.map (Equiv.swap b b')) = (c.exits k).map (Equiv.swap b b') := by
  rw [exits, exits, ← map_orElse, leaves_apart h h']

mutual
/-- The predecessors within a component without either half depend on what stands before. -/
theorem predsIn_apart : (c : Component) → b ∉ c.ids → b' ∉ c.ids → ∀ k,
    c.predsIn t (k.map (Equiv.swap b b')) = (c.predsIn t k).map (List.map (Equiv.swap b b'))
  | .block i, _, _, k => by
    rw [predsIn, predsIn]
    split <;> rfl
  | .seq i elements, h, h', k => by
    rw [ids, List.mem_cons, not_or] at h h'
    rw [predsIn, predsIn, predsElements_apart elements h.2 h'.2]
    split <;> rfl
  | .fork i cond cases, h, h', k => by
    simp only [ids, List.mem_cons, not_or] at h h'
    have hcond : [cond].map (Equiv.swap b b') = [cond] :=
      map_swap (by simpa using h.2.1) (by simpa using h'.2.1)
    have hcases := predsCases_apart cases h.2.2 h'.2.2 [cond]
    rw [hcond] at hcases
    rw [predsIn, predsIn]
    split
    · rfl
    · exact hcases
  | .loop i start cond body update after, h, h', k => by
    simp only [ids, List.cons_append, List.mem_cons, List.mem_append, List.not_mem_nil, or_false,
      not_or] at h h'
    obtain ⟨-, ⟨⟨hs, hc, hb⟩, hu⟩, -⟩ := h
    obtain ⟨-, ⟨⟨hs', hc', hb'⟩, hu'⟩, -⟩ := h'
    have hcond : [cond].map (Equiv.swap b b') = [cond] :=
      map_swap (by simpa using hc) (by simpa using hc')
    have hbody := exits_apart hb hb' [cond]
    have h₂ := predsIn_apart body hb hb' [cond]
    have h₃ := predsIn_apart update hu hu' (body.exits [cond])
    have hback := exits_apart hu hu' (body.exits [cond])
    rw [hcond] at hbody h₂
    rw [← hbody] at h₃ hback
    rw [predsIn, predsIn, predsIn_apart start hs hs' k, exits_apart hs hs' k]
    split
    · rfl
    split
    · rw [Option.map_some, ← eraseDups_map (Equiv.injective _), List.map_append, ← hback]
    split
    · rw [Option.map_some, hcond]
    · rw [Option.map_or, Option.map_or, ← h₂, ← h₃]

theorem predsElements_apart : (cs : List Component) → b ∉ idsAll cs → b' ∉ idsAll cs → ∀ k,
    predsElements t (k.map (Equiv.swap b b')) cs =
      (predsElements t k cs).map (List.map (Equiv.swap b b'))
  | [], _, _, _ => rfl
  | c :: cs, h, h', k => by
    rw [idsAll, List.mem_append, not_or] at h h'
    rw [predsElements, predsElements, predsIn_apart c h.1 h'.1, exits_apart h.1 h'.1,
      predsElements_apart cs h.2 h'.2, Option.map_or]

theorem predsCases_apart : (cs : List Component) → b ∉ idsAll cs → b' ∉ idsAll cs → ∀ k,
    predsCases t (k.map (Equiv.swap b b')) cs =
      (predsCases t k cs).map (List.map (Equiv.swap b b'))
  | [], _, _, _ => rfl
  | c :: cs, h, h', k => by
    rw [idsAll, List.mem_append, not_or] at h h'
    rw [predsCases, predsCases, predsIn_apart c h.1 h'.1, predsCases_apart cs h.2 h'.2,
      Option.map_or]
end

namespace Cleaves

theorem apart (I : Recast b b' t t' p s) (h : b ∉ idsAll cs) (h' : b' ∉ idsAll cs) :
    Cleaves b b' t t' p s cs cs where
  leaves := (map_swap
    (fun hm => h (mem_idsAll_of_mem_blocksAll (mem_blocksAll_of_mem_leavesLast cs hm)))
    fun hm => h' (mem_idsAll_of_mem_blocksAll (mem_blocksAll_of_mem_leavesLast cs hm))).symm
  entry := rfl
  preds k := by
    cases I with
    | other => exact predsElements_apart cs h h' k
    | first => rw [predsElements_eq_none _ _ h, predsElements_eq_none _ _ h]; rfl
    | second => rw [predsElements_eq_none _ _ h', predsElements_eq_none _ _ h]; rfl
  succs k := by
    cases I with
    | other => rw [Option.map_id']
    | first => rw [succsElements_eq_none _ _ h]; rfl
    | second => rw [succsElements_eq_none _ _ h', succsElements_eq_none _ _ h]; rfl

theorem append (h : Cleaves b b' t t' p s cs ds) (h' : Cleaves b b' t t' p s cs' ds') :
    Cleaves b b' t t' p s (cs ++ cs') (ds ++ ds') where
  leaves := by rw [leavesLast_append, leavesLast_append, h.leaves, h'.leaves, map_orElse]
  entry := by rw [entryAll_append, entryAll_append, h.entry, h'.entry]
  preds k := by
    rw [predsElements_append, predsElements_append, h.leaves, map_orElse, h.preds, h'.preds,
      Option.map_or]
  succs k := by
    have henter : enterAll ds' k = enterAll cs' k := by rw [enterAll, enterAll, h'.entry]
    rw [succsElements_append, succsElements_append, henter, h.succs, h'.succs, Option.map_or]

theorem of_single (hl : d.leaves = c.leaves.map (Equiv.swap b b')) (he : d.entry = c.entry)
    (hp : ∀ k, d.predsIn t' (k.map (Equiv.swap b b')) = (c.predsIn t k).map p)
    (hs : ∀ k, d.succsIn t' k = (c.succsIn t k).map s) : Cleaves b b' t t' p s [c] [d] where
  leaves := hl
  entry := by rw [entryAll_singleton, entryAll_singleton, he]
  preds k := by rw [predsElements_singleton, predsElements_singleton, hp]
  succs k := by rw [succsElements_singleton, succsElements_singleton, hs]

section

variable (h : Cleaves b b' t t' p s [c] [d])

include h

theorem leaves_one : d.leaves = c.leaves.map (Equiv.swap b b') := h.leaves

theorem exits (k : List NodeId) :
    d.exits (k.map (Equiv.swap b b')) = (c.exits k).map (Equiv.swap b b') := by
  rw [Component.exits, Component.exits, h.leaves_one, map_orElse]

theorem predsIn (k : List NodeId) :
    d.predsIn t' (k.map (Equiv.swap b b')) = (c.predsIn t k).map p := by
  rw [← predsElements_singleton, h.preds, predsElements_singleton]

theorem entry_one : d.entry = c.entry := by
  rw [← entryAll_singleton, h.entry, entryAll_singleton]

theorem enter (k : List NodeId) : d.enter k = c.enter k := by
  rw [Component.enter, Component.enter, h.entry_one]

theorem succsIn (k : List NodeId) : d.succsIn t' k = (c.succsIn t k).map s := by
  rw [← succsElements_singleton, h.succs, succsElements_singleton]

end

/-! ## Around a cut -/

theorem seq (I : Recast b b' t t' p s) (h : Cleaves b b' t t' p s cs ds) (hi : i ≠ b)
    (hi' : i ≠ b') : Cleaves b b' t t' p s [.seq i cs] [.seq i ds] := by
  refine of_single h.leaves h.entry (fun k => ?_) fun k => ?_
  · rw [Component.predsIn, Component.predsIn, h.preds]
    by_cases hit : i = t
    · rw [if_pos ((I.iff hi hi').mpr hit), if_pos hit, (I.plain (hit ▸ hi)).1, Option.map_some]
    · rw [if_neg (mt (I.iff hi hi').mp hit), if_neg hit]
  · rw [Component.succsIn, Component.succsIn, h.succs]
    by_cases hit : i = t
    · rw [if_pos ((I.iff hi hi').mpr hit), if_pos hit, (I.plain (hit ▸ hi)).2, Option.map_some]
    · rw [if_neg (mt (I.iff hi hi').mp hit), if_neg hit]

abbrev Each (b b' t t' : NodeId) (p s : List NodeId → List NodeId) :
    List Component → List Component → Prop :=
  List.Forall₂ fun c d => Cleaves b b' t t' p s [c] [d]

theorem Each.leavesCases (hc : cond ≠ b) (hc' : cond ≠ b') (h : Each b b' t t' p s cs ds) :
    Component.leavesCases cond ds = (Component.leavesCases cond cs).map (Equiv.swap b b') := by
  have hcond : [cond].map (Equiv.swap b b') = [cond] :=
    map_swap (by simpa using hc.symm) (by simpa using hc'.symm)
  induction h with
  | nil => exact hcond.symm
  | cons h hs ih =>
    have hone := h.exits [cond]
    rw [hcond] at hone
    cases hs with
    | nil => exact hone
    | cons _ _ =>
      rw [leavesCases_cons, leavesCases_cons, ih, List.map_append]
      exact congrArg (· ++ _) hone

theorem Each.predsCases (h : Each b b' t t' p s cs ds) (k : List NodeId) :
    Component.predsCases t' (k.map (Equiv.swap b b')) ds =
      (Component.predsCases t k cs).map p := by
  induction h with
  | nil => rfl
  | cons hc _ ih => rw [Component.predsCases, Component.predsCases, hc.predsIn, ih, Option.map_or]

theorem Each.enter (h : Each b b' t t' p s cs ds) (k : List NodeId) :
    ds.flatMap (Component.enter · k) = cs.flatMap (Component.enter · k) := by
  induction h with
  | nil => rfl
  | cons hc _ ih => rw [List.flatMap_cons, List.flatMap_cons, hc.enter, ih]

theorem Each.succsCases (h : Each b b' t t' p s cs ds) (k : List NodeId) :
    Component.succsCases t' k ds = (Component.succsCases t k cs).map s := by
  induction h with
  | nil => rfl
  | cons hc _ ih => rw [Component.succsCases, Component.succsCases, hc.succsIn, ih, Option.map_or]

theorem fork (I : Recast b b' t t' p s) (h : Each b b' t t' p s cs ds) (hi : i ≠ b) (hi' : i ≠ b')
    (hc : cond ≠ b) (hc' : cond ≠ b') :
    Cleaves b b' t t' p s [.fork i cond cs] [.fork i cond ds] := by
  have hcond : [cond].map (Equiv.swap b b') = [cond] :=
    map_swap (by simpa using hc.symm) (by simpa using hc'.symm)
  have hcases := h.predsCases [cond]
  have hempty : ds.isEmpty = cs.isEmpty := by cases h <;> rfl
  rw [hcond] at hcases
  refine of_single ?_ rfl (fun k => ?_) fun k => ?_
  · rw [Component.leaves, Component.leaves, h.leavesCases hc hc',
      eraseDups_map (Equiv.injective _)]
  · simp only [Component.predsIn, Bool.or_eq_true, decide_eq_true_eq, I.iff hi hi', I.iff hc hc',
      hcases]
    split
    · next hit =>
      rw [(I.plain (by rcases hit with rfl | rfl <;> assumption)).1, Option.map_some]
    · rfl
  · simp only [Component.succsIn, I.iff hi hi', I.iff hc hc', h.enter, h.succsCases, hempty]
    split
    · next hit => rw [(I.plain (hit ▸ hi)).2, Option.map_some]
    split
    · next hit => rw [(I.plain (hit ▸ hc)).2, Option.map_some]
    · rfl

theorem loop {start start' body body' update update' : Component} (I : Recast b b' t t' p s)
    (h₁ : Cleaves b b' t t' p s [start] [start']) (h₂ : Cleaves b b' t t' p s [body] [body'])
    (h₃ : Cleaves b b' t t' p s [update] [update']) (hi : i ≠ b) (hi' : i ≠ b')
    (hc : cond ≠ b) (hc' : cond ≠ b') (ha : after ≠ b) (ha' : after ≠ b') :
    Cleaves b b' t t' p s [.loop i start cond body update after]
      [.loop i start' cond body' update' after] := by
  have hcond : [cond].map (Equiv.swap b b') = [cond] :=
    map_swap (by simpa using hc.symm) (by simpa using hc'.symm)
  have hbody := h₂.exits [cond]
  have hpbody := h₂.predsIn [cond]
  rw [hcond] at hbody hpbody
  refine of_single ?_ ?_ (fun k => ?_) fun k => ?_
  · rw [Component.leaves, Component.leaves, map_swap] <;> simpa using Ne.symm ‹_›
  · rw [Component.entry, Component.entry, h₁.entry_one]
  · simp only [Component.predsIn, I.iff hi hi', I.iff hc hc', I.iff ha ha', h₁.exits, hbody,
      h₃.exits, h₁.predsIn, hpbody, h₃.predsIn, ← List.map_append,
      eraseDups_map (Equiv.injective _), ← Option.map_or]
    split
    · next hit => rw [(I.plain (hit ▸ hi)).1, Option.map_some]
    split
    · next hit => rw [(I.plain (hit ▸ hc)).1, Option.map_some]
    split
    · next hit => rw [(I.plain (hit ▸ ha)).1, Option.map_some, hcond]
    · rfl
  · simp only [Component.succsIn, Bool.or_eq_true, decide_eq_true_eq, I.iff hi hi', I.iff hc hc',
      I.iff ha ha', h₂.enter, h₃.enter, h₁.succsIn, h₂.succsIn, h₃.succsIn, ← Option.map_or]
    split
    · next hit => rw [(I.plain (by rcases hit with rfl | rfl <;> assumption)).2, Option.map_some]
    split
    · next hit => rw [(I.plain (hit ▸ hc)).2, Option.map_some]
    · rfl

/-! ## At a cut -/

theorem block (I : Recast b b' t t' p s) (hne : b ≠ b') :
    Cleaves b b' t t' p s [.block b] [.block b, .block b'] := by
  refine ⟨by simp [leavesLast, Component.leaves, orElse], rfl, fun k => ?_, fun k => ?_⟩
  · simp only [predsElements, Component.predsIn, Component.exits, Component.leaves, orElse,
      List.isEmpty_cons, Bool.false_eq_true, if_false, Option.or_none]
    cases I with
    | other h h' => rw [if_neg h.symm, if_neg h.symm, if_neg h'.symm]; rfl
    | first => simp
    | second => simp [hne]
  · simp only [succsElements, Component.succsIn, enterAll, entryAll,
        Component.entry, Option.or_none]
    cases I with
    | other h h' => rw [if_neg h.symm, if_neg h.symm, if_neg h'.symm]; rfl
    | first => simp
    | second => simp [hne]

/-- The fork behind the first half has the second as its condition. -/
theorem condition (I : Recast b b' t t' p s) (hne : b ≠ b') (hb : b ∉ idsAll cs)
    (hb' : b' ∉ idsAll cs) (hi : i ≠ t) (hi' : i ≠ t') :
    Cleaves b b' t t' p s [.fork i b cs] [.block b, .fork i b' cs] := by
  have hswap : [b].map (Equiv.swap b b') = [b'] := by simp
  have hcases : ∀ {cs}, b ∉ idsAll cs → b' ∉ idsAll cs →
      leavesCases b' cs = (leavesCases b cs).map (Equiv.swap b b') := by
    intro cs
    induction cs with
    | nil => exact fun _ _ => hswap.symm
    | cons c cs ih =>
      intro h h'
      rw [idsAll, List.mem_append, not_or] at h h'
      have hone := exits_apart h.1 h'.1 [b]
      rw [hswap] at hone
      cases cs with
      | nil => exact hone
      | cons d cs =>
        rw [leavesCases_cons, leavesCases_cons, ih h.2 h'.2, List.map_append]
        exact congrArg (· ++ _) hone
  have happart := predsCases_apart (t := t) cs hb hb' [b]
  rw [hswap] at happart
  refine ⟨?_, rfl, fun k => ?_, fun k => ?_⟩
  · rw [leavesLast_singleton, leavesLast, leavesLast_singleton, Component.leaves, Component.leaves,
      hcases hb hb', eraseDups_map (Equiv.injective _), orElse]
    split
    · next hnil =>
      rw [List.isEmpty_iff, List.map_eq_nil_iff] at hnil
      obtain ⟨x, hx⟩ := leavesCases_ne_nil b cs
      rw [← List.mem_eraseDups, hnil] at hx
      cases hx
    · rfl
  · rw [predsElements, predsElements_singleton, predsElements_singleton, Component.exits,
      Component.leaves, orElse, if_neg (by simp), Component.predsIn, Component.predsIn,
      Component.predsIn]
    cases I with
    | other h h' => simp [h.symm, h'.symm, hi, happart]
    | first => simp
    | second => simp [hne]
  · rw [succsElements, succsElements_singleton, succsElements_singleton, enterAll_singleton,
      Component.enter, Component.entry, Component.succsIn, Component.succsIn, Component.succsIn]
    cases I with
    | other h h' => simp [h.symm, h'.symm, hi]
    | first => simp [hi]
    | second => simp [hne, hi, hi']

/-- The second half stands behind the loop that the first ends. -/
theorem behind {start body update : Component} (I : Recast b b' t t' p s)
    (hn : (Component.loop i start cond body update b).ids.Nodup)
    (hb' : b' ∉ (Component.loop i start cond body update b).ids) (hi : i ≠ t) :
    Cleaves b b' t t' p s [.loop i start cond body update b]
      [.loop i start cond body update b, .block b'] := by
  have ha := apart_of_nodup hn
  have hexits : ∀ k, (Component.loop i start cond body update b).exits k = [b] := fun _ => rfl
  -- For any other block it makes no difference which one follows the loop.
  have hpreds : t ≠ b → ∀ k, (Component.loop i start cond body update b).predsIn t k =
      (Component.loop i start cond body update i).predsIn t k := fun h k => by
    simp [Component.predsIn, h.symm, hi]
  refine ⟨by simp [leavesLast, Component.leaves, orElse], rfl, fun k => ?_, fun k => ?_⟩
  · rw [predsElements, predsElements_singleton, predsElements_singleton, hexits]
    cases I with
    | other h h' =>
      have happart := @predsIn_apart b b' t
        (.loop i start cond body update i)
        (by simp [ids, ha.id_after.symm, ha.after_start, ha.after_cond, ha.after_body,
          ha.after_update])
        (fun hm => hb' (by
          simp only [ids, List.cons_append, List.mem_cons, List.mem_append] at hm ⊢
          grind)) k
      rw [hpreds h, hpreds h, happart, Component.predsIn, if_neg h'.symm, Option.or_none]
    | first =>
      have hcond : [cond].map (Equiv.swap b b') = [cond] := map_swap (by simpa using ha.after_cond)
        fun hm => hb' (by simp [ids, List.mem_singleton.mp hm])
      simp [Component.predsIn, ha.id_after, ha.after_cond.symm, hcond]
    | second =>
      rw [predsIn_eq_none _ _ hb', Option.none_or, Component.predsIn, if_pos rfl]
      simp [Component.predsIn, ha.id_after, ha.after_cond.symm]
  · rw [succsElements, succsElements_singleton, succsElements_singleton, enterAll_singleton]
    cases I with
    | other h h' => simp [Component.succsIn, h.symm, h'.symm, hi]
    | first => simp [Component.succsIn, Component.enter, Component.entry]
    | second =>
      rw [succsIn_eq_none _ _ hb', Option.none_or, Component.succsIn, if_pos rfl]
      simp [Component.succsIn]

end Cleaves

theorem Cleft.cleaves (h : Cleft b b' d cs) (I : Recast b b' t t' p s) (hn : d.ids.Nodup)
    (hb' : b' ∉ d.ids) (ht : d.id = t → d = .block t) : Cleaves b b' t t' p s [d] cs := by
  have hne : b ≠ b' := fun he => hb' (he ▸ mem_ids_of_mem_blocks h.mem_blocks)
  cases h with
  | block => exact .block I hne
  | condition i cs =>
    have hi : i ≠ t := by
      intro he
      cases ht he
    simp only [ids, List.nodup_cons, List.mem_cons, not_or] at hn hb'
    refine .condition I hne hn.2.1 hb'.2.2 hi fun he => ?_
    exact hi ((I.iff hn.1.1 (Ne.symm hb'.1)).mp he)
  | after i start cond body update =>
    refine .behind I hn hb' fun he => ?_
    cases ht he

/-! ## Whole trees -/

theorem Cleaves.Each.middle {l r : List Component} (I : Recast b b' t t' p s)
    (hn : (idsAll (l ++ c :: r)).Nodup) (hb : b ∈ c.ids) (hb' : b' ∉ idsAll (l ++ c :: r))
    {n : NodeId} {g : Component → Component} (hid : n ∈ c.ids)
    (h : Cleaves b b' t t' p s [c] [c.modify n g]) :
    Each b b' t t' p s (l ++ c :: r) (modifyAll n g (l ++ c :: r)) := by
  obtain ⟨hl, hr⟩ := beside_of_nodup hn hb
  rw [idsAll_append, idsAll, List.mem_append, List.mem_append, not_or, not_or] at hb'
  have happart : ∀ {cs}, b ∉ idsAll cs → b' ∉ idsAll cs → Each b b' t t' p s cs cs := by
    intro cs h h'
    refine List.forall₂_same.mpr fun c hc => .apart I ?_ ?_
    · rw [idsAll_singleton]
      exact fun hm => h (mem_idsAll.mpr ⟨c, hc, hm⟩)
    · rw [idsAll_singleton]
      exact fun hm => h' (mem_idsAll.mpr ⟨c, hc, hm⟩)
  rw [modifyAll_middle hn hid]
  exact List.rel_append (happart hl hb'.1) (.cons h (happart hr hb'.2.2))

theorem Cleaves.Each.cleaves (I : Recast b b' t t' p s) (h : Each b b' t t' p s cs ds) :
    Cleaves b b' t t' p s cs ds := by
  induction h with
  | nil => exact .apart I List.not_mem_nil List.not_mem_nil
  | cons h _ ih => exact h.append ih

theorem Within.cleaves {g : Component → Component} (I : Recast b b' t t' p s) (h : Within d c)
    (hn : c.ids.Nodup) (hb : b ∈ d.ids) (hb' : b' ∉ c.ids)
    (hd : Cleaves b b' t t' p s [d] [g d]) :
    Cleaves b b' t t' p s [c] [c.modify d.id g] := by
  have hbeside : ∀ {c : Component}, b ∉ c.ids → b' ∉ c.ids → Cleaves b b' t t' p s [c] [c] :=
    fun h h' => .apart I (by rwa [idsAll_singleton]) (by rwa [idsAll_singleton])
  induction h with
  | here =>
    rw [modify_self]
    exact hd
  | @element i l r c h ih =>
    obtain ⟨hib, -, -⟩ := beside_element hn fun _ => h.mem_ids hb
    obtain ⟨hi, -, -⟩ := beside_element hn fun _ => h.mem_ids (id_mem_ids d)
    rw [ids, List.nodup_cons] at hn
    rw [ids, List.mem_cons, not_or] at hb'
    have hc : b' ∉ c.ids := fun hm => hb'.2 (by rw [idsAll_append, idsAll]; simp [hm])
    have heach := Cleaves.Each.middle I hn.2 (h.mem_ids hb) hb'.2 (h.mem_ids (id_mem_ids d))
      (ih (middle_nodup hn.2) hc)
    rw [modify, if_neg hi]
    exact .seq I (heach.cleaves I) hib (Ne.symm hb'.1)
  | @case i cond l r c h ih =>
    obtain ⟨hib, hcb, -, -⟩ := beside_case hn fun _ => h.mem_ids hb
    obtain ⟨hi, -, -, -⟩ := beside_case hn fun _ => h.mem_ids (id_mem_ids d)
    simp only [ids, List.nodup_cons, List.mem_cons, not_or] at hn hb'
    have hc : b' ∉ c.ids := fun hm => hb'.2.2 (by rw [idsAll_append, idsAll]; simp [hm])
    have heach := Cleaves.Each.middle I hn.2.2 (h.mem_ids hb) hb'.2.2 (h.mem_ids (id_mem_ids d))
      (ih (middle_nodup hn.2.2) hc)
    rw [modify, if_neg hi]
    exact .fork I heach hib (Ne.symm hb'.1) hcb (Ne.symm hb'.2.1)
  | @start i cond after start body update h ih =>
    obtain ⟨hib, hcb, hab, hbody, hupdate⟩ := beside_start hn fun _ => h.mem_ids hb
    rw [modify_start hn fun _ => h.mem_ids (id_mem_ids d)]
    simp only [ids, List.cons_append, List.mem_cons, List.mem_append, List.not_mem_nil, or_false,
      not_or] at hb'
    obtain ⟨hi, ⟨⟨hs, hc, ho⟩, hu⟩, hr⟩ := hb'
    exact .loop I (ih (apart_of_nodup hn).start_nodup hs) (hbeside hbody ho) (hbeside hupdate hu)
      hib (Ne.symm hi) hcb (Ne.symm hc) hab (Ne.symm hr)
  | @body i cond after start body update h ih =>
    obtain ⟨hib, hcb, hab, hstart, hupdate⟩ := beside_body hn fun _ => h.mem_ids hb
    rw [modify_body hn fun _ => h.mem_ids (id_mem_ids d)]
    simp only [ids, List.cons_append, List.mem_cons, List.mem_append, List.not_mem_nil, or_false,
      not_or] at hb'
    obtain ⟨hi, ⟨⟨hs, hc, ho⟩, hu⟩, hr⟩ := hb'
    exact .loop I (hbeside hstart hs) (ih (apart_of_nodup hn).body_nodup ho) (hbeside hupdate hu)
      hib (Ne.symm hi) hcb (Ne.symm hc) hab (Ne.symm hr)
  | @update i cond after start body update h ih =>
    obtain ⟨hib, hcb, hab, hstart, hbody⟩ := beside_update hn fun _ => h.mem_ids hb
    rw [modify_update hn fun _ => h.mem_ids (id_mem_ids d)]
    simp only [ids, List.cons_append, List.mem_cons, List.mem_append, List.not_mem_nil, or_false,
      not_or] at hb'
    obtain ⟨hi, ⟨⟨hs, hc, ho⟩, hu⟩, hr⟩ := hb'
    exact .loop I (hbeside hstart hs) (hbeside hbody ho) (ih (apart_of_nodup hn).update_nodup hu)
      hib (Ne.symm hi) hcb (Ne.symm hc) hab (Ne.symm hr)

/-- Nothing but the block itself has the number of a block. -/
theorem Within.eq_block (h : Within d c) (hn : c.ids.Nodup) (ht : t ∈ c.blocks) (hid : d.id = t) :
    d = .block t := by
  have hfind := h.find? hn
  rw [hid, find?_block c hn ht, Option.some.injEq] at hfind
  exact hfind.symm

/-- The two halves have been put in the place of the block. -/
theorem Puts.cleaves {c' : Component} {new : List NodeId} (I : Recast b b' t t' p s)
    (h : Puts d cs c new c') (hc : Cleft b b' d cs) (hn : c.ids.Nodup) (hb' : b' ∉ c.ids)
    (ht : t ∈ c.blocks) (hnew : ∀ q ∈ new, q ∉ c.ids ∧ q ≠ b') :
    Cleaves b b' t t' p s [c] [c'] := by
  have hw := h.within
  have hbd := mem_ids_of_mem_blocks hc.mem_blocks
  have hcut := hc.cleaves I (hw.nodup hn) (fun hm => hb' (hw.mem_ids hm)) (hw.eq_block hn ht)
  cases h with
  | @spliced i l r h =>
    have hseq := h.nodup hn
    rw [ids, List.nodup_cons] at hseq
    obtain ⟨hl, hr⟩ := beside_of_nodup hseq.2 hbd
    have hmem : ∀ {x}, x ∈ idsAll (l ++ d :: r) → x ∈ c.ids := fun hx =>
      h.mem_ids (by rw [ids]; exact List.mem_cons_of_mem _ hx)
    have hout : ∀ {es}, idsAll es ⊆ idsAll (l ++ d :: r) → b' ∉ idsAll es := fun hsub hm =>
      hb' (hmem (hsub hm))
    have hwhole : Cleaves b b' t t' p s (l ++ d :: r) (l ++ (cs ++ r)) :=
      (Cleaves.apart I hl (hout fun x hx => by simp [idsAll_append, hx])).append
        (hcut.append (.apart I hr (hout fun x hx => by simp [idsAll_append, idsAll, hx])))
    have hib : b ∈ idsAll (l ++ d :: r) := by simp [idsAll_append, idsAll, hbd]
    refine h.cleaves (d := .seq i (l ++ d :: r)) I hn ?_ hb' (.seq I hwhole ?_ ?_)
    · rw [ids]
      exact List.mem_cons_of_mem _ hib
    · exact fun he => hseq.1 (he ▸ hib)
    · exact fun he => hb' (he ▸ h.mem_ids (id_mem_ids (.seq i (l ++ d :: r))))
  | wrapped q h =>
    obtain ⟨hq, hq'⟩ := hnew q List.mem_cons_self
    refine h.cleaves I hn hbd hb' ?_
    -- The new sequence is not what is asked about.
    have hqb : q ≠ b := fun he => hq (he ▸ hw.mem_ids hbd)
    have hqt : q ≠ t' := fun he => hq ((I.iff hqb hq').mp he ▸ mem_ids_of_mem_blocks ht)
    refine ⟨hcut.leaves, ?_, fun k => ?_, fun k => ?_⟩
    · rw [entryAll_singleton, Component.entry, hcut.entry]
    · rw [predsElements_singleton, Component.predsIn, if_neg hqt, hcut.preds]
    · rw [succsElements_singleton, Component.succsIn, if_neg hqt, hcut.succs]

end

end DefFlow.Flow.Component
