import DefFlow.Proofs.Edits.Graft
import DefFlow.Proofs.Reaching.Paths
import DefFlow.Proofs.Tree.Cleave

/-!
# Cutting a block

The second half of a block is put right behind the first, by the place that the first has
in the tree. Values then flow as before, except that what left the block leaves its second
half.
-/

set_option autoImplicit false

namespace DefFlow.Flow

open Func Component

/-! ## Placing the second half -/

def CutsBody (b b' : NodeId) (l : List Component) (f f' : Func) : Prop :=
  ∃ d cs, Beside f.body d cs l f f' ∧ Cleft b b' d cs

section

variable {f f' : Func} {b b' p : NodeId} {l : List Component} {u : Unit}

/-- A block is found in a replaceable place, or is named by the structure around it. -/
theorem block_of_id {c : Component} (hf : f.Forest) (hb : b ∈ f.blocks) (hc : Within c f.body)
    (hid : c.id = b) : c = .block b := by
  have h := hc.find? hf.body_nodup
  rw [hid, find?_block f.body hf.body_nodup hb, Option.some.injEq] at h
  exact h.symm

/-- The second half, set aside last, is told apart from everything else. -/
theorem aside_block {e : Component} (hf : f.Forest) (hd : f.detached = l ++ [.block b'])
    (he : e.id ∈ f.body.ids) : Aside f.body (.block b') e l [] f := by
  have hn := hf.nodup
  rw [Func.trees, idsAll, hd, idsAll_append, idsAll_singleton, ids] at hn
  obtain ⟨_, hn, happart⟩ := List.nodup_append.mp hn
  obtain ⟨_, _, hlast⟩ := List.nodup_append.mp hn
  refine ⟨hd, fun i hi => ?_, fun i hi hm => ?_, fun y hy hid => ?_, fun hm => ?_⟩
  · exact (hf.bounded i (by rw [Func.trees, idsAll]; exact List.mem_append_right _ hi)).2
  · rw [List.append_nil] at hm
    exact happart i hi i (List.mem_append_left _ hm) rfl
  · rw [List.append_nil] at hy
    exact hlast _ (mem_idsAll_of_mem hy) b' (List.mem_singleton_self _) hid
  · rw [ids, List.mem_singleton] at hm
    exact happart _ he b' (List.mem_append_right _ (List.mem_singleton_self _)) hm

/-- Some part of the body holds the block in one of its places. -/
theorem own_place {role : Role} (hf : f.Forest) (hb : b ∈ f.blocks)
    (hp : f.parent? b = some (p, role)) :
    (Within (.block b) f.body ∧ role ≠ .condition ∧ role ≠ .after) ∨
      (∃ cs, role = .condition ∧ Within (.fork p b cs) f.body) ∨ role = .loopCondition ∨
      ∃ start cond body update, role = .after ∧
        Within (.loop p start cond body update b) f.body := by
  have hself : ∀ {c : Component}, Within c f.body → c.id = b → Within (.block b) f.body :=
    fun hc hid => block_of_id hf hb hc hid ▸ hc
  rcases plays_or_body (mem_ids_of_mem_blocks hb) hp with ⟨c, hc, rfl, hplays⟩ | ⟨rfl, hid⟩
  · cases c with
    | block _ => cases role <;> cases hplays
    | seq s es =>
      cases role with
      | element i =>
        obtain ⟨a, ha, hid⟩ := hplays
        have hw := hself (.trans (.of_mem_seq (List.mem_of_getElem? ha) .here) hc) hid
        exact Or.inl ⟨hw, nofun, nofun⟩
      | _ => cases hplays
    | fork i cond cs =>
      cases role with
      | condition =>
        obtain rfl : cond = b := hplays
        exact Or.inr (Or.inl ⟨cs, rfl, hc⟩)
      | case i =>
        obtain ⟨a, ha, hid⟩ := hplays
        have hw := hself (.trans (.of_mem_fork (List.mem_of_getElem? ha) .here) hc) hid
        exact Or.inl ⟨hw, nofun, nofun⟩
      | _ => cases hplays
    | loop i start cond body update after =>
      cases role with
      | start => exact Or.inl ⟨hself (.trans (.start .here) hc) hplays, nofun, nofun⟩
      | body => exact Or.inl ⟨hself (.trans (.body .here) hc) hplays, nofun, nofun⟩
      | update => exact Or.inl ⟨hself (.trans (.update .here) hc) hplays, nofun, nofun⟩
      | loopCondition => exact Or.inr (Or.inr (Or.inl rfl))
      | after =>
        obtain rfl : after = b := hplays
        exact Or.inr (Or.inr (Or.inr ⟨start, cond, body, update, rfl, hc⟩))
      | _ => cases hplays
  · exact Or.inl ⟨hself .here hid, nofun, nofun⟩

theorem modify_condition {cs : List Component} (hf : f.Forest) (hw : Within (.fork p b cs) f.body) :
    (f.body.modify p (Edit.setCondition b')) = f.body.modify p fun _ => .fork p b' cs := by
  refine (hw.modify_inside hf.body_nodup (id_mem_ids (.fork p b cs))).trans ?_
  rw [modify_self]
  rfl

/-- A fork gets another condition, and the old one is set aside. -/
theorem replaceCondition_ok {cs : List Component} {ref : ComponentRef} (hf : f.Forest)
    (hd : f.detached = l ++ [.block b']) (hw : Within (.fork p b cs) f.body) (href : ref.id = b')
    (hrun : Edit.replaceCondition p ref f = .ok u f') :
    Planted (f.body.modify p fun _ => .fork p b' cs) (l ++ [.block b]) f f' := by
  have hp : p ∈ f.body.ids := hw.mem_ids (id_mem_ids (.fork p b cs))
  have ha := aside_block hf hd (e := .fork p b cs) hp
  rw [Edit.replaceCondition, Edit.bind_eq Edit.get_eq,
    show f.find? p = some (.fork p b cs) from find?_of_body (hw.find? hf.body_nodup)] at hrun
  obtain ⟨taken, f₁, htake, hrun⟩ := Edit.bind_ok hrun
  obtain ⟨rfl, rfl⟩ := adopt_ok ha.detached ha.others href htake
  rw [List.append_nil, Edit.bind_eq (planted_changeAt (by simpa using ha.apart p hp))] at hrun
  cases hrun
  have hbody : f.body.modify p (Edit.setCondition b') = f.body.modify p fun _ => .fork p b' cs :=
    modify_condition hf hw
  exact ⟨⟨rfl, rfl, fun _ => rfl, rfl, rfl, rfl⟩, hbody, rfl, rfl, Nat.le_refl _⟩

/-- The fork stands in its place with the new condition, and can take the old one beside it. -/
theorem stands_of_condition {cs : List Component} (hf : f.Forest)
    (hd : f.detached = l ++ [.block b']) (hw : Within (.fork p b cs) f.body)
    (h : Planted (f.body.modify p fun _ => .fork p b' cs) (l ++ [.block b]) f f') :
    Stands f.body (.fork p b cs) (.fork p b' cs) f' ∧
      Aside f.body (.block b) (.fork p b' cs) l [] f' := by
  have hn := hw.nodup hf.body_nodup
  have hp : p ∈ f.body.ids := hw.mem_ids (id_mem_ids (.fork p b cs))
  have ha := aside_block hf hd (e := .fork p b cs) hp
  have hsize : ∀ {i : Nat}, i ∈ idsAll f.trees → i ≤ f'.nodes.size := fun hi =>
    Nat.le_trans (hf.bounded _ hi).2 h.size
  have hbody : ∀ {i : Nat}, i ∈ f.body.ids → i ∈ idsAll f.trees := fun hi => by
    rw [Func.trees, idsAll]
    exact List.mem_append_left _ hi
  have hnew : b' ∈ idsAll f.trees := by
    rw [Func.trees, idsAll, hd, idsAll_append, idsAll_singleton, ids]
    exact List.mem_append_right _ (List.mem_append_right _ (List.mem_singleton_self _))
  have hb : b ∈ f.body.ids := hw.mem_ids <| by
    rw [ids]
    exact List.mem_cons_of_mem _ List.mem_cons_self
  refine ⟨{
    within := hw
    nodup := hf.body_nodup
    body := h.body_eq
    id := rfl
    path := by
      rw [h.body_eq, ← modify_condition hf hw]
      exact pathIn_modify (fun d => by cases d <;> rfl) f.body
    held := h.held.trans hf.held
    bounded := fun i hi => hsize <| by
      rcases hi with hi | hi
      · exact hbody hi
      · rw [ids, List.mem_cons, List.mem_cons] at hi
        rcases hi with rfl | rfl | hi
        · exact hbody hp
        · exact hnew
        · refine hbody (hw.mem_ids ?_)
          rw [ids]
          exact List.mem_cons_of_mem _ (List.mem_cons_of_mem _ hi) }, {
    detached := h.detached_eq
    bounded := fun i hi => hsize <| by
      rw [h.detached_eq, idsAll_append, idsAll_singleton, ids, List.mem_append,
        List.mem_singleton] at hi
      rcases hi with hi | rfl
      · rw [Func.trees, idsAll, hd, idsAll_append]
        exact List.mem_append_right _ (List.mem_append_left _ hi)
      · exact hbody hb
    apart := ha.apart
    others := fun y hy (hid : y.id = b) => ha.apart b hb (hid ▸ mem_idsAll_of_mem hy)
    new := fun hm => by
      rw [ids, List.mem_singleton] at hm
      rw [ids, List.nodup_cons] at hn
      exact hn.1 (hm ▸ List.mem_cons_self) }⟩

/-- The fork that a block was the condition of follows the block. -/
theorem placeCondition_ok {cs : List Component} (hf : f.Forest)
    (hd : f.detached = l ++ [.block b']) (hw : Within (.fork p b cs) f.body)
    (hrun : (do
      Edit.replaceCondition p (← Edit.refTo b')
      Edit.insertBefore p (← Edit.refTo b) : Edit Unit) f = .ok u f') : CutsBody b b' l f f' := by
  rw [Edit.bind_eq (refTo_eq _ _)] at hrun
  obtain ⟨_, f₁, hcond, hrun⟩ := Edit.bind_ok hrun
  have hplant := replaceCondition_ok hf hd hw rfl hcond
  obtain ⟨hs, hold⟩ := stands_of_condition hf hd hw hplant
  rw [Edit.bind_eq (refTo_eq _ _)] at hrun
  have h := insertBefore_ok hs hold rfl hrun
  rw [List.append_nil] at h
  obtain ⟨new, hputs, hnodup, hfresh⟩ := h.puts
  refine ⟨_, _, ⟨hplant.trans h.planted, new, hputs, hnodup, fun i hi => ?_⟩, .condition p cs⟩
  exact (hfresh i hi).imp_left (Nat.lt_of_le_of_lt hplant.size)

theorem placeSecondHalf_ok (hf : f.Forest) (hb : b ∈ f.blocks)
    (hd : f.detached = l ++ [.block b'])
    (hcond : ∀ loop, f.parent? b ≠ some (loop, .loopCondition))
    (hrun : Edit.placeSecondHalf b b' f = .ok u f') : CutsBody b b' l f f' := by
  rw [Edit.placeSecondHalf, Edit.bind_eq Edit.get_eq] at hrun
  rcases hp : f.parent? b with _ | ⟨p, role⟩
  · have := hf.hasParent hb
    rw [Func.hasParent, hp] at this
    cases this
  rw [hp] at hrun
  rcases own_place hf hb hp with ⟨hw, hnc, hna⟩ | ⟨cs, rfl, hw⟩ | rfl |
      ⟨start, cond, body, update, rfl, hw⟩
  · have ha := aside_block hf hd (e := .block b) (mem_ids_of_mem_blocks hb)
    have hs := Stands.self hw hf
    have hgrow : ∀ {cs}, cs = [Component.block b, .block b'] →
        Beside f.body (.block b) cs (l ++ []) f f' → CutsBody b b' l f f' := by
      rintro _ rfl h
      rw [List.append_nil] at h
      exact ⟨_, _, h, .block⟩
    cases role with
    | condition => exact absurd rfl hnc
    | after => exact absurd rfl hna
    | element i =>
      dsimp only at hrun
      rw [Edit.bind_eq (refTo_eq _ _)] at hrun
      have hpair : ∀ l' r' : List Component, l'.length = i →
          (l' ++ .block b :: r').insertIdx (i + 1) (.block b') =
            l' ++ ([.block b, .block b'] ++ r') := by
        intro l' r' hlen
        rw [List.append_cons, ← hlen, show l'.length + 1 =
            (l' ++ [Component.block b]).length by simp,
          insertIdx_append, List.append_assoc]
        rfl
      have h := insertBeside_ok hs ha rfl hp hpair hrun
      exact hgrow rfl h
    | _ => exact hgrow rfl (wrapBehind_ok hs ha (names_refTo _) (names_refTo _) hrun)
  · exact placeCondition_ok hf hd hw hrun
  · exact absurd hp (hcond p)
  · have ha := aside_block hf hd (e := .loop p start cond body update b)
      (hw.mem_ids (id_mem_ids (.loop p start cond body update b)))
    dsimp only at hrun
    rw [Edit.bind_eq (refTo_eq _ _)] at hrun
    have h := insertAfter_ok (Stands.self hw hf) ha rfl hrun
    rw [List.append_nil] at h
    exact ⟨_, _, h, .after p start cond body update⟩

end

/-! ## A new block -/

structure Adds (b' : NodeId) (f f' : Func) : Prop where
  body : f'.body = f.body
  bodyHeld : f'.bodyHeld = f.bodyHeld
  detached : f'.detached = f.detached ++ [.block b']
  fresh : b' = f.nodes.next
  size : f'.nodes.size = f.nodes.size + 1
  stored : ∀ c, (f'.nodes.get? c).isSome = (decide (c = b') || (f.nodes.get? c).isSome)

section

variable {f g h : Func} {b b' : NodeId}

namespace Adds

theorem sameGraph (ho : Adds b' f g) (hs : SameGraph g h) : Adds b' f h where
  body := hs.body.trans ho.body
  bodyHeld := hs.bodyHeld.trans ho.bodyHeld
  detached := hs.detached.trans ho.detached
  fresh := ho.fresh
  size := hs.size.trans ho.size
  stored c := (hs.stored c).trans (ho.stored c)

theorem trees (ho : Adds b' f g) : g.trees = f.trees ++ [.block b'] := by
  rw [Func.trees, Func.trees, ho.body, ho.detached]
  rfl

theorem ids (ho : Adds b' f g) : idsAll g.trees = idsAll f.trees ++ [b'] := by
  rw [ho.trees, idsAll_append, idsAll_singleton, Component.ids]

theorem not_mem (ho : Adds b' f g) (hf : f.Forest) : b' ∉ idsAll f.trees := fun hm => by
  have := (hf.bounded _ hm).2
  rw [ho.fresh] at this
  exact Nat.not_succ_le_self _ this

theorem not_mem_blocks (ho : Adds b' f g) (hf : f.Forest) : b' ∉ f.blocks := fun hm =>
  ho.not_mem hf (mem_idsAll_of_mem_blocksAll (Forest.mem_trees hm))

theorem forest (ho : Adds b' f g) (hf : f.Forest) : g.Forest where
  held := ho.bodyHeld.trans hf.held
  nodup := by
    rw [ho.ids]
    exact nodup_concat hf.nodup (ho.not_mem hf)
  bounded i hi := by
    rw [ho.ids, List.mem_append, List.mem_singleton] at hi
    rw [ho.size]
    rcases hi with hi | rfl
    · exact (hf.bounded i hi).imp_right Nat.le_succ_of_le
    · -- The body has a number, so the numbers given so far are not the first ones.
      have hbody := hf.bounded f.body.id (by
        rw [Func.trees, idsAll]
        exact List.mem_append_left _ (id_mem_ids _))
      rw [ho.fresh, Arena.next_eq]
      exact ⟨Nat.lt_succ_of_lt (Nat.lt_of_lt_of_le hbody.1 hbody.2), Nat.le_refl _⟩
  stored c hc := by
    rw [ho.trees, blocksAll_append, blocksAll_singleton, Component.blocks, List.mem_append,
      List.mem_singleton] at hc
    rw [ho.stored]
    rcases hc with hc | rfl
    · rw [hf.stored c hc, Bool.or_true]
    · rw [decide_eq_true rfl, Bool.true_or]

end Adds

theorem CutsBody.reshapes (hc : CutsBody b b' f.detached g h) (ho : Adds b' f g)
    (hf : f.Forest) (hb : b ∈ f.blocks) : Reshapes (cutAt b b') f h := by
  obtain ⟨d, cs, hbeside, hcleft⟩ := hc
  obtain ⟨new, hputs, hnodup, hfresh⟩ := hbeside.puts
  have hplanted := hbeside.planted
  have hn := (ho.forest hf).body_nodup
  have hbody := hputs.grows hn (hcleft.grows (hputs.within.nodup hn)) fun x hx =>
    cutAt_of_ne fun he => hx (he ▸ hcleft.mem_blocks)
  rw [ho.body] at hbody
  have hrest : ∀ x ∈ blocksAll f.detached, cutAt b b' x = none := cutAt_of_not_mem fun hm => by
    have := hf.nodup
    rw [Func.trees, idsAll] at this
    exact (List.nodup_append.mp this).2.2 b (mem_ids_of_mem_blocks hb) b
      (mem_idsAll_of_mem_blocksAll hm) rfl
  have hlast : ∀ {n : Nat}, g.nodes.size < n → b' < n := fun hn => by
    rw [ho.fresh, Arena.next_eq, ← ho.size]
    exact hn
  refine {
    held := hplanted.held.trans ho.bodyHeld
    trees := ⟨[b'] ++ new, ?_, ?_, fun i hi => ?_⟩
    size := Nat.le_trans (ho.size ▸ Nat.le_succ _) hplanted.size
    stored := fun c hc => ?_
    tails := fun {x y} hx => ?_ }
  · have := GrowsEach.cons hbody (.refl hrest)
    rw [List.append_nil] at this
    rw [Func.trees, Func.trees, hplanted.detached_eq]
    exact this
  · refine List.nodup_cons.mpr ⟨fun hm => ?_, hnodup⟩
    exact Nat.lt_irrefl _ (hlast (hfresh _ hm).1)
  · rw [List.singleton_append, List.mem_cons] at hi
    rcases hi with rfl | hi
    · rw [ho.fresh, Arena.next_eq]
      exact ⟨Nat.lt_succ_self _, ho.size ▸ hplanted.size⟩
    · exact (hfresh i hi).imp_left fun hlt => by
        rw [ho.size] at hlt
        exact Nat.lt_of_succ_lt hlt
  · rw [hplanted.block, ho.stored, hc, Bool.or_true]
  · rw [cutAt] at hx
    split at hx
    · cases hx
      rw [hplanted.block, ho.stored, decide_eq_true rfl, Bool.true_or]
    · cases hx

/-- What the blocks see of each other once `b` has been cut. -/
theorem CutsBody.cleaves {t t' : NodeId} {p s : List NodeId → List NodeId} {l : List Component}
    (hc : CutsBody b b' l g h) (ho : Adds b' f g) (hf : f.Forest) (I : Recast b b' t t' p s)
    (ht : t ∈ f.blocks) : Cleaves b b' t t' p s [f.body] [h.body] := by
  obtain ⟨d, cs, hbeside, hcleft⟩ := hc
  obtain ⟨new, hputs, -, hfresh⟩ := hbeside.puts
  have hbody := hputs.cleaves I hcleft (ho.forest hf).body_nodup (ho.body ▸ fun hm => ?_)
    (ho.body ▸ ht) fun q hq => ⟨fun hm => ?_, fun he => ?_⟩
  · rwa [ho.body] at hbody
  · refine ho.not_mem hf ?_
    rw [Func.trees, idsAll]
    exact List.mem_append_left _ hm
  · refine Nat.lt_irrefl q (Nat.lt_of_le_of_lt ((ho.forest hf).bounded q ?_).2 (hfresh q hq).1)
    rw [Func.trees, idsAll]
    exact List.mem_append_left _ hm
  · have := (hfresh q hq).1
    rw [he, ho.fresh, Arena.next_eq, ho.size] at this
    exact Nat.lt_irrefl _ this

theorem CutsBody.edges {t t' : NodeId} {p s : List NodeId → List NodeId} {l : List Component}
    (hc : CutsBody b b' l g h) (ho : Adds b' f g) (hf : f.Forest) (I : Recast b b' t t' p s)
    (ht : t ∈ f.blocks) : h.preds t' = p (f.preds t) ∧ h.succs t' = s (f.succs t) := by
  have hcleaves := hc.cleaves ho hf I ht
  obtain ⟨k, hk, hpreds⟩ := hf.preds_eq ht
  obtain ⟨m, hm, hsuccs⟩ := hf.succs_eq ht
  have hp := hcleaves.predsIn []
  have hs := hcleaves.succsIn []
  rw [hk] at hp
  rw [hm] at hs
  exact ⟨hpreds ▸ preds_of_body hp, hsuccs ▸ succs_of_body hs⟩

theorem Reshapes.mem_blocks_cut {c : NodeId} (hr : Reshapes (cutAt b b') f g) (hb : b ∈ f.blocks) :
    c ∈ g.blocks ↔ c ∈ f.blocks ∨ c = b' := by
  rw [hr.blocks, List.mem_flatMap]
  constructor
  · rintro ⟨x, hx, hc⟩
    rw [grown, List.mem_cons, Option.mem_toList, cutAt] at hc
    rcases hc with rfl | hc
    · exact Or.inl hx
    · split at hc
      · exact Or.inr (Option.some.inj hc).symm
      · cases hc
  · rintro (hc | rfl)
    · exact ⟨c, hc, List.mem_cons_self⟩
    · refine ⟨b, hb, ?_⟩
      rw [grown, cutAt_self]
      exact List.mem_cons_of_mem _ List.mem_cons_self

end

/-! ## The flow of values -/

structure Bisects (b b' : NodeId) (f f' : Func) : Prop where
  reshapes : Reshapes (cutAt b b') f f'
  edges : ∀ {t t' p s}, Recast b b' t t' p s → t ∈ f.blocks →
    f'.preds t' = p (f.preds t) ∧ f'.succs t' = s (f.succs t)
  first : b ∈ f.blocks
  new : b' ∉ f.blocks
  tables : f'.Tables
  id : ∀ c v, c ≠ b' → f'.timelineId? c v = f.timelineId? c v
  unlisted : ∀ v, f.timelineId? b' v = none
  locals : ∀ c v, c ≠ b → c ≠ b' → f'.locals c v = f.locals c v
  halves : ∀ v, f.locals b v = f'.locals b v ++ f'.locals b' v
  joins : ∀ c v, f'.joinNodes c v = [] ↔ f.joinNodes c v = []

namespace Bisects

variable {b b' c p : NodeId} {v : VarId} {f f' : Func}

theorem ne_new (h : Bisects b b' f f') (hc : c ∈ f.blocks) : c ≠ b' := fun he => h.new (he ▸ hc)

theorem joinNodes_new (h : Bisects b b' f f') : f'.joinNodes b' v = [] :=
  (h.joins b' v).mpr (joinNodes_of_none (h.unlisted v))

theorem mem_blocks (h : Bisects b b' f f') : c ∈ f'.blocks ↔ c ∈ f.blocks ∨ c = b' :=
  h.reshapes.mem_blocks_cut h.first

/-- Where control comes from, the first half is replaced by the second. -/
theorem mem_preds (h : Bisects b b' f f') (hf : f.Forest) (hc : c ∈ f.blocks) :
    p ∈ f'.preds c ↔ ∃ q ∈ f.preds c, p = lastOf (cutAt b b') q := by
  rw [h.reshapes.mem_preds hf (h.mem_blocks.mpr (Or.inl hc))]
  constructor
  · rintro (⟨q, hq, rfl⟩ | ⟨_, hp⟩)
    · exact ⟨q, (hf.mem_preds hc).mpr hq, rfl⟩
    · rw [cutAt] at hp
      split at hp
      · cases hp
        exact absurd hc h.new
      · cases hp
  · rintro ⟨q, hq, rfl⟩
    exact Or.inl ⟨q, (hf.mem_preds hc).mp hq, rfl⟩

theorem mem_preds_new (h : Bisects b b' f f') (hf : f.Forest) : p ∈ f'.preds b' ↔ p = b := by
  rw [h.reshapes.mem_preds hf (h.mem_blocks.mpr (Or.inr rfl))]
  constructor
  · rintro (⟨q, hq, _⟩ | ⟨_, hp⟩)
    · exact absurd (Edge.mem f.body hq).2 h.new
    · by_contra hne
      rw [cutAt_of_ne hne] at hp
      cases hp
  · rintro rfl
    exact Or.inr ⟨h.first, cutAt_self⟩

theorem decides_other (h : Bisects b b' f f') (ht : f.Tables) (hc : c ≠ b) (hc' : c ≠ b') :
    f'.Decides v c ↔ f.Decides v c := by
  rw [h.tables.decides_iff, ht.decides_iff, Defining, Defining,
      h.locals c v hc hc', Ne, Ne, h.joins]

theorem decides_new (h : Bisects b b' f f') : f'.Decides v b' ↔ f'.locals b' v ≠ [] := by
  rw [h.tables.decides_iff, Defining, h.joinNodes_new]
  simp

/-- The first half still decides what the second has not taken over. -/
theorem decides_first (h : Bisects b b' f f') (ht : f.Tables) (hnew : ¬ f'.Decides v b') :
    f'.Decides v b ↔ f.Decides v b := by
  rw [h.decides_new, not_not] at hnew
  have hl : f.locals b v = f'.locals b v := by rw [h.halves, hnew, List.append_nil]
  rw [h.tables.decides_iff, ht.decides_iff, Defining, Defining, hl, Ne, Ne, Ne, h.joins]

theorem decides_of (h : Bisects b b' f f') (ht : f.Tables) (hc : c ≠ b')
    (hd : f'.Decides v c) : f.Decides v c := by
  by_cases hcb : c = b
  · subst hcb
    rw [h.tables.decides_iff, Defining, Ne, Ne, h.joins] at hd
    rw [ht.decides_iff, Defining, h.halves]
    exact hd.imp_left fun hne hnil => hne (List.append_eq_nil_iff.mp hnil).1
  · exact (h.decides_other ht hcb hc).mp hd

theorem explicit?_eq (h : Bisects b b' f f') (ht : f.Tables) (hc : c ≠ b')
    (hd : f'.Decides v c) : f'.explicit? c v = f.explicit? c v := by
  have hid : ∀ {g : Func}, g.Tables → g.Decides v c → g.explicit? c v = g.timelineId? c v := by
    intro g hg hd
    rw [hg.decides_iff, Defining, ← not_and_or] at hd
    rw [hg.explicit?_eq, if_neg hd]
  rw [hid h.tables hd, hid ht (h.decides_of ht hc hd), h.id c v hc]

/-- A walk backwards that does not end in the second half is one from before the cut. -/
theorem arrives_of_walk (h : Bisects b b' f f') (hf : f.Forest) {stop stop' : NodeId → Prop}
    (hkeep : ∀ {c}, c ≠ b' → stop' c → stop c)
    (hother : ∀ {c}, c ≠ b → c ≠ b' → stop c → stop' c) (hfirst : ¬ stop' b' → stop b → stop' b)
    {x : NodeId} {a : Option NodeId} (ha : Arrives f'.preds stop' x a) (hne : a ≠ some b') :
    (x ∈ f.blocks → Arrives f.preds stop x a) ∧
      (x = b' → ¬ stop' b' → Departs f.preds stop b a) := by
  -- The walk backwards enters the second half only where that passes the variable on.
  induction ha with
  | @start x hnil =>
    refine ⟨fun hx => .start ?_, fun hx _ => ?_⟩
    · refine List.eq_nil_iff_forall_not_mem.mpr fun q hq => ?_
      have := (h.mem_preds hf hx).mpr ⟨q, hq, rfl⟩
      rw [hnil] at this
      cases this
    · have := (h.mem_preds_new hf).mpr (rfl : b = b)
      rw [← hx, hnil] at this
      cases this
  | @leaves x p hp ho =>
    have hpne : p ≠ b' := fun he => hne (congrArg some he)
    refine ⟨fun hx => ?_, fun hx _ => ?_⟩
    · obtain ⟨q, hq, rfl⟩ := (h.mem_preds hf hx).mp hp
      by_cases hqb : q = b
      · rw [hqb, lastOf_cutAt_self] at hpne
        exact absurd rfl hpne
      · rw [lastOf_cutAt_of_ne hqb] at ho hpne ⊢
        exact .leaves hq (hkeep hpne ho)
    · obtain rfl := (h.mem_preds_new hf).mp (hx ▸ hp)
      exact Or.inl ⟨hkeep hpne ho, rfl⟩
  | @passes x p s hp ho hs ih =>
    have ih := ih hne
    refine ⟨fun hx => ?_, fun hx hnew => ?_⟩
    · obtain ⟨q, hq, rfl⟩ := (h.mem_preds hf hx).mp hp
      by_cases hqb : q = b
      · subst hqb
        rw [lastOf_cutAt_self] at ho ih
        exact (ih.2 rfl ho).arrives hq
      · rw [lastOf_cutAt_of_ne hqb] at ho ih
        have hqm := hf.pred_mem hx hq
        exact .passes hq (fun hd => ho (hother hqb (h.ne_new hqm) hd)) (ih.1 hqm)
    · obtain rfl := (h.mem_preds_new hf).mp (hx ▸ hp)
      exact Or.inr ⟨fun hd => ho (hfirst hnew hd), ih.1 h.first⟩

/-- What comes from elsewhere than the second half came before the cut. -/
theorem arrives_of (h : Bisects b b' f f') (hf : f.Forest) (ht : f.Tables) {x : NodeId}
    {a : Option NodeId} (ha : Arrives f'.preds (f'.Decides v) x a) (hne : a ≠ some b') :
    (x ∈ f.blocks → Arrives f.preds (f.Decides v) x a) ∧
      (x = b' → ¬ f'.Decides v b' → Departs f.preds (f.Decides v) b a) :=
  h.arrives_of_walk hf (h.decides_of ht) (fun hb hb' => (h.decides_other ht hb hb').mpr)
    (fun hnew => (h.decides_first ht hnew).mpr) ha hne

theorem departs_of (h : Bisects b b' f f') (hf : f.Forest) (ht : f.Tables) (hp : p ∈ f.blocks)
    {a : Option NodeId} (ha : Departs f'.preds (f'.Decides v) (lastOf (cutAt b b') p) a)
    (hne : a ≠ some b') : Departs f.preds (f.Decides v) p a := by
  by_cases hpb : p = b
  · subst hpb
    rw [lastOf_cutAt_self] at ha
    rcases ha with ⟨_, ha⟩ | ⟨hd, ha⟩
    · exact absurd ha hne
    · exact (h.arrives_of hf ht ha hne).2 rfl hd
  · rw [lastOf_cutAt_of_ne hpb] at ha
    have hpne := h.ne_new hp
    rcases ha with ⟨hd, rfl⟩ | ⟨hd, ha⟩
    · exact Or.inl ⟨h.decides_of ht hpne hd, rfl⟩
    · exact Or.inr ⟨fun hd' => hd ((h.decides_other ht hpb hpne).mpr hd'),
        (h.arrives_of hf ht ha hne).1 hp⟩

/-- A node is fresh still, or stands behind the second half. -/
theorem fresh_or_behind (h : Bisects b b' f f') (hf : f.Forest) (ht : f.Tables)
    (hp : p ∈ f.blocks) {T : Option TimelineId} (hfresh : f.Fresh v p T) :
    f'.Fresh v (lastOf (cutAt b b') p) T ∨
      Departs f'.preds (f'.Decides v) (lastOf (cutAt b b') p) (some b') := by
  by_cases hbehind : Departs f'.preds (f'.Decides v) (lastOf (cutAt b b') p) (some b')
  · exact Or.inr hbehind
  · refine Or.inl fun a ha => ?_
    have hne : a ≠ some b' := fun he => hbehind (he ▸ ha)
    rw [hfresh a (h.departs_of hf ht hp ha hne)]
    cases a with
    | none => rfl
    | some c =>
      have hc : c ≠ b' := fun he => hne (congrArg some he)
      rw [Option.bind_some, Option.bind_some, h.explicit?_eq ht hc (decides_of_departs ha)]

/-- The nodes of a join stand for the predecessors of its block. -/
theorem complete (h : Bisects b b' f f') (hc : f.Calm)
    (hfeeds : f'.feeds c v = (f.feeds c v).map fun e => (lastOf (cutAt b b') e.1, e.2))
    (hne : f'.joinNodes c v ≠ []) :
    c ∈ f'.blocks ∧ ((f'.feeds c v).map Prod.fst).Perm (f'.preds c) := by
  rw [Ne, h.joins] at hne
  obtain ⟨hmem, hperm⟩ := hc.complete hne
  have hmem' := h.mem_blocks.mpr (Or.inl hmem)
  refine ⟨hmem', ?_⟩
  have hmap : (f'.feeds c v).map Prod.fst =
      ((f.feeds c v).map Prod.fst).map (lastOf (cutAt b b')) := by
    rw [hfeeds, List.map_map, List.map_map]
    rfl
  rw [hmap]
  refine (hperm.map _).trans ?_
  refine (List.perm_ext_iff_of_nodup ?_ ((h.reshapes.forest hc.forest).preds_nodup hmem')).mpr ?_
  · refine (List.nodup_map_iff_inj_on (hc.forest.preds_nodup hmem)).mpr fun p hp q hq he => ?_
    have hp' := fun hpb : p = b' => h.new (hpb ▸ hc.forest.pred_mem hmem hp)
    have hq' := fun hqb : q = b' => h.new (hqb ▸ hc.forest.pred_mem hmem hq)
    by_cases hpb : p = b <;> by_cases hqb : q = b
    · exact hpb.trans hqb.symm
    · rw [hpb, lastOf_cutAt_self, lastOf_cutAt_of_ne hqb] at he
      exact absurd he.symm hq'
    · rw [hqb, lastOf_cutAt_self, lastOf_cutAt_of_ne hpb] at he
      exact absurd he hp'
    · rwa [lastOf_cutAt_of_ne hpb, lastOf_cutAt_of_ne hqb] at he
  · intro p
    rw [h.mem_preds hc.forest hmem, List.mem_map]
    exact exists_congr fun q => and_congr_right fun _ => eq_comm

end Bisects

end DefFlow.Flow
