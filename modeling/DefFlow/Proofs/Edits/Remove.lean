import DefFlow.Proofs.Edits.Retarget

/-!
# Removing instructions

An instruction leaves the code of its block and the timeline it defined. A timeline
that has lost its last definition and joins nothing is given up by the nodes bound to
it, and a timeline that nothing needs any more is forgotten.
-/

set_option autoImplicit false

namespace DefFlow.Flow

open Func

/-! ## Forgetting a timeline -/

def Func.dropped (f : Func) (b : NodeId) (v : VarId) (t : TimelineId) : Func := { f with
  nodes := f.nodes.modify b fun x => { x with timelines := x.timelines.filter fun e => e.1 ≠ v }
  timelines := f.timelines.release t
  memo := [] }

section

variable {f : Func} {b : NodeId} {v : VarId} {t : TimelineId}

theorem blockAt_dropped (hb : (f.nodes.get? b).isSome) (c : NodeId) :
    (f.dropped b v t).blockAt c = if c = b then { f.blockAt c with
      timelines := (f.blockAt c).timelines.filter fun e => e.1 ≠ v } else f.blockAt c :=
  Edit.blockAt_modify f b c _ hb

theorem timelineId?_dropped (hb : (f.nodes.get? b).isSome) (c : NodeId) (w : VarId) :
    (f.dropped b v t).timelineId? c w =
      if c = b ∧ w = v then none else f.timelineId? c w := by
  rw [timelineId?, blockAt_dropped hb, timelineId?]
  by_cases hc : c = b
  · rw [if_pos hc, lookup_filter_ne]
    simp [hc]
  · simp [hc]

theorem get?_dropped (u : TimelineId) :
    (f.dropped b v t).timelines.get? u = if u = t then none else f.timelines.get? u :=
  Arena.get?_release _ _ _

theorem sameGraph_dropped : SameGraph f (f.dropped b v t) :=
  ⟨rfl, rfl, rfl, rfl, rfl, Arena.size_modify _ _ _, fun _ => Edit.isSome_get?_modify _ _ _ _⟩

theorem view_dropped (h : f.Tables) (hid : f.timelineId? b v = some t) {β : Type}
    (g : Option Timeline → β) (hg : g (some (f.timelineAt t)) = g none) (c : NodeId) (w : VarId) :
    g ((f.dropped b v t).timeline? c w) = g (f.timeline? c w) := by
  rw [timeline?, timelineId?_dropped (stored_of_timelineId? hid)]
  by_cases hc : c = b ∧ w = v
  · rw [if_pos hc, hc.1, hc.2, h.timeline?_eq hid, hg]
    rfl
  · rw [if_neg hc, timeline?]
    cases hu : f.timelineId? c w with
    | none => rfl
    | some u =>
      have hne : u ≠ t := fun he => hc (h.eq_of_timelineId? hid (he ▸ hu))
      rw [Option.bind_some, Option.bind_some, get?_dropped, if_neg hne]

theorem dropped_tables (h : f.Tables) (hid : f.timelineId? b v = some t)
    (hunused : (f.timelineAt t).unused = true) : (f.dropped b v t).Tables := by
  simp only [Timeline.unused, Timeline.isEmpty, Bool.and_eq_true, List.isEmpty_iff] at hunused
  obtain ⟨⟨⟨hincoming, _⟩, hreferrers⟩, _⟩ := hunused
  have hb := stored_of_timelineId? hid
  have hget : ∀ {u x}, (f.dropped b v t).timelines.get? u = some x →
      u ≠ t ∧ f.timelines.get? u = some x := by
    intro u x hx
    rw [get?_dropped] at hx
    split at hx
    · cases hx
    · next hne => exact ⟨hne, hx⟩
  have hlive : ∀ {u x}, f.timelines.get? u = some x → u ≠ t →
      (f.dropped b v t).timelines.get? u = some x := by
    intro u x hx hne
    rw [get?_dropped, if_neg hne, hx]
  have hown : ∀ {n i}, f.incoming.get? n = some i → i.owner ≠ t := by
    intro n i hi he
    obtain ⟨x, hx, hn⟩ := h.node hi
    rw [he] at hx
    rw [← timelineAt_of_get? hx, hincoming] at hn
    cases hn
  exact {
    placed := fun {c w u} hu => by
      rw [timelineId?_dropped hb] at hu
      split at hu
      · cases hu
      · next hne =>
        obtain ⟨x, hx, hxc, hxw⟩ := h.placed hu
        exact ⟨x, hlive hx fun he => hne (h.eq_of_timelineId? hid (he ▸ hu)), hxc, hxw⟩
    listed := fun {u x} hx => by
      obtain ⟨hne, hx⟩ := hget hx
      have hl := h.listed hx
      rw [timelineId?_dropped hb, if_neg, hl]
      rintro ⟨hxb, hxv⟩
      rw [hxb, hxv, hid, Option.some.injEq] at hl
      exact hne hl.symm
    sorted := fun c => by
      rw [blockAt_dropped hb]
      split
      · exact (h.sorted c).sublist (List.filter_sublist.map Prod.fst)
      · exact h.sorted c
    owner := fun {u x n} hx hn => h.owner (hget hx).2 hn
    node := fun {n i} hi => by
      obtain ⟨x, hx, hn⟩ := h.node hi
      exact ⟨x, hlive hx (hown hi), hn⟩
    nodes_nodup := fun {u x} hx => h.nodes_nodup (hget hx).2
    target := fun {n i u} hi hit => by
      obtain ⟨x, hx, hn, hv⟩ := h.target hi hit
      refine ⟨x, hlive hx fun he => ?_, hn, ?_⟩
      · rw [he] at hx
        rw [← timelineAt_of_get? hx, hreferrers] at hn
        cases hn
      · rw [hv, timelineAt, timelineAt, get?_dropped, if_neg (hown hi)]
    referrer := fun {u x n} hx hn => h.referrer (hget hx).2 hn
    referrers_nodup := fun {u x} hx => h.referrers_nodup (hget hx).2 }

theorem operates_dropped (h : f.Tables) (hid : f.timelineId? b v = some t)
    (hunused : (f.timelineAt t).unused = true) : Operates f (f.dropped b v t) := by
  have ht := dropped_tables h hid hunused
  simp only [Timeline.unused, Timeline.isEmpty, Bool.and_eq_true, List.isEmpty_iff] at hunused
  obtain ⟨⟨⟨hincoming, hlocals⟩, _⟩, _⟩ := hunused
  have hb := stored_of_timelineId? hid
  have hl : ∀ c w, (f.dropped b v t).locals c w = f.locals c w := fun c w => by
    rw [locals_elim, locals_elim]
    exact view_dropped h hid (·.elim [] fun t => t.locals.map Local.inst) (by simp [hlocals]) c w
  have hj : ∀ c w, (f.dropped b v t).joinNodes c w = f.joinNodes c w := fun c w => by
    rw [joinNodes_elim, joinNodes_elim]
    exact view_dropped h hid (·.elim [] Timeline.incoming) hincoming c w
  have hblock : ∀ c, ((f.dropped b v t).blockAt c).instructions = (f.blockAt c).instructions ∧
      ((f.dropped b v t).blockAt c).phiCount = (f.blockAt c).phiCount := by
    intro c
    rw [blockAt_dropped hb]
    split <;> exact ⟨rfl, rfl⟩
  exact {
    toSameGraph := sameGraph_dropped
    explicit? := fun c w => by
      rw [h.explicit?_eq, ht.explicit?_eq, hl, hj, timelineId?_dropped hb]
      split
      · rfl
      · next hne =>
        rw [if_neg]
        rintro ⟨rfl, rfl⟩
        rw [h.locals_eq hid, h.joinNodes_eq hid, hlocals, hincoming] at hne
        exact hne ⟨rfl, rfl⟩
    feeds := fun c w => by rw [feeds, hj]; rfl
    tables := ht
    code := fun c => (hblock c).1
    phiCount := fun c => (hblock c).2
    locals := hl
    standing := fun _ => rfl }

theorem dropUnused_ok (h : f.Sound) (b : NodeId) (v : VarId) (t : TimelineId) :
    ∃ f', Edit.dropUnused b v t f = .ok () f' ∧ f'.Sound := by
  rw [Edit.dropUnused, Edit.bind_eq Edit.get_eq]
  by_cases hc : f.timelineId? b v = some t ∧ (f.timelineAt t).unused = true
  · refine ⟨f.dropped b v t, by rw [if_pos (by simpa using hc)]; rfl, ?_⟩
    exact ((operates_dropped h.nodesFresh.searchable.tables hc.1 hc.2).tidy h.tidy).forget
  · exact ⟨f, by rw [if_neg (by simpa using hc)]; rfl, h⟩

end

/-! ## Taking a definition away -/

structure Undefines (i : InstId) (f f' : Func) : Prop extends SameGraph f f' where
  tables : f'.Tables
  id : ∀ c w, f'.timelineId? c w = f.timelineId? c w
  feeds : ∀ c w, f'.feeds c w = f.feeds c w
  locals : ∀ c w, f'.locals c w = (f.locals c w).filter fun j => j ≠ i
  code : ∀ c, f'.code c = f.code c
  phiCount : ∀ c, (f'.blockAt c).phiCount = (f.blockAt c).phiCount
  standing : ∀ j, (f'.insts.get? j).map Instruction.standing =
    (f.insts.get? j).map Instruction.standing

section

variable {f f' : Func} {b : NodeId} {t : TimelineId} {i : InstId} {k : Nat}

theorem undefines_refl (h : f.Tables) (hi : ∀ c w, i ∉ f.locals c w) : Undefines i f f where
  toSameGraph := .refl f
  tables := h
  id _ _ := rfl
  feeds _ _ := rfl
  locals c w := by
    rw [List.filter_eq_self.mpr]
    intro j hj
    exact decide_eq_true fun he => hi c w (he ▸ hj)
  code _ := rfl
  phiCount _ := rfl
  standing _ := rfl

theorem addUses_ok (h : f.Tables) (t : TimelineId) (holder : Option InstId) (l : List UseSite) :
    ∃ f', (do
      for u in l do
        Edit.addUse t holder u : Edit Unit) f = .ok ⟨⟩ f' ∧ Operates f f' ∧ f'.nodes = f.nodes := by
  refine Edit.forIn_run (f := f) (fun _ f' => Operates f f' ∧ f'.nodes = f.nodes)
    (fun done u rest f₁ _ h₁ => ?_) ⟨.refl h, rfl⟩
  have hop := operates_changeUses h₁.1.tables t holder (f₁.insertSite u)
  exact ⟨f₁.relisted t fun x => x.changeUses holder (f₁.insertSite u), rfl, h₁.1.trans hop, h₁.2⟩

/-- An instruction is listed as a definition only where it stands, for what it defines. -/
theorem Func.Scheduled.not_mem_locals (h : f.Scheduled) (hi : (f.code b)[k]? = some i)
    {c : NodeId} {w : VarId} (hne : ¬ (c = b ∧ f.defines w i = true)) : i ∉ f.locals c w := by
  intro hm
  rw [h.locals, List.mem_filter] at hm
  exact hne ⟨h.seated.block_unique hm.1 (List.mem_of_getElem? hi), hm.2⟩

theorem undefine_ok (h : f.Scheduled) (ht : f.Tables) (hi : (f.code b)[k]? = some i) {d : Def}
    (hd : (f.inst i).dest = some d) (hid : f.timelineId? b d.var = some t) :
    ∃ f', Edit.undefine t i f = .ok () f' ∧ Undefines i f f' := by
  have hrel : Relisting fun x => { x with locals := x.locals.filter fun l => l.inst ≠ i } :=
    ⟨fun _ => rfl, fun _ => rfl, fun _ => rfl, fun _ => rfl⟩
  let f₁ : Func := { f.relisted t (fun x => { x with
    locals := x.locals.filter fun l => l.inst ≠ i }) with memo := [] }
  have ht₁ : f₁.Tables := tables_memo (relisted_tables ht hrel) []
  have hfeeds : ∀ c w, f₁.feeds c w = f.feeds c w := fun c w =>
    feeds_relisted (f := f) (t := t) hrel c w
  have hgraph : SameGraph f f₁ := ⟨rfl, rfl, rfl, rfl, rfl, rfl, fun _ => rfl⟩
  have hl : ∀ c w, f₁.locals c w = (f.locals c w).filter fun j => j ≠ i := by
    intro c w
    refine (locals_relisted ht c w).trans ?_
    by_cases hc : f.timelineId? c w = some t
    · rw [if_pos hc, ht.locals_eq hc, List.filter_map]
      rfl
    · rw [if_neg hc, List.filter_eq_self.mpr]
      intro j hj
      refine decide_eq_true fun he => h.not_mem_locals hi (c := c) (w := w) ?_ (he ▸ hj)
      rintro ⟨rfl, hw⟩
      rw [defines, hd] at hw
      exact hc (of_decide_eq_true hw ▸ hid)
  obtain ⟨f₂, hrun, hop, hnodes⟩ := addUses_ok ht₁ t
    (f₁.lastBefore (f₁.timelineAt t).locals (f₁.indexOf i)) ((f.timelineAt t).usesOf (some i))
  refine ⟨f₂, hrun, {
    toSameGraph := hgraph.trans hop.toSameGraph
    tables := hop.tables
    id := fun c w => by
      rw [timelineId?, blockAt, hnodes]
      rfl
    feeds := fun c w => (hop.feeds c w).trans (hfeeds c w)
    locals := fun c w => (hop.locals c w).trans (hl c w)
    code := hop.code
    phiCount := hop.phiCount
    standing := hop.standing }⟩

end

/-! ## Taking an instruction out of the code -/

structure Unplaces (i : InstId) (f f' : Func) : Prop extends Recodes f f' where
  code : ∀ c, f'.code c = (f.code c).filter fun j => j ≠ i
  phis : ∀ c, (f'.blockAt c).phiCount ≤ (f'.code c).length
  front : ∀ c, ((f'.code c).take (f'.blockAt c).phiCount).Sublist
    ((f.code c).take (f.blockAt c).phiCount)
  back : ∀ c, ((f'.code c).drop (f'.blockAt c).phiCount).Sublist
    ((f.code c).drop (f.blockAt c).phiCount)
  seated : f'.Seated
  content : ∀ j, (f'.inst j).content = (f.inst j).content

theorem Unplaces.dest {i : InstId} {f f' : Func} (h : Unplaces i f f') (j : InstId) :
    (f'.inst j).dest = (f.inst j).dest := congrArg (fun x => x.2.2) (h.content j)

def Func.withoutInst (f : Func) (b : NodeId) (k : Nat) : Func := { f with
  nodes := f.nodes.modify b fun x => { x with
    phiCount := if k < x.phiCount then x.phiCount - 1 else x.phiCount
    instructions := x.instructions.eraseIdx k } }

section

variable {f f' : Func} {b : NodeId} {i : InstId} {k : Nat}

theorem eraseIdx_eq_filter {l : List Nat} (hn : l.Nodup) {a : Nat} (h : l[k]? = some a) :
    l.eraseIdx k = l.filter fun x => x ≠ a := by
  rw [← idxOf_of_getElem? hn h, List.eraseIdx_idxOf_eq_erase, hn.erase_eq_filter]
  refine List.filter_congr fun x _ => ?_
  rw [Bool.eq_iff_iff, bne_iff_ne, decide_eq_true_iff]

/-- What is taken out of a list of two parts is taken out of one of them. -/
theorem eraseIdx_parts {α : Type} (l : List α) (k p : Nat) :
    ((l.eraseIdx k).take (if k < p then p - 1 else p)).Sublist (l.take p) ∧
      ((l.eraseIdx k).drop (if k < p then p - 1 else p)).Sublist (l.drop p) := by
  induction l generalizing k p with
  | nil => simp
  | cons x l ih =>
    cases p with
    | zero => exact ⟨by simp, by simpa using List.eraseIdx_sublist (x :: l) k⟩
    | succ n =>
      cases k with
      | zero => simp
      | succ m =>
        obtain ⟨htake, hdrop⟩ := ih m n
        have hcount : (if m + 1 < n + 1 then n + 1 - 1 else n + 1) =
            (if m < n then n - 1 else n) + 1 := by
          split <;> split <;> omega
        rw [hcount, List.eraseIdx_cons_succ, List.take_succ_cons, List.drop_succ_cons]
        exact ⟨htake.cons_cons x, hdrop⟩

theorem blockAt_withoutInst (hb : (f.nodes.get? b).isSome) (c : NodeId) :
    (f.withoutInst b k).blockAt c = if c = b then { f.blockAt c with
      phiCount := if k < (f.blockAt c).phiCount then (f.blockAt c).phiCount - 1
        else (f.blockAt c).phiCount
      instructions := (f.blockAt c).instructions.eraseIdx k } else f.blockAt c :=
  Edit.blockAt_modify f b c _ hb

theorem Func.stored_of_code (hi : (f.code b)[k]? = some i) : (f.nodes.get? b).isSome := by
  cases hb : f.nodes.get? b with
  | some x => rfl
  | none =>
    rw [code, blockAt, hb] at hi
    cases hi

theorem code_withoutInst (h : f.Seated) (hi : (f.code b)[k]? = some i) (c : NodeId) :
    (f.withoutInst b k).code c = (f.code c).filter fun j => j ≠ i := by
  rw [Func.code, blockAt_withoutInst (stored_of_code hi)]
  split
  · next hc =>
    subst hc
    exact eraseIdx_eq_filter (h.nodup c) hi
  · next hc =>
    refine (List.filter_eq_self.mpr fun j hj => ?_).symm
    rw [decide_eq_true_iff]
    exact fun he => hc (h.block_unique (he ▸ hj) (List.mem_of_getElem? hi))

theorem recodes_withoutInst (hi : (f.code b)[k]? = some i) : Recodes f (f.withoutInst b k) where
  handle := rfl
  body := rfl
  bodyHeld := rfl
  detached := rfl
  frozen := rfl
  size := Arena.size_modify _ _ _
  stored c := Edit.isSome_get?_modify _ _ _ _
  listed c := by
    rw [blockAt_withoutInst (stored_of_code hi)]
    split <;> rfl
  timelines := rfl
  incoming := rfl

/-- A change of an instruction that stands elsewhere can come first as well. -/
theorem Reindexed.changeInst (h : Reindexed b f f') (hi : i ∉ f.code b)
    (change : Instruction → Instruction) :
    Reindexed b { f with insts := f.insts.modify i change }
      { f' with insts := f'.insts.modify i change } where
  rest := by rw [h.rest]
  get j := by
    rw [Arena.get?_modify_map, Arena.get?_modify_map, h.get, Option.map_map, Option.map_map]
    congr 1
    funext x
    rw [Function.comp_apply, Function.comp_apply]
    by_cases hj : i = j
    · subst hj
      rw [if_neg hi, if_neg (show i ∉ Func.code { f with insts := f.insts.modify i change } b
        from hi)]
    · rw [if_neg hj, if_neg hj]
      rfl

theorem mem_code_withoutInst (h : f.Seated) (hi : (f.code b)[k]? = some i) {j : InstId}
    {c : NodeId} : j ∈ (f.withoutInst b k).code c ↔ j ∈ f.code c ∧ j ≠ i := by
  rw [code_withoutInst h hi, List.mem_filter, decide_eq_true_iff]

/-- What is left knows its place once the block of the instruction has been counted again. -/
theorem seated_withoutInst (h : f.Seated) (hi : (f.code b)[k]? = some i)
    (hre : Reindexed b (f.withoutInst b k) f') :
    Func.Seated { f' with insts := f'.insts.modify i fun x => { x with block := none } } := by
  have hmem := @mem_code_withoutInst f b i k h hi
  have hget : ∀ j, (f.insts.modify i fun x => { x with block := none }).get? j =
      (f.insts.get? j).map fun x => if i = j then { x with block := none } else x :=
    Arena.get?_modify_map _ _ _
  have hnodup : ∀ c, ((f.withoutInst b k).code c).Nodup := fun c =>
    code_withoutInst h hi c ▸ (h.nodup c).filter _
  have hre' := hre.changeInst (i := i) (fun hm => (hmem.mp hm).2 rfl)
    fun x => { x with block := none }
  refine hre'.seated hnodup (fun {j c} _ => ?_) (fun {j c x} hj hc hx => ?_) fun j hj => ?_
  · show j ∈ (f.withoutInst b k).code c ↔ _
    rw [hmem, h.claims]
    simp only [withoutInst, hget]
    by_cases hj : j = i
    · subst hj
      simp
    · simp [hj, Ne.symm hj]
  · change j ∉ (f.withoutInst b k).code b at hj
    change j ∈ (f.withoutInst b k).code c at hc
    have hcb : c ≠ b := fun he => hj (he ▸ hc)
    have hsame : (f.withoutInst b k).code c = f.code c := by
      rw [Func.code, blockAt_withoutInst (stored_of_code hi), if_neg hcb]
      rfl
    obtain ⟨hm, hne⟩ := hmem.mp hc
    change (f.insts.modify i fun x => { x with block := none }).get? j = some x at hx
    rw [hget, Option.map_eq_some_iff] at hx
    obtain ⟨y, hy, rfl⟩ := hx
    rw [if_neg (Ne.symm hne)]
    show y.index = ((f.withoutInst b k).code c).idxOf j
    rw [hsame]
    exact h.index hm hy
  · obtain ⟨hm, hne⟩ := hmem.mp hj
    obtain ⟨y, hy, _⟩ := h.claims.mp hm
    refine ⟨?_, fun c hc => h.block_unique (hmem.mp hc).1 hm⟩
    show ((f.insts.modify i fun x => { x with block := none }).get? j).isSome = true
    rw [hget, hy]
    rfl

theorem unplace_ok (h : f.Seated) (hphis : ∀ c, (f.blockAt c).phiCount ≤ (f.code c).length)
    (hi : (f.code b)[k]? = some i) :
    ∃ f', Edit.reindex b (f.withoutInst b k) = .ok () f' ∧ Unplaces i f { f' with
      insts := f'.insts.modify i fun x => { x with block := none }, memo := [] } := by
  have hcode := code_withoutInst h hi
  obtain ⟨f', hrun, hre⟩ := reindex_ok (hcode b ▸ (h.nodup b).filter _)
  have hout : i ∉ (f.withoutInst b k).code b := fun hm => ((mem_code_withoutInst h hi).mp hm).2 rfl
  have hre' := hre.changeInst hout fun x => { x with block := none }
  have hseated := seated_withoutInst h hi hre
  refine ⟨f', hrun, {
    toRecodes := ((recodes_withoutInst hi).trans (recodes_changeInst _ i _)).trans
      (hre'.recodes.trans ⟨⟨rfl, rfl, rfl, rfl, rfl, rfl, fun _ => rfl⟩, fun _ => rfl, rfl, rfl⟩)
    code := fun c => ?_
    phis := fun c => ?_
    front := fun c => ?_
    back := fun c => ?_
    seated := ⟨hseated.nodup, hseated.claims, hseated.index⟩
    content := fun j => ?_ }⟩
  · rw [← hcode]
    show (f'.blockAt c).instructions = _
    rw [hre.blockAt]
    rfl
  · show (f'.blockAt c).phiCount ≤ (f'.blockAt c).instructions.length
    rw [hre.blockAt, blockAt_withoutInst (stored_of_code hi)]
    have hle := hphis c
    split
    · next hc =>
      subst hc
      have hk : k < (f.code c).length := (List.getElem?_eq_some_iff.mp hi).1
      simp only [List.length_eraseIdx]
      rw [Func.code] at hle hk
      rw [if_pos hk]
      split <;> omega
    · exact hle
  · show ((f'.blockAt c).instructions.take (f'.blockAt c).phiCount).Sublist _
    rw [hre.blockAt, blockAt_withoutInst (stored_of_code hi)]
    split
    · exact (eraseIdx_parts _ _ _).1
    · exact .refl _
  · show ((f'.blockAt c).instructions.drop (f'.blockAt c).phiCount).Sublist _
    rw [hre.blockAt, blockAt_withoutInst (stored_of_code hi)]
    split
    · exact (eraseIdx_parts _ _ _).2
    · exact .refl _
  · exact (content_changeInst f' i (fun x => { x with block := none }) (fun _ => rfl) j).trans
      (hre.content j)

theorem takeOut_ok (h : f.Seated) (hphis : ∀ c, (f.blockAt c).phiCount ≤ (f.code c).length)
    (hi : (f.code b)[k]? = some i) {α : Type} {m : Edit α} {a : α}
    (hrun : (do
      Edit.changeBlock b fun x => { x with
        phiCount := if k < x.phiCount then x.phiCount - 1 else x.phiCount
        instructions := x.instructions.eraseIdx k }
      Edit.reindex b
      Edit.changeInst i fun x => { x with block := none }
      Edit.bump
      m : Edit α) f = .ok a f') :
    ∃ f₁, Unplaces i f f₁ ∧ f₁.memo = [] ∧ m f₁ = .ok a f' := by
  obtain ⟨f₁, hre, hout⟩ := unplace_ok h hphis hi
  have hrun₁ : (do
      Edit.reindex b
      Edit.changeInst i fun x => { x with block := none }
      Edit.bump
      m : Edit α) (f.withoutInst b k) = .ok a f' := hrun
  rw [Edit.bind_eq hre] at hrun₁
  exact ⟨_, hout, rfl, hrun₁⟩

end

/-! ## The whole removal -/

structure Removes (i : InstId) (f f' : Func) : Prop extends SameGraph f f' where
  tables : f'.Tables
  id : ∀ c w, f'.timelineId? c w = f.timelineId? c w
  feeds : ∀ c w, f'.feeds c w = f.feeds c w
  locals : ∀ c w, f'.locals c w = (f.locals c w).filter fun j => j ≠ i
  scheduled : f'.Scheduled
  memo : f'.memo = []

section

variable {f f' f'' : Func} {b : NodeId} {v : VarId} {t : TimelineId} {i : InstId} {k : Nat}

theorem Undefines.removes (h : Undefines i f f') (h' : Unplaces i f' f'') (hs : f.Scheduled)
    (hm : f''.memo = []) : Removes i f f'' where
  toSameGraph := h.toSameGraph.trans h'.toSameGraph
  tables := h'.tables h.tables
  id c w := (h'.timelineId? c w).trans (h.id c w)
  feeds c w := (h'.feeds c w).trans (h.feeds c w)
  locals c w := (h'.locals c w).trans (h.locals c w)
  scheduled := by
    have hdef : ∀ w, f''.defines w = f.defines w := by
      intro w
      funext j
      rw [defines, defines, h'.dest, dest_of_standing (h.standing j)]
    refine h'.seated.scheduled h'.phis fun c w => ?_
    rw [h'.locals, h.locals, h'.code, h.code, hs.locals, hdef, List.filter_comm]
  memo := hm

theorem Removes.explicit?_eq (h : Removes i f f') (c : NodeId) (w : VarId) : f'.explicit? c w =
    if ((f.locals c w).filter fun j => j ≠ i) = [] ∧ f.joinNodes c w = [] then none
    else f.timelineId? c w := by
  rw [h.tables.explicit?_eq, h.locals, h.id]
  simp only [← feeds_eq_nil_iff, h.feeds]

theorem Removes.explicit?_of_not_mem (h : Removes i f f') (ht : f.Tables) {c : NodeId} {w : VarId}
    (hi : i ∉ f.locals c w) : f'.explicit? c w = f.explicit? c w := by
  rw [h.explicit?_eq, ht.explicit?_eq, List.filter_eq_self.mpr]
  intro j hj
  rw [decide_eq_true_iff]
  exact fun he => hi (he ▸ hj)

/-- A removal after which every block decides what it decided before. -/
theorem Removes.sound (h : Removes i f f') (hf : f.Tidy)
    (hsame : ∀ c w, f'.explicit? c w = f.explicit? c w) : f'.Sound where
  nodesFresh := (hf.calm.sameFlow ⟨h.toSameGraph, hsame, h.feeds⟩ h.tables).nodesFresh
    (remembers_of_nil h.memo)
  scheduled := h.scheduled

/-- The timeline of a definition decides the value that leaves its block. -/
theorem Func.Scheduled.explicit?_of_dest (h : f.Scheduled) (ht : f.Tables)
    (hi : (f.code b)[k]? = some i) {d : Def} (hd : (f.inst i).dest = some d) :
    ∃ t, f.explicit? b d.var = some t := by
  have hmem : i ∈ f.locals b d.var := by
    rw [h.locals, List.mem_filter, defines, hd]
    exact ⟨List.mem_of_getElem? hi, decide_eq_true rfl⟩
  have hne := List.ne_nil_of_mem hmem
  rw [ht.explicit?_eq, if_neg fun hn => hne hn.1]
  cases hid : f.timelineId? b d.var with
  | some t => exact ⟨t, rfl⟩
  | none => exact absurd (locals_of_none hid) hne

/-- After the removal of a definition the nodes are bound anew where that is needed. -/
theorem Removes.retarget (h : Removes i f f') (hf : f.Tidy) (hb : b ∈ f.blocks)
    (hi : (f.code b)[k]? = some i) {d : Def} (hd : (f.inst i).dest = some d)
    (hid : f.timelineId? b d.var = some t) :
    ∃ f'', Edit.retarget t f' = .ok ⟨⟩ f'' ∧ f''.Sound := by
  have ht := hf.calm.tables
  have hwas : f.explicit? b d.var = some t := by
    obtain ⟨u, hu⟩ := hf.scheduled.explicit?_of_dest ht hi hd
    rw [hu, ← timelineId?_of_explicit? hu, hid]
  have hother : ∀ c w, ¬ (c = b ∧ w = d.var) → f'.explicit? c w = f.explicit? c w := by
    intro c w hne
    refine h.explicit?_of_not_mem ht (hf.scheduled.not_mem_locals hi ?_)
    rintro ⟨rfl, hw⟩
    rw [defines, hd] at hw
    exact hne ⟨rfl, (of_decide_eq_true hw).symm⟩
  have hid' : f'.timelineId? b d.var = some t := (h.id b d.var).trans hid
  by_cases hexp : (f'.timelineAt t).explicit = true
  · refine ⟨f', ?_, h.sound hf fun c w => ?_⟩
    · rw [Edit.retarget, Edit.bind_eq Edit.get_eq]
      simp only [hexp, Bool.or_true, if_true]
      rfl
    · by_cases hc : c = b ∧ w = d.var
      · rw [hc.1, hc.2, hwas, explicit?_of_timeline hid', if_pos hexp]
      · exact hother c w hc
  · have hloses : Loses b d.var t f f' := {
      toSameGraph := h.toSameGraph
      tables := h.tables
      feeds := h.feeds
      id := hid'
      was := hwas
      explicit? := fun c w => by
        split
        · next hc => rw [hc.1, hc.2, explicit?_of_timeline hid', if_neg hexp]
        · next hc => exact hother c w hc
      memo := h.memo }
    obtain ⟨f'', hrun, hset, ha⟩ := hloses.retarget hf.calm hb
    exact ⟨f'', hrun, hset, ha.scheduled h.scheduled⟩

theorem eraseUses_ok (h : f.Tables) {g : Func} {l : List (UseSite × VarId)} {α : Type}
    {m : PUnit → Edit α} {a : α}
    (hrun : (forIn l PUnit.unit (fun (x : UseSite × VarId) _ =>
      match x with
      | (u, v) =>
        match g.timelineId? b v with
        | some t => do
          Edit.changeTimeline t fun y => y.eraseUse u
          pure (ForInStep.yield PUnit.unit)
        | _ => pure (ForInStep.yield PUnit.unit)) >>= m) f = .ok a f') :
    ∃ f₁, Operates f f₁ ∧ m ⟨⟩ f₁ = .ok a f' := by
  refine Edit.forIn_ok (fun _ f' => Operates f f') (fun done x rest f₁ s f₂ _ h₁ hstep => ?_)
    (.refl h) hrun
  obtain ⟨u, v⟩ := x
  cases hid : g.timelineId? b v with
  | none =>
    simp only [hid] at hstep
    cases hstep
    exact ⟨rfl, h₁⟩
  | some t =>
    simp only [hid] at hstep
    cases hstep
    exact ⟨rfl, h₁.trans
      (operates_relisted h₁.tables (relisting_eraseUse u) fun y => locals_eraseUse y u)⟩

theorem dropAll_ok (h : f.Sound) (b : NodeId) (l : List (VarId × TimelineId)) :
    ∃ f', (do
      for (v, t) in l do
        Edit.dropUnused b v t : Edit Unit) f = .ok ⟨⟩ f' ∧ f'.Sound := by
  refine Edit.forIn_run (f := f) (fun _ f' => f'.Sound) (fun done x rest f₁ _ h₁ => ?_) h
  obtain ⟨f₂, hrun, h₂⟩ := dropUnused_ok h₁ b x.1 x.2
  exact ⟨f₂, (Edit.bind_eq hrun).trans rfl, h₂⟩

theorem removeInst_ok (h : f.Sound) (hb : b ∈ f.blocks) {r : InstRef} {u : Unit}
    (hrun : Edit.removeInst b r f = .ok u f') : f'.Sound := by
  obtain ⟨_, hrun₁⟩ := Edit.unfrozen_bind_ok hrun
  rw [Edit.bind_eq Edit.get_eq] at hrun₁
  obtain ⟨hi, hrun₂⟩ := standsIn_bind_ok h.scheduled hrun₁
  obtain ⟨f₁, hop, hrun₃⟩ := eraseUses_ok h.nodesFresh.searchable.tables hrun₂
  have htidy := hop.tidy h.tidy
  have hi₁ : (f₁.code b)[f.indexOf r.id]? = some r.id := by rw [hop.code]; exact hi
  have hb₁ : b ∈ f₁.blocks := by rw [hop.blocks]; exact hb
  cases hd : (f.inst r.id).dest with
  | none =>
    have hd₁ : (f₁.inst r.id).dest = none := (hop.dest _).trans hd
    have hnone : ∀ c w, r.id ∉ f₁.locals c w := fun c w =>
      htidy.scheduled.not_mem_locals hi₁ fun hc => by
        rw [defines, hd₁] at hc
        cases hc.2
    have hun := undefines_refl htidy.calm.tables hnone
    simp only [hd, Option.bind_none] at hrun₃
    obtain ⟨f₂, hout, hm, hrun₄⟩ := takeOut_ok htidy.scheduled.seated htidy.scheduled.phis hi₁ hrun₃
    have hrem := hun.removes hout htidy.scheduled hm
    have hsound := hrem.sound htidy fun c w =>
      hrem.explicit?_of_not_mem htidy.calm.tables (hnone c w)
    obtain ⟨f₃, hdrop, h₃⟩ := dropAll_ok hsound b _
    rw [hdrop] at hrun₄
    cases hrun₄
    exact h₃
  | some d =>
    have hd₁ : (f₁.inst r.id).dest = some d := (hop.dest _).trans hd
    obtain ⟨t, hexp⟩ := h.scheduled.explicit?_of_dest h.nodesFresh.searchable.tables hi hd
    have hid₁ := timelineId?_of_explicit? ((hop.explicit? b d.var).trans hexp)
    obtain ⟨f₂, hundef, hun⟩ := undefine_ok htidy.scheduled htidy.calm.tables hi₁ hd₁ hid₁
    simp only [hd, Option.bind_some, timelineId?_of_explicit? hexp, Option.map_some] at hrun₃
    rw [Edit.bind_eq hundef] at hrun₃
    have hseated := htidy.scheduled.seated.congr hun.code hun.standing
    have hphis : ∀ c, (f₂.blockAt c).phiCount ≤ (f₂.code c).length := fun c => by
      rw [hun.phiCount, hun.code]
      exact htidy.scheduled.phis c
    obtain ⟨f₃, hout, hm, hrun₄⟩ := takeOut_ok hseated hphis (by rw [hun.code]; exact hi₁) hrun₃
    have hrem := hun.removes hout htidy.scheduled hm
    obtain ⟨f₄, hretarget, h₄⟩ := hrem.retarget htidy hb₁ hi₁ hd₁ hid₁
    obtain ⟨f₅, hdrop, h₅⟩ := dropAll_ok h₄ b _
    rw [Edit.bind_eq hretarget, hdrop] at hrun₄
    cases hrun₄
    exact h₅

end

end DefFlow.Flow
