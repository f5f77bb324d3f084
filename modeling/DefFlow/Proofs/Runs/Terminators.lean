import DefFlow.Proofs.Runs.Recall

/-!
# Where terminators stand

Main statement: every terminator stays the last instruction of its block, until a terminator is put
in front of other instructions. An insertion looks for a terminator behind which it would come, and
not for the instructions that would come behind a terminator.
-/

set_option autoImplicit false

namespace DefFlow.Flow

open Func

/-- The members that pass a test are the last one, if it does, just if no other member does. -/
theorem filter_eq_last_iff {α : Type} {p : α → Bool} {l : List α} :
    l.filter p = (l.getLast?.filter p).toList ↔ l.Pairwise fun a _ => p a = false := by
  rcases List.eq_nil_or_concat l with rfl | ⟨l, a, rfl⟩
  · simp
  · have hlast : (Option.some a |>.filter p).toList = [a].filter p := by
      cases h : p a <;> simp [h]
    rw [List.concat_eq_append, List.filter_append, List.getLast?_concat, hlast,
      List.append_left_eq_self, List.filter_eq_nil_iff, List.pairwise_append]
    constructor
    · intro h
      have hl : ∀ x ∈ l, p x = false := fun x hx => by simpa using h x hx
      exact ⟨List.pairwise_of_forall_mem_list fun x hx _ _ => hl x hx, List.pairwise_singleton _ _,
        fun x hx _ _ => hl x hx⟩
    · rintro ⟨-, -, h⟩ x hx
      rw [h x hx a List.mem_cons_self]
      exact Bool.false_ne_true

namespace Func

/-- The terminators of a block are the one that ends it, if there is one. -/
def EndsLast (f : Func) (b : NodeId) : Prop :=
  (f.code b).filter (fun i => (f.inst i).op.terminates) = (f.terminator? b).toList

instance (f : Func) (b : NodeId) : Decidable (f.EndsLast b) :=
  inferInstanceAs (Decidable (_ = _))

theorem endsLast_iff {f : Func} {b : NodeId} :
    f.EndsLast b ↔ (f.code b).Pairwise fun i _ => (f.inst i).op.terminates = false :=
  filter_eq_last_iff

end Func

section

variable {f f' f'' : Func} {b : NodeId} {i : InstId} {n : Nat} {code : Opcode}
  {dest : Option Variable} {args : List Arg}

/-! ## Edits that enter nothing -/

structure Sifts (f f' : Func) : Prop where
  code : ∀ c, ∃ d, (f'.code c).Sublist (f.code d)
  op : ∀ j, (f'.inst j).op = (f.inst j).op

namespace Sifts

theorem of_code (hc : ∀ c, f'.code c = f.code c) (hi : f'.insts = f.insts) : Sifts f f' where
  code c := ⟨c, hc c ▸ List.Sublist.refl _⟩
  op j := by rw [inst, inst, hi]

theorem of_keeps (h : Keeps f f') : Sifts f f' := of_code h.instructions h.insts

theorem of_restocks (h : Restocks f f') : Sifts f f' := of_code h.code h.insts

theorem trans (h : Sifts f f') (h' : Sifts f' f'') : Sifts f f'' where
  code c := by
    obtain ⟨d, hd⟩ := h'.code c
    obtain ⟨e, he⟩ := h.code d
    exact ⟨e, hd.trans he⟩
  op j := (h'.op j).trans (h.op j)

theorem endsLast (h : Sifts f f') (hf : ∀ b, f.EndsLast b) (b : NodeId) : f'.EndsLast b := by
  obtain ⟨d, hd⟩ := h.code b
  rw [endsLast_iff]
  simp only [h.op]
  exact (endsLast_iff.mp (hf d)).sublist hd

end Sifts

theorem Unplaces.sifts (h : Unplaces i f f') : Sifts f f' where
  code c := ⟨c, h.code c ▸ List.filter_sublist⟩
  op j := congrArg Prod.fst (h.content j)

theorem Halves.sifts {b' : NodeId} (h : Halves b b' n f f') : Sifts f f' where
  code c := by
    by_cases hb : c = b
    · exact ⟨b, by rw [hb, h.front]; exact List.take_sublist n _⟩
    · by_cases hb' : c = b'
      · exact ⟨b, by rw [hb', h.back]; exact List.drop_sublist n _⟩
      · exact ⟨c, by rw [h.code c hb hb']⟩
  op j := congrArg Prod.fst (h.content j)

theorem removeInst_sifts (h : f.WellFormed) {r : InstRef} {u : Unit}
    (hrun : Edit.removeInst b r f = .ok u f') : Sifts f f' := by
  obtain ⟨f₁, f₂, f₃, l, hposts, hout, -, hw, hdrop⟩ := removeInst_unplaces h hrun
  exact (Sifts.of_keeps hposts.toKeeps).trans (hout.sifts.trans
    ((Sifts.of_keeps hw.toKeeps).trans (.of_keeps (dropAll_keeps hdrop))))

theorem split_sifts (h : f.WellFormed) {ref : ComponentRef} {position : Int} {b' : NodeId}
    (hb : (f.nodes.get? ref.id).isSome) (hrun : Edit.split ref position f = .ok b' f') :
    Sifts f f' := by
  obtain ⟨f₁, f₂, f₃, f₄, hhalves, hr, hposts, hmoves, -, hw⟩ := split_steps h hb hrun
  have h₄ : Sifts f₃ f₄ := .of_code (fun c => by rw [hmoves.rest]; rfl) (by rw [hmoves.rest])
  exact hhalves.sifts.trans ((Sifts.of_restocks hr).trans ((Sifts.of_keeps hposts.toKeeps).trans
    (h₄.trans (.of_keeps hw.toKeeps))))

/-! ## Edits that enter an instruction -/

structure Inserts (b : NodeId) (n : Nat) (op : Opcode) (i : InstId) (f f' : Func) : Prop where
  code : ∀ c, f'.code c = if c = b then (f.code b).take n ++ i :: (f.code b).drop n else f.code c
  self : (f'.inst i).op = op
  old : ∀ {c j}, j ∈ f.code c → (f'.inst j).op = (f.inst j).op

namespace Inserts

variable {op : Opcode}

theorem other (h : Inserts b n op i f f') (hf : ∀ c, f.EndsLast c) {c : NodeId} (hc : c ≠ b) :
    f'.EndsLast c := by
  rw [endsLast_iff, h.code, if_neg hc]
  refine (endsLast_iff.mp (hf c)).imp_of_mem fun hj _ hop => ?_
  rw [h.old hj]
  exact hop

/-- In front of other instructions anything may come but a terminator. -/
theorem endsLast_iff_of_lt (h : Inserts b n op i f f') (hf : ∀ c, f.EndsLast c)
    (hn : n < (f.code b).length) : (∀ c, f'.EndsLast c) ↔ op.terminates = false := by
  have hdrop : (f.code b).drop n = (f.code b)[n] :: (f.code b).drop (n + 1) :=
    List.drop_eq_getElem_cons hn
  have hold := (endsLast_iff.mp (hf b)).imp_of_mem
      (S := fun j _ => (f'.inst j).op.terminates = false)
    fun hj _ hop => by rw [h.old hj]; exact hop
  rw [← List.take_append_drop n (f.code b), List.pairwise_append] at hold
  obtain ⟨hfront, hback, hacross⟩ := hold
  have hnext : (f.code b)[n] ∈ (f.code b).drop n := hdrop ▸ List.mem_cons_self
  have hb : f'.EndsLast b ↔ op.terminates = false := by
    rw [endsLast_iff, h.code, if_pos rfl, List.pairwise_append, List.pairwise_cons, h.self]
    constructor
    · rintro ⟨-, ⟨hi, -⟩, -⟩
      exact hi _ hnext
    · intro hop
      exact ⟨hfront, ⟨fun _ _ => hop, hback⟩, fun j hj _ _ => hacross j hj _ hnext⟩
  refine ⟨fun hall => hb.mp (hall b), fun hop c => ?_⟩
  by_cases hc : c = b
  · exact hc ▸ hb.mpr hop
  · exact h.other hf hc

/-- Where no terminator ends the block, anything may come to the end. -/
theorem endsLast_of_end (h : Inserts b (f.code b).length op i f f') (hf : ∀ c, f.EndsLast c)
    (hend : f.terminator? b = none) (c : NodeId) : f'.EndsLast c := by
  by_cases hc : c = b
  · have hnone : ∀ j ∈ f.code c, (f.inst j).op.terminates = false := by
      have hfilter := hf b
      rw [EndsLast, hend, Option.toList_none, List.filter_eq_nil_iff] at hfilter
      exact fun j hj => by simpa using hfilter j (hc ▸ hj)
    rw [endsLast_iff, h.code, if_pos hc, List.take_length, List.drop_length, ← hc,
      List.pairwise_append]
    have hop : ∀ j ∈ f.code c, (f'.inst j).op.terminates = false := fun j hj => by
      rw [h.old hj]
      exact hnone j hj
    exact ⟨List.pairwise_of_forall_mem_list fun j hj _ _ => hop j hj, List.pairwise_singleton _ _,
      fun j hj _ _ => hop j hj⟩
  · exact h.other hf hc

end Inserts

theorem insertable_place {op : Operation} {u : Unit}
    (h : Edit.insertable op b n code dest args f = .ok u f') {last : InstId}
    (hlast : f.terminator? b = some last) : n ≤ f.indexOf last := by
  obtain ⟨_, h₁⟩ := Edit.unfrozen_bind_ok h
  obtain ⟨_, h₂⟩ := Edit.require_bind_ok h₁
  obtain ⟨_, f₁, harity, h₃⟩ := Edit.bind_ok h₂
  obtain ⟨_, h₄⟩ := Edit.require_bind_ok h₃
  obtain ⟨_, h₅⟩ := Edit.require_bind_ok h₄
  obtain ⟨_, f₂, hplace, _⟩ := Edit.bind_ok h₅
  rw [checkArity_ok harity, Edit.checkPlace, Edit.bind_eq Edit.get_eq, hlast] at hplace
  exact of_decide_eq_true (Edit.require_ok hplace).1

theorem insertInst_inserts (h : f.WellFormed) (hb : (f.nodes.get? b).isSome) {op : Operation}
    (hn : n ≤ (f.code b).length)
    (hrun : Edit.insertInst op b n code dest args f = .ok i f') : Inserts b n code i f f' := by
  obtain ⟨f₁, hpl, ht, -⟩ := insertInst_places h hb hn hrun
  exact {
    code := fun c => (ht.code c).trans (hpl.code c)
    self := (ht.op i).trans hpl.op_self
    old := fun hj => (hpl.old h.scheduled ht.others hj).1 }

theorem createPhi_inserts (h : f.WellFormed) (hb : (f.nodes.get? b).isSome) {x : Variable}
    (hrun : Edit.createPhi b x f = .ok i f') : Inserts b (f.blockAt b).phiCount .phi i f f' := by
  obtain ⟨t, f₁, f₂, f₃, hw, hpl, hb₂, hset, -, hw', -⟩ := createPhi_places h hb hrun
  have h₁ := hw.toRelinks.wellFormed h
  have hcode : ∀ c, f₁.code c = f.code c := hw.instructions
  exact {
    code := fun c => by
      rw [Func.code, hw'.instructions, ← Func.code, hset.code, code_withPhi hb₂, hpl.code,
        hcode, hcode, hw.phiCount]
    self := by
      rw [hw'.inst, hset.op]
      exact hpl.op_self
    old := fun hj => by
      rw [hw'.inst, (hpl.old h₁.scheduled hset.others (hcode _ ▸ hj)).1, hw.inst] }

/-- Inserting keeps terminators last unless it puts one in front of other instructions. -/
theorem insertInst_endsLast (h : f.WellFormed) (hf : ∀ c, f.EndsLast c)
    (hb : (f.nodes.get? b).isSome)
    {op : Operation} (hn : n ≤ (f.code b).length)
    (hrun : Edit.insertInst op b n code dest args f = .ok i f') :
    (∀ c, f'.EndsLast c) ↔ (n < (f.code b).length → code.terminates = false) := by
  have hins := insertInst_inserts h hb hn hrun
  rcases Nat.lt_or_eq_of_le hn with hlt | heq
  · rw [hins.endsLast_iff_of_lt hf hlt]
    exact ⟨fun hop _ => hop, fun hop => hop hlt⟩
  · refine iff_of_true (heq ▸ hins |>.endsLast_of_end hf ?_) fun hlt => absurd heq
        (Nat.ne_of_lt hlt)
    obtain ⟨_, _, hcheck, _⟩ := Edit.bind_ok hrun
    -- The place of a terminator would come before the end of its block.
    by_contra hne
    obtain ⟨last, hlast⟩ := Option.ne_none_iff_exists'.mp hne
    have hmem := List.mem_of_getLast? (Option.filter_eq_some_iff.mp hlast).1
    obtain ⟨k, hk⟩ := List.mem_iff_getElem?.mp hmem
    have hle := insertable_place hcheck hlast
    rw [h.scheduled.indexOf hk, heq] at hle
    exact Nat.not_lt_of_le hle (List.getElem?_eq_some_iff.mp hk).1

theorem createPhi_endsLast (h : f.WellFormed) (hf : ∀ c, f.EndsLast c)
    (hb : (f.nodes.get? b).isSome)
    {x : Variable} (hrun : Edit.createPhi b x f = .ok i f') (c : NodeId) : f'.EndsLast c := by
  have hins := createPhi_inserts h hb hrun
  rcases Nat.lt_or_eq_of_le (h.scheduled.phis b) with hlt | heq
  · exact (hins.endsLast_iff_of_lt hf hlt).mpr rfl c
  · refine (heq ▸ hins).endsLast_of_end hf ?_ c
    -- The block has nothing but phis.
    by_contra hne
    obtain ⟨last, hlast⟩ := Option.ne_none_iff_exists'.mp hne
    obtain ⟨hget, hterm⟩ := Option.filter_eq_some_iff.mp hlast
    have hmem : last ∈ f.phis b := by
      rw [Func.phis, heq, List.take_length]
      exact List.mem_of_getLast? hget
    rw [(h.phisFirst.first b last hmem).1] at hterm
    cases hterm

/-- The block that is put in front of the body gets no terminator. -/
theorem defineUndefined_endsLast (h : f.WellFormed) (hf : ∀ c, f.EndsLast c) {vars : List Variable}
    (hrun : Edit.defineUndefined f = .ok vars f') (c : NodeId) : f'.EndsLast c := by
  rcases defineUndefined_steps h hrun with ⟨-, rfl⟩ | ⟨e, f₂, f₃, hr, hlinked, he, -, happends⟩
  · exact hf c
  have h₃ : ∀ c, f₃.EndsLast c :=
    ((Sifts.of_restocks hr).trans (.of_keeps hlinked.toKeeps)).endsLast hf
  obtain ⟨f₄, ⟨-, -, hends⟩, hdone⟩ := Edit.forIn_ok
    (fun _ g => g.WellFormed ∧ (g.nodes.get? e).isSome ∧ ∀ c, g.EndsLast c)
    (fun done v rest g s g' _ ⟨hg, hge, hends⟩ hstep => by
      obtain ⟨i, g₁, happend, hnext⟩ := Edit.bind_ok hstep
      cases hnext
      obtain ⟨hk, hsame⟩ := appendInst_memoCorrect hg hge happend
      refine ⟨rfl, hk.toWellFormed, by rw [hsame.stored]; exact hge, ?_⟩
      exact (insertInst_endsLast hg hends hge (Nat.le_refl _) happend).mpr fun _ => rfl)
    ⟨hlinked.wellFormed (hr.wellFormed h), he, h₃⟩ happends
  cases hdone
  exact hends c

end

/-! ## Every run -/

/-- Whether a request puts a terminator in front of other instructions. -/
def Request.cutsOff (f : Func) : Request → Bool
  | .prependInst b code _ _ => code.terminates && (f.blockAt b).phiCount < (f.code b).length
  | .insertInstBefore _ _ code _ _ => code.terminates
  | _ => false

section

variable {f f' : Func}

/-- One step: a granted request keeps terminators last unless it puts one in front of others. -/
theorem Request.endsLast_iff {r : Request} (h : f.WellFormed) (hf : ∀ b, f.EndsLast b)
    (hl : r.live f = true) (hrun : r.run f = .ok () f') :
    (∀ b, f'.EndsLast b) ↔ r.cutsOff f = false := by
  have sifted (hs : Sifts f f') (hc : r.cutsOff f = false) :
      (∀ b, f'.EndsLast b) ↔ r.cutsOff f = false := iff_of_true (hs.endsLast hf) hc
  cases hr : r.reshapes with
  | true =>
    have hc : r.cutsOff f = false := by cases r <;> first | rfl | cases hr
    exact sifted (.of_restocks (Request.restocks hr h.stocked hl hrun)) hc
  | false =>
  cases ht : r.threads with
  | true =>
    have hc : r.cutsOff f = false := by cases r <;> first | rfl | cases ht
    exact sifted (.of_keeps (Request.weaves ht h hl hrun).toKeeps) hc
  | false =>
  have renamed (hs : Renames f f') : Sifts f f' := by
    rw [Renames] at hs
    exact .of_code (fun c => by rw [hs]; rfl) (by rw [hs])
  cases r with
  | addVariable name type =>
    obtain ⟨_, hrun⟩ := Edit.silent_ok hrun
    exact sifted (renamed (addVariable_renames hrun)) rfl
  | addArgument name type =>
    obtain ⟨_, hrun⟩ := Edit.silent_ok hrun
    exact sifted (renamed (addArgument_renames hrun)) rfl
  | addReturn name type =>
    obtain ⟨_, hrun⟩ := Edit.silent_ok hrun
    exact sifted (renamed (addReturn_renames hrun)) rfl
  | appendInst b code dest args =>
    obtain ⟨_, hrun⟩ := Edit.silent_ok hrun
    rw [insertInst_endsLast h hf hl (Nat.le_refl _) hrun]
    exact iff_of_true (fun hlt => absurd hlt (Nat.lt_irrefl _)) rfl
  | prependInst b code dest args =>
    obtain ⟨_, hrun⟩ := Edit.silent_ok hrun
    rw [insertInst_endsLast h hf hl (h.scheduled.phis b) hrun, Request.cutsOff,
      Bool.and_eq_false_iff, decide_eq_false_iff_not]
    exact ⟨fun hop => (Classical.em _).elim (fun hlt => .inl (hop hlt)) .inr,
      fun hop hlt => hop.resolve_right fun hn => hn hlt⟩
  | insertInstBefore b i code dest args =>
    obtain ⟨j, hrun⟩ := Edit.silent_ok hrun
    obtain ⟨hat, -, hrun⟩ := insertInstBefore_place h.scheduled hrun
    have hlt := (List.getElem?_eq_some_iff.mp hat).1
    rw [insertInst_endsLast h hf hl (Nat.le_of_lt hlt) hrun]
    exact ⟨fun hop => hop hlt, fun hop _ => hop⟩
  | removeInst b i => exact sifted (removeInst_sifts h hrun) rfl
  | createPhi b v =>
    obtain ⟨_, hrun⟩ := Edit.silent_ok hrun
    exact iff_of_true (createPhi_endsLast h hf hl hrun) rfl
  | split b position =>
    obtain ⟨_, hrun⟩ := Edit.silent_ok hrun
    exact sifted (split_sifts h hl hrun) rfl
  | flatten c =>
    obtain ⟨_, hrun⟩ := Edit.silent_ok hrun
    obtain ⟨f₁, n, h₁, -, hprune⟩ := flatten_restocks h.stocked hrun
    have hlinked := (h₁.wellFormed h).linked
    exact sifted ((Sifts.of_restocks h₁).trans
      (.of_keeps (pruneIncoming_relinks hlinked hprune).toKeeps)) rfl
  | pruneIncoming =>
    obtain ⟨_, hrun⟩ := Edit.silent_ok hrun
    exact sifted (.of_keeps (pruneIncoming_relinks h.linked hrun).toKeeps) rfl
  | defineUndefined =>
    obtain ⟨_, hrun⟩ := Edit.silent_ok hrun
    exact iff_of_true (defineUndefined_endsLast h hf hrun) rfl
  | appendLocal t i => exact absurd hrun (not_appendLocal h hl)
  | appendIncoming t pred target =>
    obtain ⟨_, hrun⟩ := Edit.silent_ok hrun
    rw [Request.live, Bool.and_eq_true, Bool.and_eq_true] at hl
    exact sifted (.of_keeps (appendIncoming_relinks h.linked hl.1.1 hl.1.2 hl.2 hrun).1.toKeeps) rfl
  | freeze =>
    obtain ⟨_, f₁, hall, -, rfl⟩ := freeze_ok hrun
    exact sifted ((Sifts.of_keeps (resolveAll_weaves h.linked hall).toKeeps).trans
      (.of_code (fun _ => rfl) rfl)) rfl
  | propagateFor asking t cache => cases hl
  | refer t n => cases hl
  | _ => first | cases hr; done | cases ht

/-- The functions that are reached without putting a terminator in front of other instructions. -/
inductive Orderly : Func → Prop
  | new (handle : Nat) (name : String) : Orderly (.new handle name)
  | step {f f' : Func} {r : Request} (h : Orderly f) (hr : r.grant f = some f')
      (hc : r.cutsOff f = false) : Orderly f'

theorem Orderly.reached (h : Orderly f) : Reached f := by
  induction h with
  | new handle name => exact .new handle name
  | step _ hr _ ih => exact ih.step hr

theorem Orderly.endsLast (h : Orderly f) (b : NodeId) : f.EndsLast b := by
  induction h generalizing b with
  | new handle name =>
    rw [endsLast_iff, Func.code, blockAt_new]
    exact .nil
  | step h hr hc ih =>
    exact (Request.endsLast_iff h.reached.wellFormed ih (Request.live_of_grant hr)
      (Request.run_of_grant hr)).mpr hc b

/-- A run that can be evaluated, with what can be checked at its end. -/
theorem Orderly.exists_of_requests (handle : Nat) (name : String) (rs : List Request)
    (p : Func → Bool) (h : (rs.foldlM (fun (f : Func) (r : Request) =>
      if r.cutsOff f then none else r.grant f) (.new handle name)).any p = true) : ∃ f,
          Orderly f ∧ p f = true := by
  suffices key : ∀ (rs : List Request) (g : Func), Orderly g →
      (rs.foldlM (fun (f : Func) (r : Request) => if r.cutsOff f then none else r.grant f) g).any
        p = true → ∃ f, Orderly f ∧ p f = true from key rs _ (.new handle name) h
  intro rs
  induction rs with
  | nil => exact fun g hg h => ⟨g, hg, h⟩
  | cons r rs ih =>
    intro g hg h
    rw [List.foldlM_cons] at h
    cases hc : r.cutsOff g with
    | true =>
      rw [if_pos hc] at h
      cases h
    | false =>
      rw [if_neg (by simp [hc])] at h
      cases hr : r.grant g with
      | none =>
        rw [hr] at h
        cases h
      | some g' =>
        rw [hr] at h
        exact ih g' (hg.step hr hc) h

/-- Terminators stay last until the first request that puts one in front of other instructions;
such a request is granted all the same. -/
theorem terminators_stay_last {r : Request} (h : Orderly f) (hr : r.grant f = some f') :
    (∀ b, f.EndsLast b) ∧ ((∀ b, f'.EndsLast b) ↔ r.cutsOff f = false) :=
  ⟨h.endsLast, Request.endsLast_iff h.reached.wellFormed h.endsLast (Request.live_of_grant hr)
    (Request.run_of_grant hr)⟩

def printingBlock : List Request :=
  [.newBlock "b", .appendElement 2 ⟨0, 3, .block, "b"⟩, .appendInst 3 .print none []]

/-- A return may be put in front of the print, and then no terminator ends the block. -/
theorem printingBlock_cut_off : ∃ f f', Orderly f ∧
    (Request.prependInst 3 .ret none []).grant f = some f' ∧ (∀ b, f.EndsLast b) ∧
    f'.code 3 = [2, 1] ∧ (f'.inst 2).op = .ret ∧ f'.terminator? 3 = none ∧
    ¬ ∀ b, f'.EndsLast b := by
  obtain ⟨f, hf, hfacts⟩ := Orderly.exists_of_requests 0 "f" printingBlock
    (fun f : Func => (Request.prependInst 3 .ret none []).cutsOff f &&
      ((Request.prependInst 3 .ret none []).grant f).any fun f' : Func =>
        decide (f'.code 3 = [2, 1] ∧ (f'.inst 2).op = .ret ∧ f'.terminator? 3 = none))
    (by decide +kernel)
  obtain ⟨hcuts, hgrant⟩ := Bool.and_eq_true_iff.mp hfacts
  cases hr : (Request.prependInst 3 .ret none []).grant f with
  | none =>
    rw [hr] at hgrant
    cases hgrant
  | some f' =>
    rw [hr] at hgrant
    obtain ⟨hcode, hret, hnone⟩ := of_decide_eq_true hgrant
    obtain ⟨hlast, hstays⟩ := terminators_stay_last hf hr
    refine ⟨f, f', hf, hr, hlast, hcode, hret, hnone, fun hall => ?_⟩
    rw [hstays.mp hall] at hcuts
    cases hcuts

end

end DefFlow.Flow
