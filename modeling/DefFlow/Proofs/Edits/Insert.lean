import DefFlow.Proofs.Edits.Define

/-!
# Inserting instructions

Main statement: inserting an instruction into a block of the body leaves every node
fresh and the instructions in their places.
-/

set_option autoImplicit false

namespace DefFlow.Flow

open Func

/-- Everything that an edit relies on and leaves behind. -/
structure Func.Sound (f : Func) : Prop where
  nodesFresh : f.NodesFresh
  scheduled : f.Scheduled

namespace Func

variable {f : Func} {b : NodeId} {v : VarId} {t : TimelineId}

theorem Sound.tidy (h : f.Sound) : f.Tidy := ⟨h.nodesFresh.calm, h.scheduled⟩

theorem Tidy.forget (h : f.Tidy) : ({ f with memo := [] } : Func).Sound :=
  ⟨h.calm.forget,
    h.scheduled.congr (fun _ => rfl) (fun _ => rfl) (fun _ _ => rfl) fun _ => rfl⟩

theorem explicit?_of_timeline (hid : f.timelineId? b v = some t) :
    f.explicit? b v = if (f.timelineAt t).explicit then some t else none := by
  rw [explicit?, hid, Option.filter_some]

end Func

section

variable {f f' : Func} {b : NodeId} {v : VarId} {i : InstId} {k : Nat}

theorem define_ok (h : f.Tidy) (hb : b ∈ f.blocks) (hi : (f.code b)[k]? = some i)
    (hd : (f.inst i).dest = none) {u : Unit} (hrun : Edit.define b i v f = .ok u f') :
    f'.Sound ∧ SameGraph f f' := by
  obtain ⟨x, hx⟩ := h.calm.forest.stored_block hb
  obtain ⟨t, f₁, htl, ht₁, hlists⟩ := Edit.timelineFor_ok h.calm.tables
    (Option.isSome_iff_exists.mpr ⟨x, hx⟩) v
  have hop := hlists.operates h.calm.tables ht₁
  have h₁ := hop.tidy h
  rw [Edit.define, Edit.bind_eq htl, Edit.bind_eq Edit.get_eq] at hrun
  obtain ⟨_, f₂, hat, hrun⟩ := Edit.bind_ok hrun
  obtain ⟨hdef, hm⟩ := defineAt_ok h₁.scheduled ht₁ hlists.self (hop.code b ▸ hi)
    ((hop.dest i).trans hd) hat
  by_cases hexp : (f₁.timelineAt t).explicit = true
  · rw [hexp] at hrun
    cases hrun
    refine ⟨⟨hdef.nodesFresh h₁.calm hm ?_, hdef.scheduled⟩, hop.toSameGraph.trans hdef.toSameGraph⟩
    rw [explicit?_of_timeline hlists.self, if_pos hexp]
  · rw [Bool.not_eq_true] at hexp
    rw [hexp] at hrun
    obtain ⟨c, f₃, hprop, hset, hsch, hadv⟩ := hdef.announce h₁.calm hm (hop.blocks ▸ hb)
    obtain ⟨c', f₄, hprop', hrun⟩ := Edit.bind_ok hrun
    rw [hprop] at hprop'
    cases hprop'
    cases hrun
    exact ⟨⟨hset, hsch⟩,
      hop.toSameGraph.trans (hdef.toSameGraph.trans hadv.keeps.toSameGraph)⟩

theorem operands_ok (h : f.Tables) (hb : b ∈ f.blocks) (hf : f.Forest) {op : Operation}
    {n : Nat} {l : List (Arg × Nat)} {k : PUnit → Edit InstId} {j : InstId}
    (hrun : (forIn l PUnit.unit (fun (x : Arg × Nat) _ => do
      Edit.addOperand op b i n x.2 x.1
      pure (ForInStep.yield PUnit.unit)) >>= k) f = .ok j f') :
    ∃ f₁, Operates f f₁ ∧ k ⟨⟩ f₁ = .ok j f' := by
  refine Edit.forIn_ok (fun _ f₁ => Operates f f₁) ?_ (.refl h) hrun
  intro done a rest f₁ s f₂ _ hop hstep
  obtain ⟨_, f₃, hadd, hstep⟩ := Edit.bind_ok hstep
  obtain ⟨x, hx⟩ := hf.stored_block hb
  have hb₁ : (f₁.nodes.get? b).isSome = true := by rw [hop.stored, hx]; rfl
  cases hstep
  exact ⟨rfl, hop.trans (addOperand_ok hop.tables hb₁ hadd)⟩

theorem checkArity_ok {op : Operation} {code : Opcode} {args : List Arg} {u : Unit}
    (h : Edit.checkArity op code args f = .ok u f') : f' = f := by
  rw [Edit.checkArity] at h
  cases ha : code.arity with
  | none => rw [ha] at h; exact (Edit.pure_ok h).2
  | some arity => rw [ha] at h; exact (Edit.require_ok h).2

theorem checkPlace_ok {op : Operation} {n : Nat} {u : Unit}
    (h : Edit.checkPlace op b n f = .ok u f') : f' = f := by
  rw [Edit.checkPlace, Edit.bind_eq Edit.get_eq] at h
  cases hl : f.terminator? b with
  | none => rw [hl] at h; exact (Edit.pure_ok h).2
  | some last => rw [hl] at h; exact (Edit.require_ok h).2

theorem checkDest_ok {op : Operation} {dest : Option Variable} {u : Unit}
    (h : Edit.checkDest op dest f = .ok u f') : f' = f := by
  cases dest with
  | none => exact (Edit.pure_ok h).2
  | some v =>
    rw [Edit.checkDest, Edit.bind_eq Edit.get_eq] at h
    exact (Edit.require_ok (Edit.require_bind_ok h).2).2

theorem insertable_ok {op : Operation} {n : Nat} {code : Opcode} {dest : Option Variable}
    {args : List Arg} {u : Unit} (h : Edit.insertable op b n code dest args f = .ok u f') :
    f' = f := by
  obtain ⟨_, h₁⟩ := Edit.unfrozen_bind_ok h
  obtain ⟨_, h₂⟩ := Edit.require_bind_ok h₁
  obtain ⟨_, f₁, harity, h₃⟩ := Edit.bind_ok h₂
  obtain ⟨_, h₄⟩ := Edit.require_bind_ok h₃
  obtain ⟨_, h₅⟩ := Edit.require_bind_ok h₄
  obtain ⟨_, f₂, hplace, h₆⟩ := Edit.bind_ok h₅
  rw [checkDest_ok h₆, checkPlace_ok hplace, checkArity_ok harity]

theorem insertInst_ok (h : f.Sound) (hb : b ∈ f.blocks) {op : Operation} {n : Nat}
    (hn : n ≤ (f.code b).length) {code : Opcode} {dest : Option Variable} {args : List Arg}
    (hrun : Edit.insertInst op b n code dest args f = .ok i f') : f'.Sound ∧ SameGraph f f' := by
  have hforest := h.nodesFresh.searchable.forest
  obtain ⟨x, hx⟩ := hforest.stored_block hb
  obtain ⟨j, f₁, hplace, hpl⟩ := placeInst_ok h.scheduled (Option.isSome_iff_exists.mpr ⟨x, hx⟩)
    hn code
  obtain ⟨_, f₀, hcheck, hrun₀⟩ := Edit.bind_ok hrun
  rw [insertable_ok hcheck, Edit.bind_eq hplace] at hrun₀
  have htidy₁ : f₁.Tidy := ⟨h.tidy.calm.sameFlow hpl.toRecodes.sameFlow
    (hpl.tables h.nodesFresh.searchable.tables), hpl.scheduled h.scheduled⟩
  obtain ⟨f₂, hop, hrun⟩ :=
      operands_ok htidy₁.calm.tables (hpl.blocks ▸ hb) htidy₁.calm.forest hrun₀
  have htidy₂ := hop.tidy htidy₁
  have hgraph := hpl.toSameGraph.trans hop.toSameGraph
  cases dest with
  | none =>
    cases hrun
    exact ⟨htidy₂.forget, hgraph.trans (keeps_of_stores rfl).toSameGraph⟩
  | some v =>
    obtain ⟨_, f₃, hdef, hrun⟩ := Edit.bind_ok hrun
    obtain ⟨h₃, hsame⟩ := define_ok htidy₂ (hop.blocks ▸ hpl.blocks ▸ hb)
      (hop.code b ▸ hpl.getElem? hn) ((hop.dest j).trans hpl.dest_eq_none) hdef
    cases hrun
    exact ⟨h₃.tidy.forget, hgraph.trans (hsame.trans (keeps_of_stores rfl).toSameGraph)⟩

theorem appendInst_ok (h : f.Sound) (hb : b ∈ f.blocks) {code : Opcode}
    {dest : Option Variable} {args : List Arg}
    (hrun : Edit.appendInst b code dest args f = .ok i f') : f'.Sound ∧ SameGraph f f' :=
  insertInst_ok h hb (Nat.le_refl _) hrun

theorem prependInst_ok (h : f.Sound) (hb : b ∈ f.blocks) {code : Opcode}
    {dest : Option Variable} {args : List Arg}
    (hrun : Edit.prependInst b code dest args f = .ok i f') : f'.Sound :=
  (insertInst_ok h hb (h.scheduled.phis b) hrun).1

/-- An instruction that stands in a block has its place there. -/
theorem Func.Scheduled.getElem?_of_block (h : f.Scheduled) (hi : (f.inst i).block = some b) :
    (f.code b)[f.indexOf i]? = some i := by
  rw [inst] at hi
  cases hx : f.insts.get? i with
  | none => rw [hx] at hi; cases hi
  | some x =>
    rw [hx, Option.getD_some] at hi
    have hidx : f.indexOf i = x.index := by rw [Func.indexOf, inst, hx, Option.getD_some]
    rw [hidx]
    exact h.home hx hi

/-- An edit that requires an instruction to stand in a block goes on if it has its place there. -/
theorem standsIn_bind_ok {α : Type} {r : InstRef} {op : Operation} {cause : Refusal} {m : Edit α}
    {a : α} (h : f.Scheduled)
    (hrun : (do Edit.require (← Edit.standsIn r b) op cause; m) f = .ok a f') :
    (f.code b)[f.indexOf r.id]? = some r.id ∧ m f = .ok a f' := by
  obtain ⟨stands, f₁, hstands, hrun⟩ := Edit.bind_ok hrun
  cases hstands
  obtain ⟨hs, hrun⟩ := Edit.require_bind_ok hrun
  rw [Bool.and_eq_true, decide_eq_true_eq, decide_eq_true_eq] at hs
  exact ⟨h.getElem?_of_block hs.2, hrun⟩

/-- An instruction is put in front of one that has its place in the block and is no phi. -/
theorem insertInstBefore_place (h : f.Scheduled) {r : InstRef} {code : Opcode}
    {dest : Option Variable} {args : List Arg}
    (hrun : Edit.insertInstBefore b r code dest args f = .ok i f') :
    (f.code b)[f.indexOf r.id]? = some r.id ∧ (f.inst r.id).op ≠ .phi ∧
      Edit.insertInst .insertInstBefore b (f.indexOf r.id) code dest args f = .ok i f' := by
  rw [Edit.insertInstBefore, Edit.bind_eq Edit.get_eq] at hrun
  obtain ⟨hat, hrun⟩ := standsIn_bind_ok h hrun
  obtain ⟨hop, hrun⟩ := Edit.require_bind_ok hrun
  exact ⟨hat, of_decide_eq_true hop, hrun⟩

theorem insertInstBefore_ok (h : f.Sound) (hb : b ∈ f.blocks) {r : InstRef} {code : Opcode}
    {dest : Option Variable} {args : List Arg}
    (hrun : Edit.insertInstBefore b r code dest args f = .ok i f') : f'.Sound := by
  obtain ⟨hat, -, hrun⟩ := insertInstBefore_place h.scheduled hrun
  exact (insertInst_ok h hb (Nat.le_of_lt (List.getElem?_eq_some_iff.mp hat).1) hrun).1

end

end DefFlow.Flow
