import DefFlow.Proofs.Edits.Drafting
import DefFlow.Proofs.Runs.Age
import DefFlow.Proofs.Runs.Halving
import DefFlow.Proofs.Verification.Complete

/-!
# Closing undefined paths

The new block in front of a function stops every undefined path of the variables that it defines.
Of any other variable it passes on that nothing is defined, so no block sees anything else than
before.
-/

set_option autoImplicit false

namespace DefFlow.Flow

open Func Component

/-! ## What is seen behind a block that defines nothing -/

namespace Precedes

open Bisects (passing)

variable {e p x : NodeId} {v : VarId} {f f' : Func} {out : NodeId → Option NodeId}

theorem not_mem (h : Precedes e f f') (hx : x ∈ f.blocks) : x ≠ e := fun he => h.new (he ▸ hx)

theorem mem_blocks (h : Precedes e f f') : x ∈ f'.blocks ↔ x = e ∨ x ∈ f.blocks := by
  rw [h.blocks, List.mem_cons]

theorem origin_new (h : Precedes e f f') (ht : f'.Tables) : f'.origin v e = none := by
  have F := origin_finest h.forest.net (Solution.placed ht) (v := v)
  exact F.marks.start_out ⟨h.mem_blocks.mpr (.inl rfl), h.not_decides_new⟩ h.preds_new

section

variable (h : Precedes e f f') (hf : f.Forest) (he : f.Enters)

include h hf he

theorem marks_before (M : Marks f'.preds (f'.Decides v) (passing f' v) out) :
    Marks f.preds (f.Decides v) (passing f v) out := by
  have hregion : ∀ {x}, passing f v x → passing f' v x := fun hx =>
    ⟨h.mem_blocks.mpr (.inr hx.1), h.decides ▸ hx.2⟩
  have hback : ∀ {x p}, x ∈ f.blocks → p ∈ f.preds x → p ∈ f'.preds x := fun hx hp =>
    (h.mem_preds hf hx).mpr (.inl hp)
  have hnone : out e = none :=
    M.start_out ⟨h.mem_blocks.mpr (.inl rfl), h.not_decides_new⟩ h.preds_new
  -- Only the new block leads to the old entry, which joins nothing.
  have hentry : ∀ {x}, passing f v x → out x = some x → f.entry ≠ some x := by
    intro x hx ho hen
    obtain ⟨p, hp, q, hq, hne, -, -⟩ := M.differ (hregion hx) ho
    have honly : ∀ {q}, q ∈ f'.preds x → q = e := fun hq => by
      rw [h.mem_preds hf hx.1, he x hen] at hq
      exact (hq.resolve_left List.not_mem_nil).1
    exact hne (by rw [honly hp, honly hq])
  refine ⟨fun hx => hx.2, fun {x p} hx hp => ?_, fun hx => M.opaque_out (h.decides ▸ hx),
    fun {x} hx hnil => ?_, fun hx ho hp => M.pass_out (hregion hx) ho (hback hx.1 hp),
    fun {x} hx ho => ?_, fun {x y} hx ho hne => ?_⟩
  · by_cases hd : f.Decides v p
    · exact .inl hd
    · exact .inr ⟨hf.pred_mem hx.1 hp, hd⟩
  · by_cases hen : f.entry = some x
    · have hp : e ∈ f'.preds x := (h.mem_preds hf hx.1).mpr (.inr ⟨rfl, hen⟩)
      rw [← M.pass_out (hregion hx) (fun ho => hentry hx ho hen) hp, hnone]
    · refine M.start_out (hregion hx) (List.eq_nil_iff_forall_not_mem.mpr fun p hp => ?_)
      rw [h.mem_preds hf hx.1, hnil] at hp
      exact hp.elim List.not_mem_nil fun hp => hen hp.2
  · obtain ⟨p, hp, q, hq, hd⟩ := M.differ (hregion hx) ho
    have hold : ∀ {q}, q ∈ f'.preds x → q ∈ f.preds x := fun hq =>
      ((h.mem_preds hf hx.1).mp hq).resolve_right fun hen => hentry hx ho hen.2
    exact ⟨p, hold hp, q, hold hq, hd⟩
  · exact (h.arrives_iff hf he (fun _ => Iff.rfl) (by rw [hnone]; exact nofun) hx.1).mp
      (M.traced (hregion hx) ho hne)

/-- Marks of the blocks are marks with the new block in front of them, which nothing leaves. -/
theorem marks_after (M : Marks f.preds (f.Decides v) (passing f v) out) :
    Marks f'.preds (f'.Decides v) (passing f' v) fun x => if x = e then none else out x := by
  have hregion : ∀ {x}, passing f' v x → x ≠ e → passing f v x := fun hx hxe =>
    ⟨(h.mem_blocks.mp hx.1).resolve_left hxe, h.decides ▸ hx.2⟩
  have hreal : ∀ {x y}, (if x = e then none else out x) = some y → x ≠ e := by
    rintro x y ho rfl
    rw [if_pos rfl] at ho
    cases ho
  refine ⟨fun hx => hx.2, fun {x p} hx hp => ?_, fun {x} hx => ?_, fun {x} hx hnil => ?_,
    fun {x p} hx ho hp => ?_, fun {x} hx ho => ?_, fun {x y} hx ho hne => ?_⟩
  · by_cases hd : f'.Decides v p
    · exact .inl hd
    · exact .inr ⟨h.forest.pred_mem hx.1 hp, hd⟩
  · rw [if_neg fun hxe => h.not_decides_new (hxe ▸ hx), M.opaque_out (h.decides ▸ hx)]
  · by_cases hxe : x = e
    · rw [if_pos hxe]
    · rw [if_neg hxe]
      refine M.start_out (hregion hx hxe) (List.eq_nil_iff_forall_not_mem.mpr fun p hp => ?_)
      have hp' := (h.mem_preds hf (hregion hx hxe).1).mpr (.inl hp)
      rw [hnil] at hp'
      cases hp'
  · have hxe : x ≠ e := by
      rintro rfl
      rw [h.preds_new] at hp
      cases hp
    have hr := hregion hx hxe
    rw [if_neg hxe] at ho ⊢
    rcases (h.mem_preds hf hr.1).mp hp with hp | ⟨rfl, hen⟩
    · rw [if_neg (h.not_mem (hf.pred_mem hr.1 hp)), M.pass_out hr ho hp]
    · rw [if_pos rfl, M.start_out hr (he x hen)]
  · have hxe := hreal ho
    have hr := hregion hx hxe
    rw [if_neg hxe] at ho
    obtain ⟨p, hp, q, hq, hd⟩ := M.differ hr ho
    refine ⟨p, (h.mem_preds hf hr.1).mpr (.inl hp), q, (h.mem_preds hf hr.1).mpr (.inl hq), ?_⟩
    rwa [if_neg (h.not_mem (hf.pred_mem hr.1 hp)), if_neg (h.not_mem (hf.pred_mem hr.1 hq))]
  · have hxe := hreal ho
    have hr := hregion hx hxe
    rw [if_neg hxe] at ho
    refine (h.arrives_iff hf he (fun hz => ?_) ?_ hr.1).mpr (M.traced hr ho hne)
    · rw [if_neg (h.not_mem hz)]
    · rw [if_pos rfl]
      exact nofun

theorem origin_old (ht : f.Tables) (hx : x ∈ f.blocks) : f'.origin v x = f.origin v x := by
  have ht' := h.toSameRecords.tables ht
  by_cases hd : f.Decides v x
  · rw [origin_of_decides hd, origin_of_decides (h.decides ▸ hd)]
  have F := origin_finest hf.net (Solution.placed ht) (v := v)
  have F' := origin_finest h.forest.net (Solution.placed ht') (v := v)
  have N := h.marks_before hf he F'.marks
  refine N.eq_of_finer F.marks (fun hr hr' => F.finer N hr' hr) (fun {y} hr _ => ?_)
    ⟨hx, hd⟩ ⟨hx, hd⟩
  -- No mark names the new block.
  have hin : passing f' v y := ⟨h.mem_blocks.mpr (.inr hr.1), h.decides ▸ hr.2⟩
  have hfine := F'.finer (h.marks_after hf he F.marks) hin hin
  rw [if_neg (h.not_mem hr.1)] at hfine
  rw [hfine]
  cases ho : f'.origin v y with
  | none => rfl
  | some z =>
    have hz : z ≠ e := by
      rintro rfl
      have hz := (F'.marks.source hin ho).1
      rw [h.origin_new ht'] at hz
      cases hz
    rw [Option.bind_some, Option.bind_some, if_neg hz]

/-- No block sees anything else behind a block that defines nothing. -/
theorem view_old (ht : f.Tables) (hx : x ∈ f.blocks) : f'.view v x = f.view v x := by
  have hback : ∀ {p}, p ∈ f.preds x → p ∈ f'.preds x := fun hp =>
    (h.mem_preds hf hx).mpr (.inl hp)
  have horigin : ∀ {p}, p ∈ f.preds x → f'.origin v p = f.origin v p := fun hp =>
    h.origin_old hf he ht (hf.pred_mem hx hp)
  rcases view_cases f v x with hne | ⟨p, hp, q, hq, hne⟩ | ⟨hnil, a, hstart, ha⟩
  · rw [view_of_nodes hne, view_of_nodes (by rwa [h.joinNodes])]
  · rw [view_of_differ hp hq hne]
    exact view_of_differ (hback hp) (hback hq) (by rwa [horigin hp, horigin hq])
  · rw [view_of_agree hnil hstart ha, ← sightFrom_congr (g := f') (fun b => h.locals b v)]
    refine view_of_agree ((h.joinNodes x v).trans hnil) (fun hl => hstart ?_) fun p hp => ?_
    · exact List.eq_nil_iff_forall_not_mem.mpr fun p hp => by
        have hp' := hback hp
        rw [hl] at hp'
        cases hp'
    · rcases (h.mem_preds hf hx).mp hp with hp | ⟨rfl, hen⟩
      · rw [horigin hp, ha p hp]
      · rw [h.origin_new (h.toSameRecords.tables ht), hstart (he x hen)]

end

end Precedes

/-! ## One definition more -/

structure Introduces (b : NodeId) (i : InstId) (op : Opcode) (v : VarId) (f f' : Func) : Prop
    extends Appends b i op (some v) [] f f' where
  sound : f'.Sound
  spares : Spares v f f'

section

variable {f g f' : Func} {b : NodeId} {v : VarId} {i : InstId} {op : Opcode} {os : List Operand}

/-- An instruction that has been appended starts to define a variable that has a type. -/
theorem Appends.define (h : Appends b i op none os g f) (hf : f.Tidy) (hb : b ∈ f.blocks)
    (htype : (f.varAt v).type.isVoid = false) : ∃ f', Edit.define b i v f = .ok () f' ∧ f'.Sound ∧
      Spares v f f' ∧ Appends b i op (some v) os g f' := by
  obtain ⟨x, hx⟩ := hf.calm.forest.stored_block hb
  obtain ⟨t, f₁, htl, ht₁, hlists⟩ := Edit.timelineFor_ok hf.calm.tables
    (Option.isSome_iff_exists.mpr ⟨x, hx⟩) v
  have hop := hlists.operates hf.calm.tables ht₁
  have h₁ := hop.tidy hf
  have hi : (f₁.code b)[(g.code b).length]? = some i := by
    rw [hop.code, h.code, if_pos rfl]
    exact (getElem?_snoc _ _ _ _).mpr (.inr ⟨rfl, rfl⟩)
  have hd : (f₁.inst i).dest = none := by
    have htold := h.told i
    rw [if_pos rfl] at htold
    exact (hop.dest i).trans (Option.map_eq_none_iff.mp (congrArg (fun x => x.2.2) htold))
  obtain ⟨u, f₂, hat⟩ := defineAt_granted (i := i) ht₁ hlists.self
    (by rw [varAt_congr hlists.keeps.vars]; exact htype)
  obtain ⟨hdef, hm⟩ := defineAt_ok h₁.scheduled ht₁ hlists.self hi hd hat
  have happends := (h.keeps hlists.keeps).assigns
    (assigns_defineAt h₁.scheduled ht₁ hlists.self hi hd hat)
  have hspares : Spares v f f₂ := fun c w hw =>
    ⟨by rw [hdef.explicit?, if_neg fun hc => hw hc.2, hop.explicit?],
      (hdef.feeds c w).trans (hop.feeds c w)⟩
  cases hexp : (f₁.timelineAt t).explicit with
  | true =>
    have hold : f₁.explicit? b v = some t := by
      rw [explicit?_of_timeline hlists.self, if_pos hexp]
    refine ⟨f₂, ?_, ⟨hdef.nodesFresh h₁.calm hm hold, hdef.scheduled⟩, hspares, happends⟩
    rw [Edit.define, Edit.bind_eq htl, Edit.bind_eq Edit.get_eq, hexp]
    exact Edit.bind_eq hat
  | false =>
    obtain ⟨c, f₃, hprop, hset, hsch, hadv⟩ := hdef.announce h₁.calm hm (hop.blocks ▸ hb)
    refine ⟨f₃, ?_, ⟨hset, hsch⟩, hspares.trans hadv.spares, happends.keeps hadv.keeps⟩
    rw [Edit.define, Edit.bind_eq htl, Edit.bind_eq Edit.get_eq, hexp]
    exact (Edit.bind_eq hat).trans (Edit.bind_eq hprop)

/-- A block of the body accepts a definition without operands behind its instructions. -/
theorem appendInst_introduces (h : f.Sound) (hb : b ∈ f.blocks) {x : Variable}
    (hfits : Fits op (some x) [] f) (hend : f.ended b = false) :
    ∃ i f', Edit.appendInst b op (some x) [] f = .ok i f' ∧ Introduces b i op x.id f f' := by
  obtain ⟨y, hy⟩ := h.nodesFresh.searchable.forest.stored_block hb
  obtain ⟨i, f₁, hplace, hpl⟩ := placeInst_ok h.scheduled (Option.isSome_iff_exists.mpr ⟨y, hy⟩)
    (Nat.le_refl _) op
  have htidy : f₁.Tidy := ⟨h.tidy.calm.sameFlow hpl.toRecodes.sameFlow
    (hpl.tables h.nodesFresh.searchable.tables), hpl.scheduled h.scheduled⟩
  obtain ⟨f₂, hdef, hsound, hspares, happends⟩ := (hpl.appends h.scheduled).define htidy
    (hpl.blocks ▸ hb) (v := x.id) (by rw [varAt_congr hpl.vars]; exact (hfits.dest x rfl).2.2)
  refine ⟨i, { f₂ with memo := [] }, ?_, happends.memo [], hsound.tidy.forget, fun c w hw => ?_⟩
  · change Edit.insertInst .appendInst b (f.code b).length op (some x) [] f = _
    rw [Edit.insertInst,
        Edit.bind_eq (insertable_granted h.nodesFresh.searchable.unfrozen hfits hend _),
      Edit.bind_eq hplace]
    exact Edit.bind_eq hdef
  · exact ⟨(hspares c w hw).1.trans (hpl.explicit? c w), (hspares c w hw).2.trans (hpl.feeds c w)⟩

end

/-! ## A definition of each variable -/

/-- The block `e` has got a definition of each of the variables `ws`. All other blocks have the
code that they had, and no other variable is touched. -/
structure Supplied (e : NodeId) (ws : List VarId) (f g : Func) : Prop extends SameGraph f g where
  sound : g.Sound
  code : ∀ {c}, c ≠ e → g.code c = f.code c
  kept : ∀ {c i}, c ≠ e → i ∈ f.code c → (g.inst i).told = (f.inst i).told
  told : g.told e = ws.map fun w => (.undef, [], some w)
  vars : g.vars.map Variable.plain = f.vars.map Variable.plain
  spares : ∀ {w}, w ∉ ws → ∀ c, g.explicit? c w = f.explicit? c w ∧ g.feeds c w = f.feeds c w

namespace Supplied

variable {e c : NodeId} {w : VarId} {ws : List VarId} {f g g' : Func} {i : InstId}

theorem refl (h : f.Sound) (hempty : f.code e = []) : Supplied e [] f f where
  toSameGraph := .refl f
  sound := h
  code _ := rfl
  kept _ _ := rfl
  told := by rw [Func.told, hempty]; rfl
  vars := rfl
  spares _ _ := ⟨rfl, rfl⟩

theorem mem_new (h : Supplied e ws f g) (hi : i ∈ g.code e) :
    ∃ w ∈ ws, (g.inst i).told = (.undef, [], some w) := by
  have hm : (g.inst i).told ∈ g.told e := List.mem_map_of_mem hi
  rw [h.told, List.mem_map] at hm
  exact hm.imp fun w hw => ⟨hw.1, hw.2.symm⟩

theorem not_ended (h : Supplied e ws f g) : g.ended e = false := by
  rw [Func.ended, terminator?]
  cases hlast : (g.blockAt e).instructions.getLast? with
  | none => rfl
  | some i =>
    obtain ⟨w, -, htold⟩ := h.mem_new (List.mem_of_getLast? hlast)
    rw [Option.filter_some, show (g.inst i).op = .undef from congrArg Prod.fst htold]
    rfl

theorem snoc (h : Supplied e ws f g) (hi : Introduces e i .undef w g g') :
    Supplied e (ws ++ [w]) f g' where
  toSameGraph := h.toSameGraph.trans hi.toSameGraph
  sound := hi.sound
  code hc := by rw [hi.code, if_neg hc, h.code hc]
  kept {c j} hc hj := by
    have hne : j ≠ i := by
      rintro rfl
      exact hi.fresh c (h.code hc ▸ hj)
    rw [hi.told, if_neg hne, h.kept hc hj]
  told := by
    have hold : ∀ j ∈ g.code e, (g'.inst j).told = (g.inst j).told := by
      intro j hj
      have hne : j ≠ i := by
        rintro rfl
        exact hi.fresh e hj
      rw [hi.told, if_neg hne]
    rw [Func.told, hi.code, if_pos rfl, List.map_append, List.map_congr_left hold, List.map_append]
    congr 1
    · exact h.told
    · rw [List.map_singleton, hi.told, if_pos rfl]
      rfl
  vars := hi.vars.trans h.vars
  spares {u} hu c := by
    rw [List.mem_append, not_or, List.mem_singleton] at hu
    exact ⟨(hi.spares c u hu.2).1.trans (h.spares hu.1 c).1,
      (hi.spares c u hu.2).2.trans (h.spares hu.1 c).2⟩

end Supplied

def Edit.supply (e : NodeId) (vars : List Variable) : Edit (List Variable) := do
  for x in vars do
    let _ ← appendInst e .undef (some x) []
  return vars

def Func.CanDefine (f : Func) (x : Variable) : Prop :=
  x.owner = f.handle ∧ x.type.isVoid = false ∧ (f.varAt x.id).type.isVoid = false

/-- Variables that have a type can be defined one after the other. -/
theorem supply_ok {e : NodeId} {f : Func} (h : f.Sound) (he : e ∈ f.blocks) (hempty : f.code e = [])
    {vars : List Variable} (hvars : ∀ x ∈ vars, f.CanDefine x) :
    ∃ g, Edit.supply e vars f = .ok vars g ∧ Supplied e (vars.map Variable.id) f g := by
  refine Edit.forIn_run (k := fun _ => pure vars)
    (fun done g => Supplied e (done.map Variable.id) f g) (fun done x rest g hsplit hg => ?_)
    (.refl h hempty)
  obtain ⟨hown, htype, hat⟩ := hvars x (hsplit ▸ List.mem_append_right _ List.mem_cons_self)
  have hfits : Fits .undef (some x) [] g := {
    code := ⟨nofun, nofun⟩
    arity := rfl
    defines := fun _ => rfl
    defined := fun _ => .inl rfl
    dest := fun y hy => by
      cases hy
      refine ⟨hown.trans hg.handle.symm, htype, ?_⟩
      rw [(Variable.eq_of_plain (varAt_plain hg.vars x.id)).2.2.2, hat]
    args := fun y hy => nomatch hy }
  obtain ⟨i, g', happend, hintro⟩ := appendInst_introduces hg.sound (hg.blocks ▸ he) hfits
    hg.not_ended
  refine ⟨g', by rw [Edit.bind_eq happend]; rfl, ?_⟩
  rw [List.map_append]
  exact hg.snoc hintro

theorem supply_typed {e : NodeId} {f f' : Func} {vars us : List Variable}
    (hrun : Edit.supply e vars f = .ok us f') : ∀ x ∈ vars, x.type.isVoid = false := by
  have hloop := Edit.forIn_ok (fun done _ => ∀ x ∈ done, x.type.isVoid = false) ?_
    (fun _ hx => nomatch hx) hrun
  · obtain ⟨_, htyped, -⟩ := hloop
    exact htyped
  · rintro done x rest g s g' - htyped hround
    obtain ⟨_, g₁, happend, hround⟩ := Edit.bind_ok hround
    cases hround
    refine ⟨rfl, fun y hy => ?_⟩
    rcases List.mem_append.mp hy with hy | hy
    · exact htyped y hy
    · rw [List.mem_singleton.mp hy, ← Bool.not_eq_true]
      intro hvoid
      obtain ⟨_, _, herror⟩ := appendInst_refused hvoid e .undef [] g
      cases herror.symm.trans happend

/-! ## The edit, step by step -/

def undefinedVars (found : List Violation) : List VarId :=
  (found.filterMap Violation.undefinedVar?).eraseDups

def Func.lacking (f : Func) (found : List Violation) : List Variable :=
  (undefinedVars found).map f.varAt

section

variable {f : Func} {found : List Violation}

theorem defineUndefined_nothing (hu : f.frozen = false) (hv : f.verify = .ok found)
    (hnil : f.lacking found = []) : Edit.defineUndefined f = .ok [] f := by
  rw [lacking, undefinedVars] at hnil
  rw [Edit.defineUndefined, Edit.bind_eq (Edit.unfrozen_eq hu _), Edit.bind_eq (Edit.ask_eq hv),
    Edit.bind_eq Edit.get_eq]
  dsimp only
  rw [hnil]
  rfl

/-- What is reported makes room for a block in front of the body. -/
theorem defineUndefined_opens (h : f.Sound) (hk : f.WellFormed) (hv : f.verify = .ok found)
    (hne : f.lacking found ≠ []) : ∃ e g, Precedes e f g ∧ g.Sound ∧ g.code e = [] ∧
      g.vars = f.vars ∧ Edit.defineUndefined f = Edit.supply e (f.lacking found) g := by
  have hu := h.nodesFresh.searchable.unfrozen
  obtain ⟨name, hnew⟩ := newBlock_eq hu "undef"
  have hblock := newBlock_stocked hk.stocked hnew
  obtain ⟨u, g, hput⟩ := prependBlock_granted (b := f.nodes.next) hblock.stocked
    (hblock.held hk.held) (hblock.frozen.trans hu) (by simp)
  obtain ⟨hprec, hmemo⟩ := precedes_ok hk.forest hnew hput
  have hvars : g.vars = f.vars := by
    have hall := prependBlock_upholds (I := fun k => k.vars = f.vars)
        (T := fun k => k.vars = f.vars)
      ⟨id, fun _ _ _ hk => hk, fun _ _ _ hk => hk⟩ ⟨id, fun _ _ _ _ hk => hk⟩ f.nodes.next
    have hafter := hall { f with
      nodes := f.nodes.push ⟨name, [], 0, []⟩
      blockCount := f.blockCount + 1
      detached := f.detached ++ [.block f.nodes.next] } rfl
    rwa [Edit.outcome_ok hput] at hafter
  refine ⟨_, g, hprec, hprec.sound h hmemo, (hprec.code _).trans (code_next f), hvars, ?_⟩
  rw [lacking, undefinedVars] at hne ⊢
  rw [Edit.defineUndefined, Edit.bind_eq (Edit.unfrozen_eq hu _), Edit.bind_eq (Edit.ask_eq hv),
    Edit.bind_eq Edit.get_eq]
  dsimp only
  rw [if_neg (by simpa using hne), Edit.bind_eq hnew, Edit.bind_eq hput, Edit.bind_eq Edit.get_eq]
  exact hprec.links_nothing h.nodesFresh.calm _

end

/-! ## What is seen after the edit -/

section

variable {f g k : Func} {c e : NodeId} {v : VarId} {u : UseSite} {ws : List VarId} {i : InstId}

theorem defines_iff_told : f.defines v i = true ↔ (f.inst i).told.2.2 = some v := by
  rw [defines, Instruction.told, Option.any_eq_true]
  simp

theorem defines_told (h : (k.inst i).told = (f.inst i).told) (v : VarId) :
    k.defines v i = f.defines v i := by
  rw [Bool.eq_iff_iff, defines_iff_told, defines_iff_told, h]

theorem eventsOf_told (h : (k.inst i).told = (f.inst i).told) (v : VarId) :
    k.eventsOf v i = f.eventsOf v i := by
  have hops : (k.inst i).operands = (f.inst i).operands := congrArg (fun x => x.2.1) h
  rw [eventsOf, eventsOf, usesOn, usesOn, usesOf, usesOf, hops, defines_told h]

namespace Supplied

variable (h : Supplied e ws g k) (hp : Precedes e f g)

include h hp

theorem code_old (hc : c ≠ e) : k.code c = f.code c :=
  (h.code hc).trans (hp.code c)

theorem told_old (hc : c ≠ e) (hi : i ∈ f.code c) : (k.inst i).told = (f.inst i).told := by
  rw [h.kept hc (hp.code c ▸ hi), inst, hp.insts]
  rfl

theorem events_old (hc : c ≠ e) (v : VarId) : k.events c v = f.events c v := by
  rw [events, events, h.code_old hp hc]
  exact List.flatMap_congr fun i hi => eventsOf_told (h.told_old hp hc hi) v

theorem latestDefBefore?_old (hk : k.Scheduled) (hf : f.Scheduled) (hc : c ≠ e) (n : Nat) :
    k.latestDefBefore? c n v = f.latestDefBefore? c n v := by
  rw [hk.latestDefBefore?, hf.latestDefBefore?, h.code_old hp hc]
  refine congrArg List.getLast? (List.filter_congr fun i hi => ?_)
  exact defines_told (h.told_old hp hc (List.mem_of_mem_take hi)) v

theorem usedAt_old (hk : k.Scheduled) (hf : f.Scheduled) (hc : c ≠ e) :
    k.UsedAt c v u ↔ f.UsedAt c v u := by
  rw [mem_usesIn_events hk, mem_usesIn_events hf, h.events_old hp hc]

theorem indexOf_old (hk : k.Scheduled) (hf : f.Scheduled) (hc : c ≠ e)
    (hu : f.UsedAt c v u) : k.indexOf u.inst = f.indexOf u.inst := by
  have hi := hf.getElem?_of_block hu.block
  exact hk.indexOf (h.code_old hp hc ▸ hi)

section

variable (hk : k.WellFormed) (hf : f.WellFormed)

include hk hf

theorem account_old (hc : c ≠ e) : k.account c v = f.account c v := by
  rw [hk.books, hf.books, h.events_old hp hc]

theorem waiting_old (hc : c ≠ e) : k.waiting c v = f.waiting c v :=
  congrArg Account.waiting (h.account_old hp hk hf hc)

theorem locals_old (hc : c ≠ e) : k.locals c v = f.locals c v :=
  locals_of_held (congrArg Account.locals (h.account_old hp hk hf hc))

end

omit hp in
theorem waiting_new (hk : k.WellFormed) (v : VarId) : k.waiting e v = [] := by
  refine List.eq_nil_iff_forall_not_mem.mpr fun u hu => ?_
  have hused := hk.usedAt_of_waiting hu
  have hi := List.mem_of_getElem? (hk.scheduled.getElem?_of_block hused.block)
  obtain ⟨w, -, htold⟩ := h.mem_new hi
  have hops : (k.inst u.inst).operands = [] := congrArg (fun x => x.2.1) htold
  have hop := hused.operand
  rw [hops] at hop
  cases hop

omit hp in
theorem defining_new (hk : k.Scheduled) : k.Defining v e ↔ v ∈ ws := by
  rw [Defining, hk.locals, Ne, List.filter_eq_nil_iff, not_forall₂]
  constructor
  · rintro ⟨i, hi, hd⟩
    obtain ⟨w, hw, htold⟩ := h.mem_new hi
    rw [not_not, defines_iff_told, htold] at hd
    cases hd
    exact hw
  · intro hv
    have hm : (Opcode.undef, ([] : List Operand), some v) ∈ k.told e := by
      rw [h.told]
      exact List.mem_map_of_mem hv
    obtain ⟨i, hi, htold⟩ := List.mem_map.mp hm
    refine ⟨i, hi, ?_⟩
    rw [not_not, defines_iff_told, htold]

omit hp in
theorem preds_same : k.preds = g.preds := h.toSameGraph.preds

theorem mem_blocks : c ∈ k.blocks ↔ c = e ∨ c ∈ f.blocks := by
  rw [h.blocks, hp.mem_blocks]

theorem feeds_spared (hv : v ∉ ws) (c : NodeId) : k.feeds c v = f.feeds c v :=
  (h.spares hv c).2.trans (hp.feeds c v)

/-- No undefined path of a variable that has been defined is left. -/
theorem not_arrives_none (hk : k.Scheduled) (hf : f.Forest) (hv : v ∈ ws) (hc : c ∈ f.blocks) :
    ¬ Arrives k.preds (k.Defining v) c none := by
  rw [h.preds_same]
  exact hp.not_arrives_none hf ((h.defining_new hk).mpr hv) hc

section

variable (hk : k.WellFormed) (hf : f.WellFormed) (he : f.Enters)

include hk hf he

/-- The undefined paths of every other variable lead where they led. -/
theorem arrives_none_iff (hv : v ∉ ws) (hc : c ∈ f.blocks) :
    Arrives k.preds (k.Defining v) c none ↔ Arrives f.preds (f.Defining v) c none := by
  rw [h.preds_same]
  refine hp.arrives_iff hf.forest he (fun {z} hz => ?_) (fun hd => ?_) hc
  · rw [Defining, Defining, h.locals_old hp hk hf (hp.not_mem hz)]
  · exact hv ((h.defining_new hk.scheduled).mp hd)

/-- Where all that is reported has been defined, nothing is reported any more. -/
theorem verify_nil (hs : f.NodesFresh) {found : List Violation} (hfound : f.verify = .ok found)
    (hws : ∀ {partly b v u}, .undefinedUse partly b v u ∈ found → v ∈ ws) :
    k.verify = .ok [] := by
  obtain ⟨found₀, hfound₀, hmem⟩ := hs.mem_verify
  cases hfound.symm.trans hfound₀
  obtain ⟨left, hleft, hmem'⟩ := h.sound.nodesFresh.mem_verify
  suffices hnil : ∀ x, x ∉ left by rw [hleft, List.eq_nil_iff_forall_not_mem.mpr hnil]
  intro x hx
  obtain ⟨c, hc, v, u, partly, -, hu, hat⟩ := (hmem' x).mp hx
  rcases (h.mem_blocks hp).mp hc with rfl | hold
  · rw [h.waiting_new hk] at hu
    cases hu
  rw [h.waiting_old hp hk hf (hp.not_mem hold)] at hu
  obtain ⟨r, hr, hiff⟩ := h.sound.nodesFresh.undefinedAt_isSome hc v
  cases hat.symm.trans hr
  obtain ⟨harr, hseen⟩ := hiff.mp rfl
  by_cases hv : v ∈ ws
  · exact h.not_arrives_none hp hk.scheduled hf.forest hv hold harr
  -- It would have been reported before.
  obtain ⟨r, hr, hiff⟩ := hs.undefinedAt_isSome hold v
  have hsome : r.isSome := hiff.mpr ⟨(h.arrives_none_iff hp hk hf he hv hold).mp harr, fun hboth =>
    hseen ⟨fun hnil => hboth.1 ?_, ?_⟩⟩
  · obtain ⟨partly', rfl⟩ := Option.isSome_iff_exists.mp hsome
    exact hv (hws ((hmem _).mpr ⟨c, hold, v, u, partly', rfl, hu, hr⟩))
  · rwa [← feeds_eq_nil_iff, ← h.feeds_spared hp hv, feeds_eq_nil_iff]
  · rw [Defining, h.locals_old hp hk hf (hp.not_mem hold)]
    exact hboth.2

theorem view_old (hv : v ∉ ws) (hc : c ∈ f.blocks) : k.view v c = f.view v c := by
  have hft := hf.linked.tables
  have hgt := hp.toSameRecords.tables hft
  have hkf := h.toSameGraph.forest hp.forest
  have hdecides : k.Decides v = g.Decides v := decides_congr fun c => (h.spares hv c).1
  have hlocals : ∀ c, k.locals c v = g.locals c v := by
    intro c
    rw [hp.locals]
    by_cases hce : c = e
    · rw [hce, locals_of_none (hp.unlisted v)]
      exact not_not.mp (mt (h.defining_new hk.scheduled).mp hv)
    · exact h.locals_old hp hk hf hce
  rw [← hp.view_old hf.forest he hft hc]
  refine view_congr Function.injective_id rfl ?_ ?_ fun p _ => sightFrom_congr hlocals _
  · rw [← feeds_eq_nil_iff, ← feeds_eq_nil_iff, (h.spares hv c).2]
  · rw [h.preds_same]
    refine List.forall₂_same.mpr fun p hp' => origin_eq hp.forest.net hkf.net (Solution.placed hgt)
      (Solution.placed hk.linked.tables) h.blocks h.preds_same (fun hd => hdecides ▸ hd)
      (fun hd => .inl (hdecides ▸ hd)) (hp.forest.pred_mem (hp.mem_blocks.mpr (.inr hc)) hp')

theorem viewAt_old (hv : v ∉ ws) (hc : c ∈ f.blocks) (n : Nat) : k.viewAt v c n =
    f.viewAt v c n := by
  rw [viewAt, viewAt, h.latestDefBefore?_old hp hk.scheduled hf.scheduled (hp.not_mem hc),
    h.view_old hp hk hf he hv hc]

end

end Supplied

end

/-! ## All undefined paths at once -/

/-- The variables that the body uses are those of the function. -/
def Func.Declared (f : Func) : Prop :=
  ∀ b ∈ f.blocks, ∀ i ∈ f.code b, ∀ use ∈ f.usesOf i,
    (f.varAt use.2).id = use.2 ∧ (f.varAt use.2).owner = f.handle

instance (f : Func) : Decidable f.Declared := by
  unfold Func.Declared
  infer_instance

structure Closes (found : List Violation) (f k : Func) (vars : List Variable) : Prop where
  listed : ∀ {x}, x ∈ vars ↔ ∃ partly b v u, .undefinedUse partly b v u ∈ found ∧ x = f.varAt v
  once : (vars.map Variable.id).Nodup
  closed : k.verify = .ok []
  again : Edit.defineUndefined k = .ok [] k
  others : ∀ b ∈ f.blocks, ∀ v u, f.UsedAt b v u → v ∉ vars.map Variable.id →
    k.UsedAt b v u ∧ ∃ r f' r' k', Edit.reachingDef u f = .ok r f' ∧
      Edit.reachingDef u k = .ok r' k' ∧ k'.sightOf r' = f'.sightOf r

section

variable {f g k : Func} {b : NodeId} {v : VarId} {u : UseSite} {found : List Violation}

theorem Func.Declared.usedAt (h : f.Declared) (hf : f.Scheduled) (hb : b ∈ f.blocks)
    (hu : f.UsedAt b v u) : (f.varAt v).id = v ∧ (f.varAt v).owner = f.handle :=
  h b hb u.inst (List.mem_of_getElem? (hf.getElem?_of_block hu.block)) (u, v)
    (mem_usesOf.mpr ⟨rfl, hu.operand⟩)

theorem mem_undefinedVars : v ∈ undefinedVars found ↔
    ∃ partly b u, .undefinedUse partly b v u ∈ found := by
  rw [undefinedVars, List.mem_eraseDups, List.mem_filterMap]
  constructor
  · rintro ⟨x, hx, hv⟩
    cases x with
    | undefinedUse partly b w u =>
      cases hv
      exact ⟨partly, b, u, hx⟩
    | _ => cases hv
  · rintro ⟨partly, b, u, hx⟩
    exact ⟨_, hx, rfl⟩

theorem mem_lacking {x : Variable} : x ∈ f.lacking found ↔
    ∃ partly b v u, .undefinedUse partly b v u ∈ found ∧ x = f.varAt v := by
  rw [Func.lacking, List.mem_map]
  constructor
  · rintro ⟨v, hv, rfl⟩
    obtain ⟨partly, b, u, hx⟩ := mem_undefinedVars.mp hv
    exact ⟨partly, b, v, u, hx, rfl⟩
  · rintro ⟨partly, b, v, u, hx, rfl⟩
    exact ⟨v, mem_undefinedVars.mpr ⟨partly, b, u, hx⟩, rfl⟩

theorem Func.Sound.usedAt_of_reported (h : f.Sound) (hk : f.WellFormed) (hv : f.verify = .ok found)
    {x : Violation} (hx : x ∈ found) : ∃ partly b v u, x = .undefinedUse partly b v u ∧
      b ∈ f.blocks ∧ f.UsedAt b v u := by
  obtain ⟨found', hv', hmem⟩ := h.nodesFresh.mem_verify
  cases hv.symm.trans hv'
  obtain ⟨b, hb, v, u, partly, rfl, hu, -⟩ := (hmem x).mp hx
  exact ⟨partly, b, v, u, rfl, hb, hk.usedAt_of_waiting hu⟩

section

variable (h : Reached f) (hs : f.Sound) (hd : f.Declared) (hv : f.verify = .ok found)

include h hs hd hv

theorem Reached.declared_of_reported (hx : v ∈ undefinedVars found) :
    (f.varAt v).id = v ∧ (f.varAt v).owner = f.handle := by
  obtain ⟨partly, b, u, hx⟩ := mem_undefinedVars.mp hx
  obtain ⟨_, _, _, _, heq, hb, hu⟩ := hs.usedAt_of_reported h.wellFormed hv hx
  cases heq
  exact hd.usedAt h.wellFormed.scheduled hb hu

theorem Reached.ids_lacking : (f.lacking found).map Variable.id = undefinedVars found := by
  rw [Func.lacking, List.map_map]
  conv_rhs => rw [← List.map_id (undefinedVars found)]
  exact List.map_congr_left fun v hx => (h.declared_of_reported hs hd hv hx).1

omit hd in
theorem Reached.closes_nothing (hnil : f.lacking found = []) : Closes found f f [] := by
  have hnone : found = [] := List.eq_nil_iff_forall_not_mem.mpr fun x hx => by
    obtain ⟨partly, b, v, u, rfl, -⟩ := hs.usedAt_of_reported h.wellFormed hv hx
    have hm : f.varAt v ∈ f.lacking found := mem_lacking.mpr ⟨partly, b, v, u, hx, rfl⟩
    rw [hnil] at hm
    cases hm
  have hu := hs.nodesFresh.searchable.unfrozen
  refine ⟨?_, List.nodup_nil, hnone ▸ hv, defineUndefined_nothing hu hv hnil,
    fun b hb v u hused _ => ⟨hused, ?_⟩⟩
  · rw [← hnil]
    exact mem_lacking
  · obtain ⟨r, f', hrun, -⟩ := sight_of_use h.wellFormed (h.ready hu) hused hb
    exact ⟨r, f', r, f', hrun, hrun, rfl⟩

theorem Reached.closes_supplied {e : NodeId} (hp : Precedes e f g)
    (hsup : Supplied e ((f.lacking found).map Variable.id) g k)
    (hrun : Edit.defineUndefined f = .ok (f.lacking found) k) :
    Closes found f k (f.lacking found) := by
  have hids := h.ids_lacking hs hd hv
  have hk : Reached k := (Calls.defineUndefined hrun).reached h
  have hu := hs.nodesFresh.searchable.unfrozen
  have huk := hsup.sound.nodesFresh.searchable.unfrozen
  have henters := hs.nodesFresh.calm.enters
  have hclosed : k.verify = .ok [] :=
    hsup.verify_nil hp hk.wellFormed h.wellFormed henters hs.nodesFresh hv fun hx => by
      rw [hids]
      exact mem_undefinedVars.mpr ⟨_, _, _, hx⟩
  refine ⟨mem_lacking, hids ▸ nodup_eraseDups _, hclosed, defineUndefined_nothing huk hclosed rfl,
    fun b hb v u hused hnot => ?_⟩
  have hbe := hp.not_mem hb
  have hused' := (hsup.usedAt_old hp hk.wellFormed.scheduled h.wellFormed.scheduled hbe).mpr hused
  obtain ⟨r, f', hreach, hsight⟩ := sight_of_use h.wellFormed (h.ready hu) hused hb
  obtain ⟨r', k', hreach', hsight'⟩ := sight_of_use hk.wellFormed (hk.ready huk) hused'
    ((hsup.mem_blocks hp).mpr (.inr hb))
  refine ⟨hused', r, f', r', k', hreach, hreach', ?_⟩
  rw [hsight, hsight', hsup.indexOf_old hp hk.wellFormed.scheduled h.wellFormed.scheduled hbe hused,
    hsup.viewAt_old hp hk.wellFormed h.wellFormed henters hnot hb]

/-- All undefined paths are closed at once, if each of the variables has a type. -/
theorem Reached.closes : (Edit.defineUndefined.Granted f ↔
      ∀ x ∈ f.lacking found, x.type.isVoid = false) ∧
    ∀ vars k, Edit.defineUndefined f = .ok vars k → Closes found f k vars := by
  by_cases hnil : f.lacking found = []
  · have hrun := defineUndefined_nothing hs.nodesFresh.searchable.unfrozen hv hnil
    refine ⟨iff_of_true ⟨_, _, hrun⟩ fun x hx => ?_, fun vars k hk => ?_⟩
    · rw [hnil] at hx
      cases hx
    · cases hrun.symm.trans hk
      exact h.closes_nothing hs hv hnil
  obtain ⟨e, g, hp, hsound, hempty, hvars, hopens⟩ := defineUndefined_opens hs h.wellFormed hv hnil
  have supplied : (∀ x ∈ f.lacking found, x.type.isVoid = false) → ∃ k,
      Edit.defineUndefined f = .ok (f.lacking found) k ∧ Closes found f k (f.lacking found) := by
    intro htyped
    have hdefines : ∀ x ∈ f.lacking found, g.CanDefine x := by
      intro x hx
      obtain ⟨v, hm, rfl⟩ := List.mem_map.mp hx
      obtain ⟨hid, hown⟩ := h.declared_of_reported hs hd hv hm
      refine ⟨hown.trans hp.handle.symm, htyped _ hx, ?_⟩
      rw [hid, varAt_congr hvars]
      exact htyped _ hx
    obtain ⟨k, hrun, hsup⟩ := supply_ok hsound (hp.mem_blocks.mpr (.inl rfl)) hempty hdefines
    rw [← hopens] at hrun
    exact ⟨k, hrun, h.closes_supplied hs hd hv hp hsup hrun⟩
  have typed : ∀ {vars k}, Edit.defineUndefined f = .ok vars k →
      ∀ x ∈ f.lacking found, x.type.isVoid = false := by
    intro vars k hrun
    rw [hopens] at hrun
    exact supply_typed hrun
  refine ⟨⟨fun ⟨_, _, hrun⟩ => typed hrun, fun htyped => ?_⟩, fun vars k hrun => ?_⟩
  · obtain ⟨k, hrun, -⟩ := supplied htyped
    exact ⟨_, k, hrun⟩
  · obtain ⟨k', hrun', hcloses⟩ := supplied (typed hrun)
    cases hrun.symm.trans hrun'
    exact hcloses

end

/-- In every function that has been completed before any join was built, and whose start nothing
comes back to, all undefined paths are closed at once, unless one of the variables has no type. -/
theorem undefined_paths_closed (hf : Reached f) (hu : f.Unjoined)
    (hw : Relation.ReflTransGen MaintainsJoins f g) (hd : g.Declared) : ∃ found,
        g.verify = .ok found ∧
      (Edit.defineUndefined.Granted g ↔ ∀ partly b v u, .undefinedUse partly b v u ∈ found →
        (g.varAt v).type.isVoid = false) ∧
      ∀ vars k, Edit.defineUndefined g = .ok vars k → Closes found g k vars := by
  obtain ⟨hg, hs⟩ := hu.worked hf hw
  obtain ⟨found, hv, -⟩ := hs.nodesFresh.mem_verify
  obtain ⟨hgranted, hcloses⟩ := hg.closes hs hd hv
  refine ⟨found, hv, hgranted.trans ?_, hcloses⟩
  simp only [mem_lacking]
  exact ⟨fun h partly b v u hx => h _ ⟨partly, b, v, u, hx, rfl⟩,
    fun h x ⟨partly, b, v, u, hx, heq⟩ => heq ▸ h partly b v u hx⟩

def halfDefined : List Request :=
  let x : Variable := ⟨0, 1, "x", .int 64, 0⟩
  let y : Variable := ⟨0, 2, "y", .int 64, 0⟩
  [.addVariable "x" (.int 64), .addVariable "y" (.int 64), .newBlock "left", .newBlock "right",
    .newFork none [⟨0, 3, .block, "left"⟩, ⟨0, 4, .block, "right"⟩], .newBlock "join",
    .appendElement 2 ⟨0, 6, .fork, ""⟩, .appendElement 2 ⟨0, 7, .block, "join"⟩,
    .appendInst 3 .undef (some x) [], .appendInst 3 .undef (some y) [],
    .appendInst 4 .undef (some y) [], .appendInst 7 .print none [.var x],
    .appendInst 7 .print none [.var y]]

theorem halfDefined_closed : ∃ f r g k, Reached f ∧ f.Unjoined ∧
    Edit.reachingDef ⟨5, 0⟩ f = .ok r g ∧ g.joinNodes 7 2 = [1, 2] ∧
    g.verify = .ok [.undefinedUse true 7 1 ⟨4, 0⟩] ∧
    Edit.defineUndefined g = .ok [⟨0, 1, "x", .int 64, 1⟩] k ∧ k.verify = .ok [] ∧
    ∃ r r' g' k', Edit.reachingDef ⟨5, 0⟩ g = .ok r g' ∧ Edit.reachingDef ⟨5, 0⟩ k = .ok r' k' ∧
      k'.sightOf r' = g'.sightOf r := by
  obtain ⟨f, hf, hpass⟩ := Reached.exists_of_requests 0 "f" halfDefined
    (fun f => decide (f.frozen = false ∧ f.incoming.live = [] ∧
      (∀ b ∈ f.entry, f.preds b = []) ∧ 7 ∈ f.blocks ∧ (f.inst 5).block = some 7) &&
      Edit.passes (Edit.reachingDef ⟨5, 0⟩) (fun _ g => decide (g.Declared ∧
        g.joinNodes 7 2 = [1, 2] ∧ 7 ∈ g.blocks ∧ (g.inst 5).block = some 7 ∧
        (g.inst 5).operands[0]? = some (Operand.use 2) ∧
        g.verify = .ok [.undefinedUse true 7 1 ⟨4, 0⟩]) && Edit.passes Edit.defineUndefined
          (fun vars _ => decide (vars = [⟨0, 1, "x", .int 64, 1⟩])) g) f)
    (by decide +kernel)
  rw [Bool.and_eq_true, decide_eq_true_eq] at hpass
  obtain ⟨⟨hfrozen, hn, he, hb, hblock⟩, hpass⟩ := hpass
  obtain ⟨r, g, hreach, hpass⟩ := Edit.of_passes hpass
  rw [Bool.and_eq_true, decide_eq_true_eq] at hpass
  obtain ⟨⟨hd, hnodes, hb', hblock', huse, hverify⟩, hpass⟩ := hpass
  obtain ⟨vars, k, hrun, hvars⟩ := Edit.of_passes hpass
  cases of_decide_eq_true hvars
  have hunjoined := hf.unjoined he hfrozen hn
  obtain ⟨found, -, -, hcloses⟩ :=
    undefined_paths_closed hf hunjoined (.single (.reachingDef hblock hb hreach)) hd
  have hclosed := hcloses _ k hrun
  obtain ⟨-, hreaches⟩ := hclosed.others 7 hb' 2 ⟨5, 0⟩ ⟨hblock', huse⟩ (by decide)
  obtain ⟨r₁, g₁, r₂, k₂, h₁, h₂, hsight⟩ := hreaches
  exact ⟨f, r, g, k, hf, hunjoined, hreach, hnodes, hverify, hrun, hclosed.closed, r₁, r₂, g₁, k₂,
    h₁, h₂, hsight⟩

-- If the function starts with a loop, the new block leads into it, and what only its body defines
-- is undefined from there.
example :
    let x : Variable := ⟨0, 1, "x", .int 64, 0⟩
    let y : Variable := ⟨0, 2, "y", .int 64, 0⟩
    ([.addVariable "x" (.int 64), .addVariable "y" (.int 64), .newBlock "turn",
      .newLoop none none (some ⟨0, 3, .block, "turn"⟩) none none,
          .appendElement 2 ⟨0, 8, .loop, ""⟩,
      .appendInst 5 .print none [.var y], .appendInst 3 .undef (some y) [],
      .appendInst 7 .print none [.var x]].foldlM Request.grant (.new 0 "f")).any (fun f =>
        decide (f.verify = .ok [.undefinedUse false 7 1 ⟨3, 0⟩]) &&
          Edit.passes Edit.defineUndefined (fun vars k => decide (vars.map Variable.id = [1] ∧
            k.verify = .ok [.undefinedUse true 5 2 ⟨1, 0⟩])) f) = true := by
  decide +kernel

end

end DefFlow.Flow
