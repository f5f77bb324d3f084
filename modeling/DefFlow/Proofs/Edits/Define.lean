import DefFlow.Proofs.Edits.Operands
import DefFlow.Proofs.Edits.Propagate
import Mathlib.Data.List.TakeDrop

/-!
# New definitions

An instruction starts to define a variable. Its definition is listed at its place, and
if its block had not decided the variable before, the nodes behind the block are bound
anew.
-/

set_option autoImplicit false

namespace DefFlow.Flow

open Func

section

variable {l : List InstId} {d d' : InstId → Bool} {k : Nat} {i : InstId}

theorem filter_of_one_more (hn : l.Nodup) (hi : l[k]? = some i) (hd : d i = false)
    (hd' : d' i = true) (hsame : ∀ j, j ≠ i → d' j = d j) :
    l.filter d' = (l.take (k + 1)).filter d ++ i :: (l.drop (k + 1)).filter d := by
  obtain ⟨hk, rfl⟩ := List.getElem?_eq_some_iff.mp hi
  have hsplit : l = l.take k ++ l[k] :: l.drop (k + 1) := by
    rw [← List.drop_eq_getElem_cons hk, List.take_append_drop]
  have hnot : ∀ j ∈ l.take k ++ l.drop (k + 1), j ≠ l[k] := by
    rw [hsplit] at hn
    intro j hj he
    exact (List.nodup_cons.mp (List.nodup_middle.mp hn)).1 (he ▸ hj)
  have hleft : (l.take k).filter d' = (l.take k).filter d :=
    List.filter_congr fun j hj => hsame j (hnot j (List.mem_append_left _ hj))
  have hright : (l.drop (k + 1)).filter d' = (l.drop (k + 1)).filter d :=
    List.filter_congr fun j hj => hsame j (hnot j (List.mem_append_right _ hj))
  rw [List.take_succ_eq_append_getElem hk, List.filter_append, List.filter_singleton, hd]
  conv_lhs => rw [hsplit]
  rw [List.filter_append, List.filter_cons_of_pos hd', hleft, hright]
  simp

end

def Timeline.localsWith (x : Timeline) (place : InstId → Nat) (i : InstId) : List Local :=
  x.locals.takeWhile (fun l => place l.inst ≤ place i) ++
    ⟨i, []⟩ :: x.locals.dropWhile fun l => place l.inst ≤ place i

theorem insertLocal_ok {f f' : Func} {t : TimelineId} {i : InstId} {u : Unit}
    (h : Edit.insertLocal t i f = .ok u f') :
    f' = { f.relisted t (fun x => { x with
      locals := (f.timelineAt t).localsWith f.indexOf i }) with memo := [] } := by
  rw [Edit.insertLocal, Edit.bind_eq Edit.get_eq] at h
  simp only [List.span_eq_takeWhile_dropWhile] at h
  split at h
  · obtain ⟨_, h⟩ := Edit.require_bind_ok h
    cases h
    rfl
  · cases h
    rfl

structure Defines (b : NodeId) (v : VarId) (t : TimelineId) (f f' : Func) : Prop
    extends SameGraph f f' where
  tables : f'.Tables
  feeds : ∀ c w, f'.feeds c w = f.feeds c w
  explicit? : ∀ c w, f'.explicit? c w = if c = b ∧ w = v then some t else f.explicit? c w
  locals : f'.locals b v ≠ []
  code : ∀ c, f'.code c = f.code c
  scheduled : f'.Scheduled

section

variable {f f' : Func} {b : NodeId} {v : VarId} {t : TimelineId} {i : InstId} {k : Nat}

theorem Func.Scheduled.localsWith (h : f.Scheduled) (ht : f.Tables)
    (hid : f.timelineId? b v = some t) (hi : (f.code b)[k]? = some i)
    (hd : f.defines v i = false) {d : InstId → Bool} (hdi : d i = true)
    (hsame : ∀ j, j ≠ i → d j = f.defines v j) :
    ((f.timelineAt t).localsWith f.indexOf i).map Local.inst = (f.code b).filter d := by
  have hplace : ∀ n j, (f.code b)[n]? = some j → f.indexOf j = n + 0 := fun n j hj => h.indexOf hj
  have hk : f.indexOf i = k := h.indexOf hi
  have htest : (fun j => decide (f.indexOf j ≤ f.indexOf i)) =
      fun j => decide (f.indexOf j < k + 1 + 0) := by
    funext j
    simp only [hk, Nat.add_zero, Nat.lt_succ_iff]
  have hlocals := (ht.locals_eq hid).symm.trans (h.locals b v)
  have htake := takeWhile_filter (p := f.defines v) hplace (k + 1)
  have hdrop : ((f.code b).filter (f.defines v)).dropWhile
      (fun j => decide (f.indexOf j < k + 1 + 0)) =
      ((f.code b).drop (k + 1)).filter (f.defines v) := by
    have hall : ((f.code b).filter (f.defines v)) =
        ((f.code b).take (k + 1)).filter (f.defines v) ++
          ((f.code b).drop (k + 1)).filter (f.defines v) := by
      rw [← List.filter_append, List.take_append_drop]
    have hsplit := List.takeWhile_append_dropWhile
      (p := fun j => decide (f.indexOf j < k + 1 + 0)) (l := (f.code b).filter (f.defines v))
    rw [htake] at hsplit
    exact List.append_cancel_left (hsplit.trans hall)
  rw [filter_of_one_more (h.nodup b) hi hd hdi hsame, ← htake, ← hdrop, ← hlocals,
    List.takeWhile_map, List.dropWhile_map, ← htest, Timeline.localsWith, List.map_append,
    List.map_cons]
  rfl

theorem Defines.operates {f'' : Func} (h : Defines b v t f f') (ho : Operates f' f'') :
    Defines b v t f f'' where
  toSameGraph := h.toSameGraph.trans ho.toSameGraph
  tables := ho.tables
  feeds c w := (ho.feeds c w).trans (h.feeds c w)
  explicit? c w := (ho.explicit? c w).trans (h.explicit? c w)
  locals := by rw [ho.locals]; exact h.locals
  code c := (ho.code c).trans (h.code c)
  scheduled := h.scheduled.congr ho.code ho.phiCount ho.locals ho.standing

def Func.assigned (f : Func) (i : InstId) (d : Def) (vars : List Variable) : Func :=
  { f with vars := vars, insts := f.insts.modify i fun x => { x with dest := some d } }

theorem recodes_assigned {d : Def} {vars : List Variable} : Recodes f (f.assigned i d vars) :=
  ⟨⟨rfl, rfl, rfl, rfl, rfl, rfl, fun _ => rfl⟩, fun _ => rfl, rfl, rfl⟩

theorem get?_assigned {d : Def} {vars : List Variable} (j : InstId) :
    (f.assigned i d vars).insts.get? j =
      (f.insts.get? j).map fun x => if i = j then { x with dest := some d } else x :=
  Arena.get?_modify_map _ _ _ _

theorem indexOf_assigned {d : Def} {vars : List Variable} :
    (f.assigned i d vars).indexOf = f.indexOf := by
  funext j
  rw [indexOf, indexOf, inst, inst, get?_assigned]
  cases f.insts.get? j with
  | none => rfl
  | some x =>
    rw [Option.map_some, Option.getD_some, Option.getD_some]
    split <;> rfl

theorem defines_assigned {x : Instruction} (hx : f.insts.get? i = some x) (d : Def)
    (vars : List Variable) (w : VarId) (j : InstId) :
    (f.assigned i d vars).defines w j = if j = i then decide (d.var = w) else f.defines w j := by
  rw [defines, defines, inst, inst, get?_assigned]
  by_cases hj : j = i
  · subst hj
    simp [hx]
  · simp only [if_neg hj, if_neg (Ne.symm hj)]
    cases f.insts.get? j <;> rfl

theorem seated_assigned {d : Def} {vars : List Variable} (h : f.Seated) :
    (f.assigned i d vars).Seated where
  nodup := h.nodup
  claims := fun {j c} => by
    refine h.claims.trans ⟨fun ⟨x, hx, hb⟩ => ?_, fun ⟨y, hy, hb⟩ => ?_⟩
    · rw [get?_assigned, hx]
      refine ⟨_, rfl, ?_⟩
      split <;> exact hb
    · rw [get?_assigned] at hy
      obtain ⟨x, hx, rfl⟩ := Option.map_eq_some_iff.mp hy
      refine ⟨x, hx, ?_⟩
      split at hb <;> exact hb
  index := fun {j c y} hj hy => by
    rw [get?_assigned] at hy
    obtain ⟨x, hx, rfl⟩ := Option.map_eq_some_iff.mp hy
    have hidx : x.index = (f.code c).idxOf j := h.index hj hx
    split <;> exact hidx

theorem relisting_localsWith (ls : List Local) :
    Relisting fun x : Timeline => { x with locals := ls } :=
  ⟨fun _ => rfl, fun _ => rfl, fun _ => rfl, fun _ => rfl⟩

def Func.counting (f : Func) (v : VarId) : List Variable :=
  f.vars.map fun x => if x.id = v then { x with defs := x.defs + 1 } else x

def Func.entered (f : Func) (t : TimelineId) (i : InstId) (v : VarId) : Func :=
  { (f.assigned i ⟨v, (f.varAt v).defs + 1⟩ (f.counting v)).relisted t (fun x => { x with
    locals := (f.timelineAt t).localsWith f.indexOf i }) with memo := [] }

theorem indexOf_entered : (f.entered t i v).indexOf = f.indexOf :=
  @indexOf_assigned f i ⟨v, (f.varAt v).defs + 1⟩ (f.counting v)

/-- A new definition is listed, and the uses behind it leave the holder before it for it. -/
theorem defineAt_shape {u : Unit} (hrun : Edit.defineAt t i v f = .ok u f') :
    f' = ((f.entered t i v).relisted t fun x =>
        x.changeUses (f.lastBefore (f.timelineAt t).locals (f.indexOf i)) fun us =>
          us.filter fun u => !decide (f.indexOf i < f.indexOf u.inst)).relisted t fun x =>
        x.changeUses (some i) fun _ =>
          ((f.timelineAt t).usesOf (f.lastBefore (f.timelineAt t).locals (f.indexOf i))).filter
            fun u => f.indexOf i < f.indexOf u.inst := by
  rw [Edit.defineAt, Edit.bind_eq Edit.get_eq] at hrun
  obtain ⟨d, f₁, hnext, hrun⟩ := Edit.bind_ok hrun
  cases hnext
  rw [Edit.bind_eq (Edit.changeInst_eq _ _)] at hrun
  obtain ⟨_, f₂, hinsert, hrun⟩ := Edit.bind_ok hrun
  have hshape : f₂ = f.entered t i v := by
    refine (insertLocal_ok hinsert).trans ?_
    rw [entered, ← @indexOf_assigned f i ⟨v, (f.varAt v).defs + 1⟩ (f.counting v)]
    rfl
  subst hshape
  rw [Edit.bind_eq Edit.get_eq, Edit.bind_eq (Edit.changeTimeline_eq _ _),
    Edit.changeTimeline_eq] at hrun
  cases hrun
  rw [indexOf_entered]
  rfl

theorem defines_listed (h : f.Scheduled) (ht : f.Tables) (hid : f.timelineId? b v = some t)
    (hi : (f.code b)[k]? = some i) (hd : (f.inst i).dest = none) {n : Nat}
    {vars : List Variable} {f₁ : Func} (hf₁ : f₁ = f.assigned i ⟨v, n⟩ vars) :
    Defines b v t f (f₁.relisted t fun x => { x with
      locals := (f.timelineAt t).localsWith f.indexOf i }) := by
  have hrec : Recodes f f₁ := hf₁ ▸ recodes_assigned
  have ht₁ := hrec.tables ht
  have hrel := relisting_localsWith ((f.timelineAt t).localsWith f.indexOf i)
  have ht₂ := relisted_tables (t := t) ht₁ hrel
  obtain ⟨x, hx, _⟩ := h.place hi
  have hdef : ∀ w j, f₁.defines w j = if j = i then decide (v = w) else f.defines w j := by
    intro w j
    rw [hf₁, defines_assigned hx]
  have hold : ∀ w, f.defines w i = false := by
    intro w
    rw [defines, hd]
    rfl
  have hnew : ((f.timelineAt t).localsWith f.indexOf i).map Local.inst =
      (f.code b).filter (f₁.defines v) :=
    h.localsWith ht hid hi (hold v) (by rw [hdef]; simp) fun j hj => by rw [hdef, if_neg hj]
  have hplace : ∀ {c w}, f₁.timelineId? c w = some t ↔ c = b ∧ w = v := by
    intro c w
    rw [hrec.timelineId?]
    constructor
    · exact ht.eq_of_timelineId? hid
    · rintro ⟨rfl, rfl⟩
      exact hid
  have hlocals : ∀ c w, (f₁.relisted t fun x => { x with
      locals := (f.timelineAt t).localsWith f.indexOf i }).locals c w =
      (f.code c).filter (f₁.defines w) := by
    intro c w
    rw [locals_relisted ht₁]
    by_cases hc : c = b ∧ w = v
    · rw [if_pos (hplace.mpr hc), hnew, hc.1, hc.2]
    · rw [if_neg fun hn => hc (hplace.mp hn), hrec.locals, h.locals]
      refine List.filter_congr fun j hj => ?_
      rw [hdef]
      split
      · next hji =>
        subst hji
        rw [hold]
        have hcb : c = b := h.seated.block_unique hj (List.mem_of_getElem? hi)
        exact (decide_eq_false fun hvw => hc ⟨hcb, hvw.symm⟩).symm
      · rfl
  have hmem : i ∈ (f.code b).filter (f₁.defines v) :=
    List.mem_filter.mpr ⟨List.mem_of_getElem? hi, by rw [hdef]; simp⟩
  refine {
    toSameGraph := hrec.toSameGraph.trans sameGraph_relisted
    tables := ht₂
    feeds := fun c w => (feeds_relisted hrel c w).trans (hrec.feeds c w)
    explicit? := fun c w => ?_
    locals := hlocals b v ▸ List.ne_nil_of_mem hmem
    code := fun c => ?_
    scheduled := ?_ }
  · by_cases hc : c = b ∧ w = v
    · rw [if_pos hc, ht₂.explicit?_eq, if_neg, ← hplace.mpr hc]
      · rfl
      · rintro ⟨hnil, _⟩
        rw [hlocals, hc.1, hc.2] at hnil
        exact List.ne_nil_of_mem hmem hnil
    · rw [if_neg hc, ← hrec.explicit?]
      refine ht₁.explicit?_congr ht₂ (fun _ hu => hu) ?_ (joinNodes_relisted hrel c w)
      rw [locals_relisted ht₁, if_neg fun hn => hc (hplace.mp hn)]
  · rw [hf₁]
    rfl
  · have hseated : f₁.Seated := hf₁ ▸ seated_assigned h.seated
    have hcode : ∀ c, f₁.code c = f.code c := fun c => by rw [hf₁]; rfl
    have hphis : ∀ c, (f₁.blockAt c).phiCount ≤ (f₁.code c).length := by
      rw [hf₁]
      exact h.phis
    refine Seated.scheduled ⟨hseated.nodup, hseated.claims, hseated.index⟩ hphis fun c w => ?_
    rw [hlocals, ← hcode]
    rfl

theorem defines_entered (h : f.Scheduled) (ht : f.Tables) (hid : f.timelineId? b v = some t)
    (hi : (f.code b)[k]? = some i) (hd : (f.inst i).dest = none) :
    Defines b v t f (f.entered t i v) :=
  have hlisted := defines_listed h ht hid hi hd (.refl (f.assigned i _ (f.counting v)))
  hlisted.operates (operates_memo hlisted.tables [])

theorem defineAt_ok (h : f.Scheduled) (ht : f.Tables) (hid : f.timelineId? b v = some t)
    (hi : (f.code b)[k]? = some i) (hd : (f.inst i).dest = none) {u : Unit}
    (hrun : Edit.defineAt t i v f = .ok u f') : Defines b v t f f' ∧ f'.memo = [] := by
  have hdef := defines_entered h ht hid hi hd
  rw [defineAt_shape hrun]
  exact ⟨hdef.operates (.trans (operates_changeUses hdef.tables t _ _)
    (operates_changeUses (operates_changeUses hdef.tables t _ _).tables t _ _)), rfl⟩

/-! ## A block starts to decide a variable -/

theorem Defines.decides (h : Defines b v t f f') {c : NodeId} :
    f'.Decides v c ↔ c = b ∨ f.Decides v c := by
  rw [Decides, Decides, h.explicit?]
  by_cases hc : c = b
  · simp [hc]
  · simp [hc]

theorem Defines.fresh_or_behind (h : Defines b v t f f') {p : NodeId} {T : Option TimelineId}
    (hf : f.Fresh v p T) : f'.Fresh v p T ∨ Departs f'.preds (f'.Decides v) p (some b) := by
  by_cases hdep : Departs f'.preds (f'.Decides v) p (some b)
  · exact Or.inr hdep
  · refine Or.inl fun a ha => ?_
    have hne : ∀ c, a = some c → c ≠ b := fun c hc hcb => hdep (hcb ▸ hc ▸ ha)
    have hdec : ∀ c, a = some c → f.Decides v c := fun c hc =>
      (h.decides.mp (decides_of_departs (hc ▸ ha))).resolve_left (hne c hc)
    have hold := hf a (departs_narrow (fun hx => h.decides.mpr (Or.inr hx)) (h.preds ▸ ha) hdec)
    rw [hold]
    cases a with
    | none => rfl
    | some c =>
      rw [Option.bind_some, Option.bind_some, h.explicit?, if_neg fun hc => hne c rfl hc.1]

theorem Defines.fresh_other (h : Defines b v t f f') {w : VarId} (hw : w ≠ v) {p : NodeId}
    {T : Option TimelineId} (hf : f.Fresh w p T) : f'.Fresh w p T :=
  fresh_congr h.preds (fun c => by rw [h.explicit?, if_neg fun hc => hw hc.2]) hf

theorem Advances.scheduled (h : Advances v f f') (hs : f.Scheduled) : f'.Scheduled :=
  hs.congr h.keeps.instructions h.keeps.phiCount h.locals fun i => by rw [h.keeps.insts]

/-- After the announcement of a new definition every node is fresh again. -/
theorem Defines.announce (h : Defines b v t f f') (hc : f.Calm) (hm : f'.memo = [])
    (hb : b ∈ f.blocks) :
    ∃ c f'', Edit.propagate t none f' = .ok c f'' ∧ f''.NodesFresh ∧ f''.Scheduled ∧
      Advances v f' f'' := by
  have hshaped := hc.shaped h.toSameGraph h.feeds h.tables hm
  have hcache : (none : Option IncomingCache).getD (.ofBlocks [b]) = .ofBlocks [b] := rfl
  obtain ⟨c, f'', hrun, hw, ha, hfresh⟩ := propagate_ok hshaped.searchable hshaped.fed
    (h.blocks ▸ hb) (by rw [h.explicit?, if_pos ⟨rfl, rfl⟩])
    (fun x e he => h.fresh_or_behind (hc.fresh e (h.feeds x v ▸ he))) hcache
  refine ⟨c, f'', hrun, ⟨ha.shaped hshaped hw, fun {x w} e he => ?_⟩, ha.scheduled h.scheduled, ha⟩
  by_cases hwv : w = v
  · exact hwv ▸ hfresh x e (hwv ▸ he)
  · refine ha.fresh_feeds hshaped.fed hshaped.searchable.forest (fun y e he => ?_) x e he
    exact h.fresh_other hwv (hc.fresh e (h.feeds y w ▸ he))

theorem Defines.nodesFresh (h : Defines b v t f f') (hc : f.Calm) (hm : f'.memo = [])
    (ht : f.explicit? b v = some t) : f'.NodesFresh := by
  refine (hc.sameFlow ⟨h.toSameGraph, fun c w => ?_, h.feeds⟩ h.tables).nodesFresh
      (remembers_of_nil hm)
  rw [h.explicit?]
  split
  · next hcw => rw [hcw.1, hcw.2, ht]
  · rfl

end

end DefFlow.Flow
