import DefFlow.Proofs.Edits.Advance
import DefFlow.Proofs.Reaching.Expansion

/-!
# Propagation

A block `b` has started to decide the value of a variable that leaves it. The nodes
that this makes stale stand for edges that lead away from the blocks seen by `b`
without a decision in between. The walk takes every edge behind `b` up to the blocks
that decided the value before, binds the nodes of the edge anew, and so leaves no
stale node behind.
-/

set_option autoImplicit false

namespace DefFlow.Flow

open Func

section

variable {f f' : Func} {v : VarId} {b : NodeId}

theorem Func.Searchable.of_keeps (h : f.Searchable) (hk : Keeps f f') (ht : f'.Tables)
    (hm : Forgets f f') :
    f'.Searchable where
  forest := hk.forest h.forest
  enters := hk.enters h.enters
  tables := ht
  unfrozen := by rw [hk.frozen]; exact h.unfrozen
  memo := by
    rcases hm with rfl | hm
    · exact h.memo
    · exact remembers_of_nil hm

/-! ## The value that leaves a block -/

theorem Func.Tables.explicit?_of_joined (h : f.Tables) {t : TimelineId}
    (ht : f.joined? b v = some t) : f.explicit? b v = some t := by
  rw [h.joined?_eq] at ht
  rw [h.explicit?_eq]
  by_cases hj : f.joinNodes b v = []
  · rw [if_pos hj] at ht
    cases ht
  · rw [if_neg hj] at ht
    rw [if_neg fun hn => hj hn.2, ht]

theorem Func.Tables.explicit?_of_quiet (h : f.Tables) (hl : f.locals b v = []) :
    f.explicit? b v = f.joined? b v := by
  rw [h.explicit?_eq, h.joined?_eq, hl]
  simp

theorem departs_of_decides {preds : NodeId → List NodeId} {opq : NodeId → Prop} {x : NodeId}
    {a : Option NodeId} (ho : opq x) (h : Departs preds opq x a) : a = some x := by
  rcases h with ⟨_, h⟩ | ⟨hn, _⟩
  · exact h
  · exact absurd ho hn

theorem fresh_of_explicit? {t : TimelineId} (h : f.explicit? b v = some t) :
    f.Fresh v b (some t) := by
  intro a ha
  have hd : f.Decides v b := by rw [Decides, h]; rfl
  rw [departs_of_decides hd ha, Option.bind_some, h]

/-- An answer at the top of a block without definitions is what leaves it. -/
theorem Func.Shows.fresh (ht : f.Tables) {r : Resolution} (hr : f.Shows v b r)
    (hl : f.locals b v = []) : f.Fresh v b r.timeline? := by
  have hq := ht.explicit?_of_quiet hl
  have top : ∀ {a T}, f.joined? b v = none → f.Only v b a →
      (T = a.bind fun c => f.explicit? c v) → f.Fresh v b T := by
    intro a T hn ho hT c hc
    have hd : ¬ f.Decides v b := by rw [Decides, hq, hn]; simp
    rcases hc with ⟨hd', _⟩ | ⟨_, hc⟩
    · exact absurd hd' hd
    · rw [(ho c).mp hc, hT]
  cases r with
  | undefined => exact top hr.1 hr.2 rfl
  | timeline t =>
    obtain ⟨hn, c, hc, ho⟩ := hr
    exact top hn ho hc.symm
  | top t =>
    rcases hr with hj | ⟨hn, c, hc, _, ho⟩
    · exact fresh_of_explicit? (hq.trans hj)
    · exact top hn ho (ht.explicit?_of_joined hc).symm
  | join _ => exact hr.elim

/-- What leaves a block is a timeline of the same variable. -/
theorem Func.Fresh.live (hw : f.Searchable) (hb : b ∈ f.blocks) {t : TimelineId}
    (h : f.Fresh v b (some t)) : ∃ x, f.timelines.get? t = some x ∧ x.var = v := by
  obtain ⟨G⟩ := hw.graph
  obtain ⟨a, ha⟩ : ∃ a, Departs f.preds (f.Decides v) b a := G.exists_departs hb
  cases a with
  | none => cases h none ha
  | some c =>
    have hc : f.explicit? c v = some t := (h _ ha).symm
    obtain ⟨x, hx, _, hv⟩ := hw.tables.placed (timelineId?_of_explicit? hc)
    exact ⟨x, hx, hv⟩

theorem valueLeaving_ok (h : f.Searchable) (hb : b ∈ f.blocks) (v : VarId) :
    ∃ T f', Edit.valueLeaving b v f = .ok T f' ∧ f'.Searchable ∧ Refines f f' ∧ Spares v f f' ∧
      f'.Fresh v b T ∧ ∀ c, f.Decides v c → f'.joinNodes c v = f.joinNodes c v := by
  rw [Edit.valueLeaving, Edit.bind_eq Edit.get_eq]
  cases he : f.explicit? b v with
  | some t =>
    exact ⟨some t, f, rfl, h, .refl h.tables, fun _ _ _ => ⟨rfl, rfl⟩, fresh_of_explicit? he,
      fun _ _ => rfl⟩
  | none =>
    obtain ⟨r, f', hrun, hw', hres, hshows⟩ := resolveAt_ok h hb v
    have href := hres.refines h
    have hl : f'.locals b v = [] := by
      rw [href.locals]
      by_contra hne
      have hid := h.tables.explicit?_eq (b := b) (v := v)
      rw [if_neg fun hn => hne hn.1, he] at hid
      exact hne (locals_of_none hid.symm)
    refine ⟨r.timeline?, f', Edit.bind_eq hrun, hw', href, hres.spares h.tables,
      hshows.fresh hw'.tables hl, fun c hc => hres.joinNodes_of_decides ?_ hc⟩
    rintro rfl
    rw [Decides, he] at hc
    cases hc

end

/-! ## The nodes of one edge -/

section

variable {f f' : Func} {v : VarId} {x y : NodeId}

def Func.Knows (f : Func) (v : VarId) (y : NodeId) (known : Bool) (T : Option TimelineId) : Prop :=
  known = true → f.Fresh v y T

theorem Func.Knows.advances {known : Bool} {T : Option TimelineId} (h : f.Knows v y known T)
    (ha : Advances v f f') (hy : y ∈ f.blocks) : f'.Knows v y known T :=
  fun hk => ha.fresh hy (h hk)

theorem broughtBy_ok (hw : f.Searchable) (hy : y ∈ f.blocks) {known : Bool} {T : Option TimelineId}
    (hk : f.Knows v y known T) :
    ∃ U f', (if known then pure T else Edit.valueLeaving y v) f = .ok U f' ∧ f'.Searchable ∧
      Refines f f' ∧ Spares v f f' ∧ f'.Fresh v y U := by
  cases known with
  | true => exact ⟨T, f, rfl, hw, .refl hw.tables, fun _ _ _ => ⟨rfl, rfl⟩, hk rfl⟩
  | false =>
    obtain ⟨U, f', hrun, hw', href, hspares, hfresh, _⟩ := valueLeaving_ok hw hy v
    exact ⟨U, f', hrun, hw', href, hspares, hfresh⟩

theorem rebind_fresh (hw : f.Searchable) (hfed : f.Fed) {n : IncomingId} (hn : n ∈ f.joinNodes x v)
    {T : Option TimelineId} (hT : f.Fresh v (f.incomingAt n).pred T) :
    ∃ c f', Edit.rebind n T f = .ok c f' ∧ f'.Searchable ∧ Advances v f f' ∧
      (f'.incomingAt n).target = T := by
  obtain ⟨t, i, hid, hi, hit⟩ := hw.tables.get?_of_mem hn
  rw [incomingAt_of_get? hi] at hT
  have he := hfed _ (mem_feeds hn)
  rw [incomingAt_of_get? hi] at he
  have hp : i.pred ∈ f.blocks := hw.forest.pred_mem he.1 he.2
  have hvar : (f.timelineAt i.owner).var = v := hit ▸ hw.tables.var_eq hid
  obtain ⟨c, f', hrun, ht', hb⟩ := rebind_ok (T := T) hw.tables hi (fun u hu => by
    rw [hvar]
    exact (hu ▸ hT : f.Fresh v i.pred (some u)).live hw hp)
  refine ⟨c, f', hrun, hw.of_keeps hb.keeps ht' hb.forgets,
    hb.advances hw.tables ht' hi hn hT, ?_⟩
  rw [hb.incomingAt, if_pos rfl]

/-- A node of the edge that is being taken is bound to the value that the step brings. -/
theorem rebindBrought_ok (hw : f.Searchable) (hfed : f.Fed) {n : IncomingId}
    (hn : n ∈ f.joinNodes x v) {known : Bool} {T : Option TimelineId}
    (hk : f.Knows v (f.incomingAt n).pred known T) (c : Nat) :
    ∃ c' f', (do
      let target ← if known then pure T else Edit.valueLeaving (f.incomingAt n).pred v
      if ← Edit.rebind n target then return c + 1 else return c : Edit Nat) f = .ok c' f' ∧
      f'.Searchable ∧ Advances v f f' ∧
      f'.Fresh v (f.incomingAt n).pred (f'.incomingAt n).target := by
  have he := hfed _ (mem_feeds hn)
  have hp := hw.forest.pred_mem he.1 he.2
  obtain ⟨U, f₁, hU, hw₁, href, hspares, hfresh⟩ := broughtBy_ok hw hp hk
  have ha₁ := href.advances hw.tables hspares
  have hn₁ : n ∈ f₁.joinNodes x v := by
    rcases href.joins x v with hj | hj
    · exact hj ▸ hn
    · rw [hj.none_before] at hn
      cases hn
  obtain ⟨changed, f', hrun, hw', ha', htarget⟩ := rebind_fresh hw₁ (ha₁.fed hfed) hn₁
    (ha₁.pred hn ▸ hfresh)
  refine ⟨if changed then c + 1 else c, f', ?_, hw', ha₁.trans hw.forest hfed ha', ?_⟩
  · have hlast : (do
        if ← Edit.rebind n U then return c + 1 else return c : Edit Nat) f₁ =
          .ok (if changed then c + 1 else c) f' := by
      rw [Edit.bind_eq hrun]
      cases changed <;> rfl
    cases known with
    | true =>
      obtain ⟨rfl, rfl⟩ := Edit.pure_ok hU
      exact hlast
    | false => exact (Edit.bind_eq hU).trans hlast
  · rw [htarget]
    exact ha'.fresh (href.keeps.blocks ▸ hp) hfresh

theorem rebindNodes_ok (hw : f.Searchable) (hfed : f.Fed) (hy : y ∈ f.blocks) {o : Edit.Outlook}
    (ho : o.leaving = Edit.valueLeaving) {step : PropagationStep}
    (hk : f.Knows v y step.known step.value) :
    ∃ c f', Edit.rebindNodes o v [y] step (f.joinNodes x v) f = .ok c f' ∧ f'.Searchable ∧
      Advances v f f' ∧ ∀ n ∈ f.joinNodes x v, (f'.incomingAt n).pred = y →
        f'.Fresh v y (f'.incomingAt n).target := by
  refine Edit.foldlM_run (fun done _ f' => f'.Searchable ∧ Advances v f f' ∧
    ∀ n ∈ done, (f'.incomingAt n).pred = y → f'.Fresh v y (f'.incomingAt n).target) ?_
    ⟨hw, .refl hw.tables, fun n hn => by cases hn⟩
  intro done n rest c f₁ hsplit ⟨hw₁, ha₁, hdone⟩
  have hmem : ∀ m ∈ done ++ [n], m ∈ f₁.joinNodes x v := by
    intro m hm
    have hm' : m ∈ f.joinNodes x v := by
      rw [hsplit, List.append_cons]
      exact List.mem_append_left _ hm
    rcases ha₁.joins x v with hj | hj
    · exact hj ▸ hm'
    · rw [hj.none_before] at hm'
      cases hm'
  have hn₁ := hmem n (by simp)
  rw [Edit.bind_eq Edit.get_eq]
  by_cases hpred : (f₁.incomingAt n).pred = y
  · have hk₁ : f₁.Knows v (f₁.incomingAt n).pred step.known step.value :=
      hpred ▸ hk.advances ha₁ hy
    obtain ⟨c', f₂, hrun, hw₂, ha₂, hfresh⟩ := rebindBrought_ok hw₁ (ha₁.fed hfed) hn₁ hk₁ c
    refine ⟨c', f₂, ?_, hw₂, ha₁.trans hw.forest hfed ha₂, fun m hm hpm => ?_⟩
    · rw [if_neg (by simp [hpred]), ho]
      exact hrun
    · have hold : (f₁.incomingAt m).pred = y := ha₂.pred (hmem m hm) ▸ hpm
      rcases List.mem_append.mp hm with hm' | hm'
      · have := ha₂.fresh_target (ha₁.fed hfed) hw₁.forest (hmem m hm) (hold ▸ hdone m hm' hold)
        exact hpm ▸ this
      · rw [List.mem_singleton.mp hm']
        exact hpred ▸ hfresh
  · refine ⟨c, f₁, ?_, hw₁, ha₁, fun m hm hpm => ?_⟩
    · rw [if_pos (by simpa using hpred)]
      rfl
    · rcases List.mem_append.mp hm with hm' | hm'
      · exact hdone m hm' hpm
      · exact absurd (List.mem_singleton.mp hm' ▸ hpm) hpred

end

/-! ## Where the walk goes on -/

section

variable {g f : Func} {v : VarId} {x y : NodeId}

theorem Func.Knows.pass {known : Bool} {T : Option TimelineId} (h : f.Knows v y known T)
    (hd : ¬ f.Decides v x) (hy : y ∈ f.preds x) (hlen : ¬ 1 < (f.preds x).length) :
    f.Knows v x known T := by
  have hp : f.preds x = [y] := by
    match hl : f.preds x, hy, hlen with
    | [p], hy, _ => rw [List.mem_singleton.mp hy]
    | p :: q :: l, _, hlen => simp at hlen
  intro hk a ha
  rcases ha with ⟨hd', _⟩ | ⟨_, ha⟩
  · exact absurd hd' hd
  · rcases arrives_iff.mp ha with ⟨hnil, _⟩ | ⟨p, hpm, hdep⟩
    · rw [hnil] at hy
      cases hy
    · rw [hp, List.mem_singleton] at hpm
      exact h hk a (hpm ▸ hdep)

/-- Old joins are told from those made on the way by the numbers of their nodes. -/
theorem Advances.joinNodes_old (ha : Advances v g f) {n : IncomingId}
    (hn : n ∈ f.joinNodes x v) (hle : n ≤ g.incoming.size) : g.joinNodes x v ≠ [] := by
  rcases ha.joins x v with hj | hj
  · rw [← hj]
    exact List.ne_nil_of_mem hn
  · exact absurd (hj.later n hn) (Nat.not_lt.mpr hle)

/-- A walk stops only where the value was decided before, and what it carries on is
right. -/
theorem carriedOn_ok (hg : g.Tables) (ha : Advances v g f) (hw : f.Searchable)
    {step : PropagationStep} (hy : step.source ∈ f.preds step.block)
    (hk : f.Knows v step.source step.known step.value) :
    ∃ r, Edit.carriedOn v g.incoming.size step f = .ok r f ∧
      (r = none → g.Decides v step.block) ∧
      ∀ T known, r = some (T, known) → f.Knows v step.block known T := by
  have ht := hw.tables
  have hbehind : ¬ f.Decides v step.block →
      ∃ r, (if 1 < (f.preds step.block).length then pure (some (none, false))
          else pure (some (step.value, step.known)) : Edit (Option (Option TimelineId × Bool))) f =
        .ok r f ∧ (r = none → g.Decides v step.block) ∧
        ∀ T known, r = some (T, known) → f.Knows v step.block known T := by
    intro hd
    split
    · exact ⟨_, rfl, by simp, fun T known hr => by cases hr; exact fun h => by cases h⟩
    · next hlen =>
      exact ⟨_, rfl, by simp, fun T known hr => by cases hr; exact hk.pass hd hy hlen⟩
  have hlocals := ha.locals step.block v
  rw [Edit.carriedOn, Edit.bind_eq Edit.get_eq]
  cases hid : f.timelineId? step.block v with
  | none =>
    refine hbehind ?_
    rw [ht.decides_iff, Defining, locals_of_none hid, joinNodes_of_none hid]
    simp
  | some t =>
    have hdef : (f.timelineAt t).locals ≠ [] → g.Decides v step.block := by
      intro hne
      rw [hg.decides_iff, Defining, ← hlocals, ht.locals_eq hid]
      exact Or.inl fun hnil => hne (List.map_eq_nil_iff.mp hnil)
    have hjn := ht.joinNodes_eq hid
    cases hin : (f.timelineAt t).incoming with
    | nil =>
      cases hl : (f.timelineAt t).locals with
      | nil =>
        simp only [hin, hl]
        refine hbehind ?_
        rw [ht.decides_iff, Defining, hjn, ht.locals_eq hid, hin, hl]
        simp
      | cons l ls =>
        refine ⟨none, ?_, fun _ => hdef (by simp [hl]), by simp⟩
        simp only [hin, hl]
        rfl
    | cons n ns =>
      have hn : n ∈ f.joinNodes step.block v := by rw [hjn, hin]; exact List.mem_cons_self
      by_cases hstop : (f.timelineAt t).locals ≠ [] ∨ n ≤ g.incoming.size
      · refine ⟨none, ?_, fun _ => ?_, by simp⟩
        · simp only [hin]
          rw [if_pos (by simp), if_pos]
          · rfl
          · rw [Bool.or_eq_true, decide_eq_true_iff]
            simpa using hstop
        · rcases hstop with hne | hle
          · exact hdef hne
          · rw [hg.decides_iff]
            exact Or.inr (ha.joinNodes_old hn hle)
      · refine ⟨some (some t, true), ?_, by simp, fun T known hr => ?_⟩
        · simp only [hin]
          rw [if_pos (by simp), if_neg]
          · rfl
          · rw [Bool.or_eq_true, decide_eq_true_iff]
            simpa using hstop
        · cases hr
          intro _
          refine fresh_of_explicit? (ht.explicit?_of_joined ?_)
          rw [ht.joined?_eq, if_neg (List.ne_nil_of_mem hn), hid]

end

end DefFlow.Flow
