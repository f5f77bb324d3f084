import DefFlow.Proofs.Resolution.Drop

/-!
# What a resolution finds

A resolution always gives an answer. Its joins, together with the blocks that decide
the variable already, make the value at every edge into them unique: the value that
is recorded for a path of a join is the one that leaves the predecessor.
-/

set_option autoImplicit false

namespace DefFlow.Flow

namespace Func

def source (f : Func) : Reach → Option NodeId
  | .undefined => none
  | .timeline t => some (f.timelineAt t).block
  | .pending j => some j
  | .join j => some j

def Placed (f : Func) (v : VarId) : Prop :=
  ∀ {b t}, f.timelineId? b v = some t → (f.timelineAt t).block = b

theorem timelineId?_of_explicit? {f : Func} {v : VarId} {b : NodeId} {t : TimelineId}
    (h : f.explicit? b v = some t) : f.timelineId? b v = some t := by
  rw [explicit?, Option.filter_eq_some_iff] at h
  exact h.1

end Func

structure Solution (f : Func) (v : VarId) (leaf : NodeId) (s : Stack) : Prop where
  leaf_eq : s.leaf = leaf
  var_eq : s.var = v
  search : Searching f v [] s
  needs : ∀ j ∈ s.surviving, s.Needs j
  root : ((f.joined? leaf v).isSome ∧ s.root = .join leaf ∧ s.joins = []) ∨
    (f.joined? leaf v = none ∧
      (f.rise v leaf = .known s.root ∨
        ∃ j, f.rise v leaf = .opens j ∧ j ∈ s.joins ∧ s.root = s.rep (.pending j)))

theorem Searching.withRoot {f : Func} {v : VarId} {active : List NodeId} {s : Stack}
    (h : Searching f v active s) (r : Reach) :
    Searching f v active { s with root := r } ∧ Extends s { s with root := r } := by
  have hrep : ∀ w, ({ s with root := r } : Stack).rep w = s.rep w :=
    fun w => @Stack.rep_congr_entries s { s with root := r } rfl rfl w
  have hext : Extends s { s with root := r } :=
    ⟨rfl, rfl, fun h => h, fun h => h, Nat.le_refl _, fun _ => rfl, fun _ => Iff.rfl,
      fun hr => by rw [hrep, hrep, hr]⟩
  exact ⟨{
    total := Stack.total_congr_entries (s := s) rfl rfl h.total
    nodup := h.nodup
    block := h.block
    seen := h.seen
    met := h.met
    active_nodup := h.active_nodup
    pending := h.pending
    length := h.length
    phis_nodup := h.phis_nodup
    phi := h.phi
    result := h.result
    clear := fun hk => (h.clear hk).imp_right fun hc => hc.extends hext
    preds := h.preds
    values := fun hk => (h.values hk).imp fun _ _ hc => hc.extends hext
    dropped_nodup := h.dropped_nodup
    dropped_phi := h.dropped_phi
    dropped_to := fun hk => ⟨(h.dropped_to hk).1.extends hext, (h.dropped_to hk).2⟩
    agree := fun hk hd w hw => by rw [hrep, hrep]; exact h.agree hk hd w hw }, hext⟩

namespace Func

variable {f : Func} {v : VarId}

variable {I : Stack → Prop}

/-- Dropping joins and settling the root end every resolution. -/
theorem finish_ok (G : f.Net) (hlasts : Lasts f v I) {s : Stack} (h : Searching f v [] s)
    (hI : I s) :
    ∃ s', (do
        let s ← s.eliminate f (s.phis.length + 1)
        return { s with root := ← s.canon f s.root }) = Except.ok s' ∧
      Searching f v [] s' ∧ I s' ∧ Extends s s' ∧ (∀ j ∈ s'.surviving, s'.Needs j) ∧
      s' = { s with replaced := s'.replaced, root := s'.root } ∧ s'.root = s'.rep s.root := by
  obtain ⟨s₁, hs₁, h₁, hI₁, hsame, hext, hneeds⟩ :=
    h.eliminate_ok G hlasts (n := s.phis.length + 1) hI (by omega)
  obtain ⟨h₂, hext₂⟩ := h₁.withRoot (s₁.rep s₁.root)
  refine ⟨_, ?_, h₂, hlasts.withRoot hI₁, hext.trans hext₂, ?_, ?_, ?_⟩
  · rw [hs₁]
    simp only [bind, Except.bind]
    rw [Stack.canon_eq f h₁.total h₁.bounded]
    rfl
  · intro j hj
    have := hneeds j hj
    rw [Stack.Needs, Stack.others] at this ⊢
    rwa [show ({ s₁ with root := s₁.rep s₁.root } : Stack).rep = s₁.rep from
      funext fun w => @Stack.rep_congr_entries s₁ { s₁ with root := s₁.rep s₁.root } rfl rfl w]
  · rw [hsame]
  · have hroot : s₁.root = s.root := by rw [hsame]
    rw [← hroot]
    exact (@Stack.rep_congr_entries s₁ { s₁ with root := s₁.rep s₁.root } rfl rfl s₁.root).symm

theorem walk_none {x : NodeId} (h : f.joined? x v = none) :
    f.walk v [] [] x = f.rise v x := by
  rw [walk, h]
  rfl

theorem solve_lasts (G : f.Net) (hlasts : Lasts f v I) {leaf : NodeId} (hl : leaf ∈ f.blocks)
    (hI : I (Stack.start leaf v)) :
    ∃ s, f.solve leaf v = .ok s ∧ Solution f v leaf s ∧ I s := by
  have h₀ := Searching.start f v leaf
  rw [solve]
  cases hj : f.joined? leaf v with
  | some t =>
    have hw : f.walk v [] [] leaf = .known (.join leaf) := by rw [walk, hj]; rfl
    obtain ⟨s, hs, h, hIs, hext, hneeds, heq, hroot⟩ :=
      finish_ok G hlasts (h₀.withRoot (.join leaf)).1 (hlasts.withRoot hI)
    refine ⟨s, by simp only [hw]; exact hs, ⟨hext.leaf, hext.var, h, hneeds,
      Or.inl ⟨by rw [hj]; rfl, ?_, by rw [heq]; rfl⟩⟩, hIs⟩
    have hlook : s.replaced.lookup leaf = none := by
      cases hr : s.replaced.lookup leaf with
      | none => rfl
      | some r =>
        have := h.dropped_phi hr
        rw [heq] at this
        cases this
    rw [hroot]
    exact Stack.rep_of_settled h.total hlook
  | none =>
    cases hr : f.rise v leaf with
    | known w =>
      obtain ⟨s, hs, h, hIs, hext, hneeds, heq, hroot⟩ :=
        finish_ok G hlasts (h₀.withRoot w).1 (hlasts.withRoot hI)
      refine ⟨s, by simp only [walk_none hj, hr]; exact hs, ⟨hext.leaf, hext.var,
        h, hneeds, Or.inr ⟨hj, Or.inl ?_⟩⟩, hIs⟩
      rw [hroot, hr]
      rcases rise_known G hl hr with rfl | ⟨t, rfl, _⟩
      · exact congrArg _ (Stack.rep_undefined h.total).symm
      · exact congrArg _ (Stack.rep_timeline h.total t).symm
    | opens j =>
      obtain ⟨hjb, hjp, hsees⟩ := rise_opens G hl hr
      have hopens : f.Opens v j := ⟨hjb, hjp, hsees.eq_or_clear.elim (fun e => e ▸ hj)
        fun he => joined?_of_explicit? (not_decides.mp he)⟩
      obtain ⟨r, s₁, hs₁, h₁, hI₁, hext, htop⟩ := searches G hlasts f.nodes.size h₀ hI (j := j)
        (by simp [Stack.start, Stack.joins]) hopens hsees (by have := G.count; omega)
      obtain ⟨h₂, hext₂⟩ := h₁.withRoot (s₁.rep (.pending j))
      obtain ⟨s, hs, h, hIs, hext₃, hneeds, heq, hroot⟩ :=
        finish_ok G hlasts h₂ (hlasts.withRoot hI₁)
      have hall := (hext.trans hext₂).trans hext₃
      refine ⟨s, ?_, ⟨hall.leaf, hall.var, h, hneeds, Or.inr ⟨hj, Or.inr ⟨j, hr, ?_, ?_⟩⟩⟩, hIs⟩
      · simp only [walk_none hj, hr, hs₁, bind, Except.bind]
        rw [Stack.canon_eq f h₁.total h₁.bounded]
        exact hs
      · exact (hext₂.trans hext₃).joins (h₁.met.mpr (Or.inr (by rw [htop]; rfl)))
      · rw [hroot]
        exact (hext₂.trans hext₃).rep (Stack.rep_rep h₁.total _)

theorem solve_ok (G : f.Net) {leaf : NodeId} (hl : leaf ∈ f.blocks) :
    ∃ s, f.solve leaf v = .ok s ∧ Solution f v leaf s := by
  obtain ⟨s, hs, h, -⟩ := solve_lasts G (.trivial f v) hl trivial
  exact ⟨s, hs, h⟩

end Func

/-! ## The labels of a solution -/

def Stack.out (f : Func) (v : VarId) (s : Stack) (x : NodeId) : Option NodeId :=
  if (f.explicit? x v).isSome then some x
  else match f.rise v x with
    | .known r => f.source r
    | .opens j => f.source (s.rep (.pending j))

def Stack.Visited (f : Func) (v : VarId) (s : Stack) (x : NodeId) : Prop :=
  x ∈ f.blocks ∧ f.explicit? x v = none ∧ ∀ j, f.rise v x = .opens j → j ∈ s.joins

def Stack.Decided (f : Func) (v : VarId) (s : Stack) (b : NodeId) : Prop :=
  f.Decides v b ∨ b ∈ s.surviving

def Grounded (f : Func) (v : VarId) (s : Stack) : Reach → Prop
  | .undefined => True
  | .timeline t => ∃ b ∈ f.blocks, f.explicit? b v = some t
  | .pending _ => False
  | .join k => k ∈ s.surviving ∧ f.explicit? k v = none

namespace Stack

variable {f : Func} {v : VarId} {s : Stack} {x : NodeId}

theorem mem_surviving {j : NodeId} :
    j ∈ s.surviving ↔ j ∈ s.phis ∧ s.replaced.lookup j = none := by
  rw [surviving, List.mem_filter, Option.isNone_iff_eq_none]

theorem out_of_explicit (h : (f.explicit? x v).isSome) : s.out f v x = some x := by
  rw [out, if_pos h]

theorem out_of_known {r : Reach} (h : f.explicit? x v = none) (hr : f.rise v x = .known r) :
    s.out f v x = f.source r := by
  simp [out, h, hr]

theorem out_of_opens {j : NodeId} (h : f.explicit? x v = none) (hr : f.rise v x = .opens j) :
    s.out f v x = f.source (s.rep (.pending j)) := by
  simp [out, h, hr]

end Stack

namespace Searching

variable {f : Func} {v : VarId} {s : Stack} {p : NodeId} {w : Reach}

theorem out_of_carries (G : f.Net) (hf : f.Placed v) (h : Searching f v [] s)
    (hp : p ∈ f.blocks) (hc : Carries f v s p w) : s.out f v p = f.source (s.rep w) := by
  cases hc with
  | @explicit t he =>
    rw [Stack.out_of_explicit (by rw [he]; rfl), Stack.rep_timeline h.total, Func.source,
      hf (Func.timelineId?_of_explicit? he)]
  | known he hw =>
    rw [Stack.out_of_known he hw]
    rcases Func.rise_known G hp hw with rfl | ⟨t, rfl, _⟩
    · rw [Stack.rep_undefined h.total]
    · rw [Stack.rep_timeline h.total]
  | pending he hj _ => rw [Stack.out_of_opens he hj]
  | top he hj ht => rw [Stack.out_of_opens he hj, Stack.rep_of_next (r := .pending _) h.total ht]

theorem grounded (h : Searching f v [] s) {r : Reach} (hc : Clear f v s r)
    (hj : ∀ k, s.rep r = .join k → k ∈ s.phis) : Grounded f v s (s.rep r) := by
  have hclear := h.clear_rep hc
  have hset := Stack.next?_rep h.total r
  cases hr : s.rep r with
  | undefined => exact trivial
  | timeline t =>
    rw [hr] at hclear
    exact hclear
  | pending k =>
    rw [hr] at hclear
    exact h.rep_ne_pending hclear.1 hr
  | join k =>
    rw [hr] at hclear hset
    exact ⟨Stack.mem_surviving.mpr ⟨hj k hr, hset⟩, hclear⟩

theorem grounded_carried (G : f.Net) (h : Searching f v [] s) (hp : p ∈ f.blocks)
    (hc : Carries f v s p w) : Grounded f v s (s.rep w) :=
  h.grounded (h.clear_carried G hp hc) fun _ hk => h.rep_carried_join G hp hc hk

/-- Grounded values that come from one block are the same. -/
theorem eq_of_source (hf : f.Placed v) {a b : Reach} (ha : Grounded f v s a)
    (hb : Grounded f v s b) (h : f.source a = f.source b) : a = b := by
  cases a with
  | pending _ => exact ha.elim
  | undefined =>
    cases b with
    | undefined => rfl
    | _ => simp [Func.source] at h
  | timeline t =>
    obtain ⟨x, _, hx⟩ := ha
    have hbx := hf (Func.timelineId?_of_explicit? hx)
    cases b with
    | pending _ => exact hb.elim
    | undefined => simp [Func.source] at h
    | timeline t' =>
      obtain ⟨y, _, hy⟩ := hb
      have hby := hf (Func.timelineId?_of_explicit? hy)
      rw [Func.source, Func.source, hbx, hby, Option.some.injEq] at h
      rw [h, hy, Option.some.injEq] at hx
      rw [hx]
    | join k =>
      rw [Func.source, Func.source, hbx, Option.some.injEq] at h
      rw [h, hb.2] at hx
      cases hx
  | join k =>
    cases b with
    | pending _ => exact hb.elim
    | undefined => simp [Func.source] at h
    | timeline t' =>
      obtain ⟨y, _, hy⟩ := hb
      rw [Func.source, Func.source, hf (Func.timelineId?_of_explicit? hy), Option.some.injEq] at h
      rw [← h, ha.2] at hy
      cases hy
    | join k' =>
      rw [Func.source, Func.source, Option.some.injEq] at h
      rw [h]

end Searching

namespace Solution

variable {f : Func} {v : VarId} {leaf : NodeId} {s : Stack}

theorem visited_of_carries (h : Solution f v leaf s) {p : NodeId} {w : Reach}
    (hp : p ∈ f.blocks) (hc : Carries f v s p w) : f.Decides v p ∨ s.Visited f v p := by
  cases hc with
  | explicit he => exact Or.inl (by rw [Func.Decides, he]; rfl)
  | known he hw => exact Or.inr ⟨hp, he, fun j hj => by rw [hw] at hj; cases hj⟩
  | pending he hj hm =>
    refine Or.inr ⟨hp, he, fun k hk => ?_⟩
    rw [hj, WalkEnd.opens.injEq] at hk
    exact hk ▸ hm
  | top he hj ht =>
    refine Or.inr ⟨hp, he, fun k hk => ?_⟩
    rw [hj, WalkEnd.opens.injEq] at hk
    exact hk ▸ h.search.met.mpr (Or.inr (by rw [ht]; rfl))

theorem values_of_mem (h : Solution f v leaf s) {j : NodeId} (hj : j ∈ s.joins) :
    List.Forall₂ (Carries f v s) (f.preds j) (s.frame j).values := by
  rcases h.search.met.mp hj with hm | hm
  · cases hm
  · obtain ⟨r, hr⟩ := Option.isSome_iff_exists.mp hm
    exact h.search.values hr

theorem phi_of_surviving (h : Solution f v leaf s) {j : NodeId} (hj : j ∈ s.surviving) :
    j ∈ s.joins :=
  h.search.phi_mem_joins (Stack.mem_surviving.mp hj).1

theorem agree_of_mem (h : Solution f v leaf s) {j : NodeId} (hj : j ∈ s.joins)
    (hs : j ∉ s.surviving) {w : Reach} (hw : w ∈ (s.frame j).values) :
    s.rep w = s.rep (.pending j) := by
  rcases h.search.met.mp hj with hm | hm
  · cases hm
  obtain ⟨r, hr⟩ := Option.isSome_iff_exists.mp hm
  refine h.search.agree hr ?_ w hw
  by_cases hp : j ∈ s.phis
  · exact Or.inr (Option.isSome_iff_ne_none.mpr fun hn => hs (Stack.mem_surviving.mpr ⟨hp, hn⟩))
  · exact Or.inl hp

theorem rep_pending (h : Solution f v leaf s) {j : NodeId} (hj : j ∈ s.surviving) :
    s.rep (.pending j) = .join j := by
  obtain ⟨hphi, hn⟩ := Stack.mem_surviving.mp hj
  rw [Stack.rep_of_next h.search.total (r := .pending j) (h.search.phi hphi)]
  exact Stack.rep_of_settled h.search.total hn

theorem carries_of_visited (G : f.Net) (h : Solution f v leaf s) {x p : NodeId}
    (hx : s.Visited f v x) (hp : p ∈ f.preds x) : f.Decides v p ∨ s.Visited f v p := by
  obtain ⟨hb, he, hj⟩ := hx
  have hpb := G.mem hb hp
  rcases Func.rise_cases G v hb hp with ⟨-, t, hpe, -⟩ | ⟨-, hpe, hrise⟩ | hrise
  · exact Or.inl (by rw [Func.Decides, hpe]; rfl)
  · exact Or.inr ⟨hpb, hpe, fun j hr => hj j (hrise.trans hr)⟩
  · obtain ⟨w, _, hc⟩ := forall₂_left (h.values_of_mem (hj x hrise)) hp
    exact h.visited_of_carries hpb hc

theorem pass_out (G : f.Net) (hf : f.Placed v) (h : Solution f v leaf s) {x p : NodeId}
    (hx : s.Visited f v x) (hj : x ∉ s.surviving) (hp : p ∈ f.preds x) :
    s.out f v p = s.out f v x := by
  obtain ⟨hb, he, hopen⟩ := hx
  have hpb := G.mem hb hp
  rcases Func.rise_cases G v hb hp with ⟨-, t, hpe, hrise⟩ | ⟨-, hpe, hrise⟩ | hrise
  · rw [Stack.out_of_explicit (by rw [hpe]; rfl), Stack.out_of_known he hrise, Func.source,
      hf (Func.timelineId?_of_explicit? hpe)]
  · simp [Stack.out, he, hpe, hrise]
  · obtain ⟨w, hw, hc⟩ := forall₂_left (h.values_of_mem (hopen x hrise)) hp
    rw [h.search.out_of_carries G hf hpb hc, Stack.out_of_opens he hrise,
      h.agree_of_mem (hopen x hrise) hj hw]

/-- Two paths of a join that is left bring different values. -/
theorem differ (G : f.Net) (hf : f.Placed v) (h : Solution f v leaf s) {j : NodeId}
    (hj : j ∈ s.surviving) :
    ∃ p ∈ f.preds j, ∃ q ∈ f.preds j, s.out f v p ≠ s.out f v q ∧
      (¬ f.Decides v j → s.out f v p ≠ some j ∧ s.out f v q ≠ some j) := by
  have hmem := h.phi_of_surviving hj
  have hjb := (h.search.block hmem).block
  have hvalues := h.values_of_mem hmem
  have hneeds := h.needs j hj
  have hnodup := nodup_eraseDups
    ((((s.frame j).values.map s.rep).filter fun r => !Stack.isSelf j r))
  match ho : s.others j (s.frame j).values with
  | [] => simp [Stack.Needs, ho] at hneeds
  | [a] => simp [Stack.Needs, ho] at hneeds
  | a :: b :: rest =>
    have hab : a ≠ b := by
      rw [← Stack.others, ho, List.nodup_cons] at hnodup
      exact fun e => hnodup.1 (e ▸ List.mem_cons_self)
    obtain ⟨⟨wa, hwa, ha⟩, hsa⟩ := Stack.mem_others (s := s) (ho ▸ List.mem_cons_self)
    obtain ⟨⟨wb, hwb, hb⟩, hsb⟩ :=
      Stack.mem_others (s := s) (r := b) (ho ▸ List.mem_cons_of_mem _ List.mem_cons_self)
    obtain ⟨p, hp, hpc⟩ := forall₂_right hvalues hwa
    obtain ⟨q, hq, hqc⟩ := forall₂_right hvalues hwb
    have hpb := G.mem hjb hp
    have hqb := G.mem hjb hq
    have hga : Grounded f v s a := ha ▸ h.search.grounded_carried G hpb hpc
    have hgb : Grounded f v s b := hb ▸ h.search.grounded_carried G hqb hqc
    have hoa : s.out f v p = f.source a := ha ▸ h.search.out_of_carries G hf hpb hpc
    have hob : s.out f v q = f.source b := hb ▸ h.search.out_of_carries G hf hqb hqc
    refine ⟨p, hp, q, hq, ?_, fun hd => ?_⟩
    · rw [hoa, hob]
      exact fun e => hab (Searching.eq_of_source hf hga hgb e)
    · have hgj : Grounded f v s (.join j) :=
        ⟨hj, Option.not_isSome_iff_eq_none.mp hd⟩
      have own : ∀ {r}, Grounded f v s r → Stack.isSelf j r = false → f.source r ≠ some j := by
        intro r hr hself e
        have := Searching.eq_of_source hf hr hgj e
        simp [this, Stack.isSelf] at hself
      exact ⟨hoa ▸ own hga hsa, hob ▸ own hgb hsb⟩

def labelling (G : f.Net) (hf : f.Placed v) (h : Solution f v leaf s) :
    Labelling (· ∈ f.blocks) f.preds (f.Decides v)
      (fun j => j ∈ s.surviving ∧ ¬ f.Decides v j) (s.Visited f v) where
  out := s.out f v
  node_of_visited hx := hx.1
  visit hx hp := h.carries_of_visited G hx hp
  join_visited := fun {x} hx => by
    have hopens := h.search.block (h.phi_of_surviving hx.1)
    refine ⟨hopens.block, Option.not_isSome_iff_eq_none.mp hx.2, fun j hj => ?_⟩
    rw [Func.rise_join G hopens.block hopens.several, WalkEnd.opens.injEq] at hj
    exact hj ▸ h.phi_of_surviving hx.1
  join_clear hx := hx.2
  opaque_out hx := Stack.out_of_explicit hx
  join_out := fun {x} hx => by
    have hopens := h.search.block (h.phi_of_surviving hx.1)
    rw [Stack.out_of_opens (Option.not_isSome_iff_eq_none.mp hx.2)
      (Func.rise_join G hopens.block hopens.several), h.rep_pending hx.1, Func.source]
  start_out := fun {x} hx _ _ hp => by
    rw [Stack.out_of_known hx.2.1 (Func.rise_start G hx.1 hp), Func.source]
  pass_out := fun {x p} hx _ hj hp => h.pass_out G hf hx (fun hs => hj ⟨hs, by
    rw [Func.Decides, hx.2.1]; simp⟩) hp
  differ := fun {x} hx => by
    obtain ⟨p, hp, q, hq, hpq, hown⟩ := h.differ G hf hx.1
    exact ⟨p, hp, q, hq, hpq, hown hx.2⟩

theorem decided_eq : s.Decided f v =
    fun b => f.Decides v b ∨ (b ∈ s.surviving ∧ ¬ f.Decides v b) := by
  funext b
  rw [eq_iff_iff, Stack.Decided]
  by_cases hd : f.Decides v b <;> simp [hd]

theorem departs_of_carries (G : f.Graph) (hf : f.Placed v) (h : Solution f v leaf s)
    {p : NodeId} {w : Reach} (hp : p ∈ f.blocks) (hc : Carries f v s p w) {a : Option NodeId} :
    Departs f.preds (s.Decided f v) p a ↔ a = f.source (s.rep w) := by
  rw [decided_eq, ← h.search.out_of_carries G hf hp hc]
  have hv := h.visited_of_carries hp hc
  constructor
  · intro ha
    exact ((h.labelling G hf).out_eq_of_departs hv ha).symm
  · rintro rfl
    exact (h.labelling G hf).departs_out G.toReducible hp hv

/-- The value recorded for a path of a join is the one that leaves the predecessor. -/
theorem departs_value (G : f.Graph) (hf : f.Placed v) (h : Solution f v leaf s) {j : NodeId}
    (hj : j ∈ s.surviving) :
    List.Forall₂ (fun p w => Grounded f v s (s.rep w) ∧
      ∀ a, Departs f.preds (s.Decided f v) p a ↔ a = f.source (s.rep w))
      (f.preds j) (s.frame j).values := by
  have hmem := h.phi_of_surviving hj
  have hjb := (h.search.block hmem).block
  refine (List.forall₂_and_left (p := (· ∈ f.preds j)) _ _).mpr
      ⟨fun _ hp => hp, h.values_of_mem hmem⟩ |>.imp ?_
  rintro p w ⟨hp, hc⟩
  have hpb := G.mem hjb hp
  exact ⟨h.search.grounded_carried G hpb hc, fun a => h.departs_of_carries G hf hpb hc⟩

theorem several_of_surviving (h : Solution f v leaf s) {j : NodeId} (hj : j ∈ s.surviving) :
    2 ≤ (f.preds j).length :=
  (h.search.block (h.phi_of_surviving hj)).several

/-- The answer of a resolution: the join at the block itself, or what leaves every
predecessor. -/
theorem root_out (G : f.Net) (hf : f.Placed v) (h : Solution f v leaf s) (hl : leaf ∈ f.blocks) :
    (s.root = .join leaf ∧ ((f.joined? leaf v).isSome ∨ leaf ∈ s.surviving)) ∨
    (f.joined? leaf v = none ∧ leaf ∉ s.surviving ∧ Grounded f v s s.root ∧
      (f.preds leaf = [] → s.root = .undefined) ∧
      ∀ p ∈ f.preds leaf, (f.Decides v p ∨ s.Visited f v p) ∧ s.out f v p = f.source s.root) := by
  rcases h.root with ⟨hj, hr, _⟩ | ⟨hj, hr⟩
  · exact Or.inl ⟨hr, Or.inl hj⟩
  by_cases hs : leaf ∈ s.surviving
  · refine Or.inl ⟨?_, Or.inr hs⟩
    have hrise := Func.rise_join (v := v) G hl (h.several_of_surviving hs)
    rcases hr with hr | ⟨j, hr, _, hroot⟩
    · rw [hrise] at hr
      cases hr
    · rw [hrise, WalkEnd.opens.injEq] at hr
      rw [hroot, ← hr, h.rep_pending hs]
  refine Or.inr ⟨hj, hs, ?_⟩
  -- It is enough that every predecessor carries the answer.
  suffices key : (f.preds leaf = [] → s.root = .undefined) ∧
      ∀ p ∈ f.preds leaf, ∃ w, Carries f v s p w ∧ s.root = s.rep w by
    refine ⟨?_, key.1, fun p hp => ?_⟩
    · cases hp : f.preds leaf with
      | nil =>
        rw [key.1 hp]
        exact trivial
      | cons p ps =>
        have hm : p ∈ f.preds leaf := by simp [hp]
        obtain ⟨w, hc, hroot⟩ := key.2 p hm
        rw [hroot]
        exact h.search.grounded_carried G (G.mem hl hm) hc
    · obtain ⟨w, hc, hroot⟩ := key.2 p hp
      have hpb := G.mem hl hp
      rw [hroot]
      exact ⟨h.visited_of_carries hpb hc, h.search.out_of_carries G hf hpb hc⟩
  rcases Func.preds_cases f leaf with hp | ⟨p, hp⟩ | hp
  · refine ⟨fun _ => ?_, fun p hm => absurd (hp ▸ hm) List.not_mem_nil⟩
    rw [Func.rise_start G hl hp] at hr
    rcases hr with hr | ⟨j, hr, _⟩
    · exact (WalkEnd.known.inj hr).symm
    · cases hr
  · refine ⟨fun hn => absurd (hp.symm.trans hn) (List.cons_ne_nil p []), fun q hq => ?_⟩
    have hpb := G.mem hl hq
    rw [hp, List.mem_singleton] at hq
    subst hq
    cases he : f.explicit? q v with
    | some t =>
      refine ⟨_, .explicit he, ?_⟩
      rw [Func.rise_explicit G hl hp he] at hr
      rcases hr with hr | ⟨j, hr, _⟩
      · rw [Stack.rep_timeline h.search.total]
        exact (WalkEnd.known.inj hr).symm
      · cases hr
    | none =>
      rw [Func.rise_pass G hl hp he] at hr
      rcases hr with hr | ⟨j, hr, hm, hroot⟩
      · refine ⟨_, .known he hr, ?_⟩
        rcases Func.rise_known G hpb hr with hr | ⟨t, hr, _⟩
        · rw [hr, Stack.rep_undefined h.search.total]
        · rw [hr, Stack.rep_timeline h.search.total]
      · exact ⟨_, .pending he hr hm, hroot⟩
  · refine ⟨fun hn => by simp [hn] at hp, fun q hq => ?_⟩
    have hrise := Func.rise_join (v := v) G hl hp
    obtain ⟨j, hr, hm, hroot⟩ := hr.resolve_left (by rw [hrise]; simp)
    rw [hrise, WalkEnd.opens.injEq] at hr
    subst hr
    obtain ⟨w, hw, hc⟩ := forall₂_left (h.values_of_mem hm) hq
    exact ⟨w, hc, hroot.trans (h.agree_of_mem hm hs hw).symm⟩

/-- The answer of a resolution: the join at the block itself, or the one value that
arrives there. -/
theorem root_cases (G : f.Graph) (hf : f.Placed v) (h : Solution f v leaf s)
    (hl : leaf ∈ f.blocks) :
    (s.root = .join leaf ∧ ((f.joined? leaf v).isSome ∨ leaf ∈ s.surviving)) ∨
    (f.joined? leaf v = none ∧ leaf ∉ s.surviving ∧ Grounded f v s s.root ∧
      ∀ a, Arrives f.preds (s.Decided f v) leaf a ↔ a = f.source s.root) := by
  refine (h.root_out G hf hl).imp_right fun ⟨hj, hs, hg, hstart, hout⟩ => ⟨hj, hs, hg, fun a => ?_⟩
  have hdeparts : ∀ {p a}, p ∈ f.preds leaf →
      (Departs f.preds (s.Decided f v) p a ↔ a = f.source s.root) := by
    intro p a hp
    obtain ⟨hv, ho⟩ := hout p hp
    rw [decided_eq, ← ho]
    constructor
    · intro ha
      exact ((h.labelling G hf).out_eq_of_departs hv ha).symm
    · rintro rfl
      exact (h.labelling G hf).departs_out G.toReducible (G.mem hl hp) hv
  rw [arrives_iff]
  constructor
  · rintro (⟨hn, rfl⟩ | ⟨p, hp, hd⟩)
    · rw [hstart hn]
      rfl
    · exact (hdeparts hp).mp hd
  · rintro rfl
    cases hp : f.preds leaf with
    | nil =>
      rw [hstart hp]
      exact Or.inl ⟨rfl, rfl⟩
    | cons p ps => exact Or.inr ⟨p, List.mem_cons_self, (hdeparts (by simp [hp])).mpr rfl⟩

theorem rep_root (G : f.Net) (hf : f.Placed v) (h : Solution f v leaf s)
    (hl : leaf ∈ f.blocks) : s.rep s.root = s.root := by
  rcases h.root_out G hf hl with ⟨hroot, hj⟩ | ⟨-, -, hg, -⟩
  · rw [hroot]
    refine Stack.rep_of_settled h.search.total ?_
    rcases hj with hj | hj
    · rcases h.root with ⟨-, -, hnil⟩ | ⟨hn, -⟩
      · rw [Stack.next?_join]
        cases hd : s.replaced.lookup leaf with
        | none => rfl
        | some r =>
          have := h.search.phi_mem_joins (h.search.dropped_phi hd)
          rw [hnil] at this
          cases this
      · rw [hn] at hj
        cases hj
    · exact (Stack.mem_surviving.mp hj).2
  · cases hr : s.root with
    | undefined => exact Stack.rep_undefined h.search.total
    | timeline t => exact Stack.rep_timeline h.search.total t
    | pending _ =>
      rw [hr] at hg
      exact hg.elim
    | join k =>
      rw [hr] at hg
      exact Stack.rep_of_settled h.search.total (Stack.mem_surviving.mp hg.1).2

end Solution

end DefFlow.Flow
