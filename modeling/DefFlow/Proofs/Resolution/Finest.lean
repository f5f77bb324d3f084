import DefFlow.Proofs.Graph.Marks
import DefFlow.Proofs.Resolution.Solve

/-!
# The finest marks

A search drops a join only if any marks of the blocks agree there. So what it finds marks the
blocks that it has passed, all other marks follow from its own, and two searches agree wherever
both have been, in any graph. Main statement: the block that a value comes from is the same
whichever question is asked.
-/

set_option autoImplicit false

namespace DefFlow.Flow

open Func

structure Finest (f : Func) (v : VarId) (region : NodeId → Prop) (out : NodeId → Option NodeId) :
    Prop where
  marks : Marks f.preds (f.Decides v) region out
  finer : ∀ {region' out'}, Marks f.preds (f.Decides v) region' out' →
    ∀ {x}, region x → region' x → out' x = (out x).bind out'

theorem Finest.eq {f : Func} {v : VarId} {region region' : NodeId → Prop}
    {out out' : NodeId → Option NodeId} {x : NodeId} (h : Finest f v region out)
    (h' : Finest f v region' out') (hx : region x) (hx' : region' x) : out x = out' x :=
  h.marks.eq_of_finer h'.marks (fun hr hr' => h'.finer h.marks hr' hr)
    (fun hr' hr => h.finer h'.marks hr hr') hx hx'

section

variable {f : Func} {v : VarId} {s : Stack} {x p j k : NodeId} {w r : Reach}
variable {active : List NodeId} {values : List Reach}

/-! ## Where values come from -/

def Leads (f : Func) (x : NodeId) (r : Reach) : Prop :=
  ∀ y, f.source r = some y → Relation.ReflTransGen (fun a b => b ∈ f.preds a) x y

theorem Leads.pred (h : Leads f p r) (hp : p ∈ f.preds x) : Leads f x r :=
  fun y hy => .head hp (h y hy)

theorem Sees.path (h : Sees f.preds (f.Decides v) x k) :
    Relation.ReflTransGen (fun a b => b ∈ f.preds a) x k := by
  induction h with
  | refl => exact .refl
  | step _ hp _ ih => exact .tail ih hp

theorem leads_of_walkUp (hf : f.Placed v) {n : Nat} (h : f.walkUp v [] [] n x = .known w) :
    Leads f x w := by
  have hnone : ∀ {z}, Leads f z .undefined := fun {z} y hy => by cases hy
  induction n generalizing x with
  | zero =>
    cases h
    exact hnone
  | succ n ih =>
    rw [walkUp] at h
    rcases hp : f.preds x with _ | ⟨p, _ | ⟨q, ps⟩⟩
    · simp only [hp] at h
      cases h
      exact hnone
    · have hm : p ∈ f.preds x := by simp [hp]
      cases he : f.explicit? p v with
      | some t =>
        simp only [hp, he, WalkEnd.known.injEq] at h
        subst h
        intro y hy
        rw [source, hf (timelineId?_of_explicit? he), Option.some.injEq] at hy
        exact .single (hy ▸ hm)
      | none =>
        simp only [hp, he] at h
        exact (ih h).pred hm
    · simp [hp] at h

def Tracing (f : Func) (s : Stack) : Prop :=
  ∀ {j r}, s.tops.lookup j = some r ∨ s.replaced.lookup j = some r → Leads f j r

theorem Tracing.rep (h : Tracing f s) (ht : s.Total) (hr : Leads f x r) : Leads f x (s.rep r) := by
  refine Stack.rep_induct ht (fun {a b} hn ha => ?_) hr
  cases a with
  | pending k => exact fun y hy => (ha k rfl).trans (h (Or.inl hn) y hy)
  | join k => exact fun y hy => (ha k rfl).trans (h (Or.inr hn) y hy)
  | _ => cases hn

theorem Tracing.carried (h : Tracing f s) (G : f.Net) (hf : f.Placed v) (hp : p ∈ f.blocks)
    (hc : Carries f v s p w) : Leads f p w := by
  cases hc with
  | @explicit t he =>
    intro y hy
    rw [source, hf (timelineId?_of_explicit? he), Option.some.injEq] at hy
    exact hy ▸ .refl
  | known _ hw => exact leads_of_walkUp hf hw
  | pending _ hj _ =>
    intro y hy
    rw [source, Option.some.injEq] at hy
    exact hy ▸ (rise_opens G hp hj).2.2.path
  | top _ hj ht => exact fun y hy => (rise_opens G hp hj).2.2.path.trans (h (Or.inl ht) y hy)

theorem Tracing.other (h : Tracing f s) (G : f.Net) (hf : f.Placed v)
    (hs : Searching f v active s) (hj : j ∈ f.blocks)
    (hv : List.Forall₂ (Carries f v s) (f.preds j) values) (hr : r ∈ s.others j values) :
    Leads f j r := by
  obtain ⟨⟨w, hw, rfl⟩, -⟩ := Stack.mem_others hr
  obtain ⟨p, hp, hc⟩ := forall₂_right hv hw
  exact h.rep hs.total ((h.carried G hf (G.mem hj hp) hc).pred hp)

/-- An entry of a search after a join has been completed. -/
theorem entry_completed {i : NodeId}
    (h : (s.completed j (f.preds j) values).tops.lookup i = some r ∨
      (s.completed j (f.preds j) values).replaced.lookup i = some r) :
    (i = j ∧ r = s.joinResult j values) ∨
      (s.tops.lookup i = some r ∨ s.replaced.lookup i = some r) := by
  rcases h with h | h
  · rw [Stack.lookup_completed] at h
    split at h
    · next hi => exact Or.inl ⟨hi, (Option.some.inj h).symm⟩
    · exact Or.inr (Or.inl h)
  · exact Or.inr (Or.inr h)

theorem entry_dropped {i : NodeId} {c : Reach}
    (h : s.tops.lookup i = some r ∨ List.lookup i ((j, c) :: s.replaced) = some r) :
    (i = j ∧ r = c) ∨ (s.tops.lookup i = some r ∨ s.replaced.lookup i = some r) := by
  rcases h with h | h
  · exact Or.inr (Or.inl h)
  · rcases of_lookup_cons h with ⟨hi, hr⟩ | ⟨-, h⟩
    · exact Or.inl ⟨hi, hr.symm⟩
    · exact Or.inr (Or.inr h)

theorem tracing_lasts (G : f.Net) (hf : f.Placed v) : f.Lasts v (Tracing f) where
  withRoot h := h
  opened _ _ h := h
  completed {active s j values} hs hv h := by
    have hjb := (hs.block (hs.met.mpr (Or.inl List.mem_cons_self))).block
    intro i r hr
    rcases entry_completed hr with ⟨rfl, rfl⟩ | hr
    · rcases s.joinResult_cases i values with ⟨_, _, hres⟩ | ⟨_, ho⟩ | ⟨_, hres⟩
      · exact hres ▸ fun y hy => nomatch hy
      · exact h.other G hf hs hjb hv (ho ▸ List.mem_singleton_self _)
      · intro y hy
        rw [hres, source, Option.some.injEq] at hy
        exact hy ▸ .refl
    · exact h hr
  dropped {s j c} hs hj _ hc h := by
    intro i r hr
    rcases entry_dropped (s := s) (j := j) (c := c) hr with ⟨rfl, rfl⟩ | hr
    · rcases hc with ⟨_, rfl⟩ | ho
      · exact fun y hy => nomatch hy
      · exact h.other G hf hs (hs.block (hs.phi_mem_joins hj)).block (hs.values_of_phi hj)
          (ho ▸ List.mem_singleton_self _)
    · exact h hr

/-! ## Searching among marked blocks -/

variable {region : NodeId → Prop} {out : NodeId → Option NodeId}

def Func.worth (f : Func) (out : NodeId → Option NodeId) : Reach → Option NodeId
  | .undefined => none
  | .timeline t => some (f.timelineAt t).block
  | .pending k => out k
  | .join k => out k

def Marked (region : NodeId → Prop) : Reach → Prop
  | .pending k => region k
  | .join k => region k
  | _ => True

def Respects (f : Func) (region : NodeId → Prop) (out : NodeId → Option NodeId) (s : Stack) :
    Prop :=
  ∀ {j r}, region j → s.tops.lookup j = some r ∨ s.replaced.lookup j = some r →
    Marked region r ∧ f.worth out r = out j

theorem Respects.rep (h : Respects f region out s) (ht : s.Total) (hr : Marked region r) :
    Marked region (s.rep r) ∧ f.worth out (s.rep r) = f.worth out r := by
  refine Stack.rep_induct (P := fun a => Marked region a ∧ f.worth out a = f.worth out r) ht
    (fun {a b} hn ha => ?_) ⟨hr, rfl⟩
  cases a with
  | pending k =>
    obtain ⟨hb, hw⟩ := h ha.1 (Or.inl hn)
    exact ⟨hb, hw.trans ha.2⟩
  | join k =>
    obtain ⟨hb, hw⟩ := h ha.1 (Or.inr hn)
    exact ⟨hb, hw.trans ha.2⟩
  | _ => cases hn

theorem worth_of_isSelf (h : Stack.isSelf j r = true) : f.worth out r = out j := by
  simp only [Stack.isSelf, Bool.or_eq_true, decide_eq_true_eq] at h
  rcases h with rfl | rfl <;> rfl

namespace Marks

variable (M : Marks f.preds (f.Decides v) region out)

include M

theorem out_opens {n : Nat} (hx : region x) (h : f.walkUp v [] [] n x = .opens k) :
    region k ∧ out k = out x := by
  induction n generalizing x with
  | zero => cases h
  | succ n ih =>
    rw [walkUp] at h
    rcases hp : f.preds x with _ | ⟨p, _ | ⟨q, ps⟩⟩
    · simp only [hp] at h
      cases h
    · cases he : f.explicit? p v with
      | some t =>
        simp only [hp, he] at h
        cases h
      | none =>
        simp only [hp, he] at h
        have hpr := (M.closed hx (by simp [hp])).resolve_left (not_decides.mpr he)
        obtain ⟨hk, ho⟩ := ih hpr h
        exact ⟨hk, ho.trans (M.out_of_single hx hp)⟩
    · simp [hp] at h
      subst h
      exact ⟨hx, rfl⟩

theorem out_timeline {n : Nat} {t : TimelineId} (hf : f.Placed v) (hx : region x)
    (h : f.walkUp v [] [] n x = .known (.timeline t)) : out x = some (f.timelineAt t).block := by
  induction n generalizing x with
  | zero => cases h
  | succ n ih =>
    rw [walkUp] at h
    rcases hp : f.preds x with _ | ⟨p, _ | ⟨q, ps⟩⟩
    · simp only [hp] at h
      cases h
    · rw [← M.out_of_single hx hp]
      cases he : f.explicit? p v with
      | some u =>
        simp only [hp, he] at h
        cases h
        rw [hf (timelineId?_of_explicit? he)]
        exact M.opaque_out (by rw [Decides, he]; rfl)
      | none =>
        simp only [hp, he] at h
        exact ih ((M.closed hx (by simp [hp])).resolve_left (not_decides.mpr he)) h
    · simp [hp] at h

/-- A walk that finds nothing starts from a block that nothing is marked by. -/
theorem out_undefined (G : f.Net) (hx : region x) (hb : x ∈ f.blocks)
    (h : f.rise v x = .known .undefined) : out x = none := by
  have single : ∀ {y : NodeId}, region y → y ∈ f.blocks → f.rise v y = .known .undefined →
      out y ≠ some y := by
    intro y hy hyb hr ho
    obtain ⟨p, hp, q, hq, hne, -, -⟩ := M.differ hy ho
    have hone : f.preds y ≠ [p] := fun hz => by
      rw [hz, List.mem_singleton] at hq
      exact hne (by rw [hq])
    rcases rise_cases G v hyb hp with ⟨hz, -⟩ | ⟨hz, -⟩ | hopens
    · exact absurd hz hone
    · exact absurd hz hone
    · rw [hopens] at hr
      cases hr
  cases ho : out x with
  | none => rfl
  | some y =>
    have harr := M.traced hx ho fun he => single hx hb h (he ▸ ho)
    -- The way to the block of the mark is the way of the walk.
    clear ho
    generalize ha : some y = a at harr
    induction harr with
    | start _ => cases ha
    | @leaves x p hp hs =>
      exfalso
      rcases rise_cases G v hb hp with ⟨-, t, -, hr⟩ | ⟨-, he, hr⟩ | hr <;> rw [hr] at h
      · cases h
      · exact single ((M.closed hx hp).resolve_left (not_decides.mpr he)) (G.mem hb hp) h hs
      · cases h
    | @passes x p a hp hs _ ih =>
      have hnot : ¬ f.Decides v p := fun hd => hs (M.opaque_out hd)
      rcases rise_cases G v hb hp with ⟨-, t, -, hr⟩ | ⟨-, -, hr⟩ | hr <;> rw [hr] at h
      · cases h
      · exact ih ((M.closed hx hp).resolve_left hnot) (G.mem hb hp) h ha
      · cases h

theorem carried (G : f.Net) (hf : f.Placed v) (h : Respects f region out s) (hb : p ∈ f.blocks)
    (hp : f.Decides v p ∨ region p) (hc : Carries f v s p w) :
    Marked region w ∧ f.worth out w = out p := by
  have marked : f.explicit? p v = none → region p := fun he => hp.resolve_left (not_decides.mpr he)
  cases hc with
  | @explicit t he =>
    refine ⟨trivial, ?_⟩
    rw [worth, hf (timelineId?_of_explicit? he), M.opaque_out (by rw [Decides, he]; rfl)]
  | known he hw =>
    rcases rise_known G hb hw with rfl | ⟨t, rfl, -⟩
    · exact ⟨trivial, (M.out_undefined G (marked he) hb hw).symm⟩
    · exact ⟨trivial, (M.out_timeline hf (marked he) hw).symm⟩
  | pending he hj _ => exact M.out_opens (marked he) hj
  | top he hj ht =>
    obtain ⟨hk, ho⟩ := M.out_opens (marked he) hj
    obtain ⟨hm, hw⟩ := h hk (Or.inl ht)
    exact ⟨hm, hw.trans ho⟩

/-- What comes to a join along one of its paths is marked as what leaves the predecessor. -/
theorem carried_rep (G : f.Net) (hf : f.Placed v) (h : Respects f region out s)
    (hs : Searching f v active s) (hj : region j) (hb : j ∈ f.blocks) (hp : p ∈ f.preds j)
    (hc : Carries f v s p w) : Marked region (s.rep w) ∧ f.worth out (s.rep w) = out p := by
  obtain ⟨hm, hw⟩ := M.carried G hf h (G.mem hb hp) (M.closed hj hp) hc
  obtain ⟨hm', hw'⟩ := h.rep hs.total hm
  exact ⟨hm', hw'.trans hw⟩

/-- A join to which one value comes besides its own is marked as that value. -/
theorem out_of_other (G : f.Net) (hf : f.Placed v) (h : Respects f region out s)
    (hs : Searching f v active s) (hj : region j) (hb : j ∈ f.blocks)
    (hv : List.Forall₂ (Carries f v s) (f.preds j) values) (hr : s.others j values = [r]) :
    Marked region r ∧ f.worth out r = out j := by
  obtain ⟨⟨w, hw, hrep⟩, -⟩ := Stack.mem_others (s := s) (hr ▸ List.mem_singleton_self r)
  obtain ⟨p, hp, hc⟩ := forall₂_right hv hw
  obtain ⟨hm, hout⟩ := M.carried_rep G hf h hs hj hb hp hc
  rw [hrep] at hm hout
  refine ⟨hm, ?_⟩
  by_cases ho : out j = some j
  · -- Two different marks would have to come to the join.
    exfalso
    obtain ⟨a, ha, b, hbm, hne, haj, hbj⟩ := M.differ hj ho
    have brings : ∀ {q}, q ∈ f.preds j → out q ≠ some j → out q = f.worth out r := by
      intro q hq hqj
      obtain ⟨u, hu, hcu⟩ := forall₂_left hv hq
      have hou := (M.carried_rep G hf h hs hj hb hq hcu).2
      rcases Stack.mem_others_of_mem (s := s) hu with hself | hmem
      · rw [worth_of_isSelf hself] at hou
        exact absurd (hou.symm.trans ho) hqj
      · rw [hr, List.mem_singleton] at hmem
        rw [← hou, hmem]
    exact hne ((brings ha haj).trans (brings hbm hbj).symm)
  · rw [hout, M.pass_out hj ho hp]

end Marks

/-! ## Joins that nothing comes to -/

def Returns (f : Func) (v : VarId) (s : Stack) (j x : NodeId) : Prop :=
  x ∈ f.blocks ∧ f.explicit? x v = none ∧
    ∃ k, f.rise v x = .opens k ∧ Stack.isSelf j (s.rep (.pending k)) = true

theorem returns_of_carries (G : f.Net) (hs : Searching f v active s) (hp : p ∈ f.blocks)
    (hc : Carries f v s p w) (hw : Stack.isSelf j (s.rep w) = true) : Returns f v s j p := by
  cases hc with
  | explicit _ =>
    rw [Stack.rep_timeline hs.total] at hw
    simp [Stack.isSelf] at hw
  | known _ hr =>
    rcases rise_known G hp hr with rfl | ⟨t, rfl, -⟩
    · rw [Stack.rep_undefined hs.total] at hw
      simp [Stack.isSelf] at hw
    · rw [Stack.rep_timeline hs.total] at hw
      simp [Stack.isSelf] at hw
  | pending he hr _ => exact ⟨hp, he, _, hr, hw⟩
  | top he hr ht =>
    refine ⟨hp, he, _, hr, ?_⟩
    rwa [Stack.rep_of_next (r := .pending _) hs.total ht]

/-- If all paths of a join lead back to it, so does everything behind them. -/
theorem Returns.pred (h : Returns f v s j x) (G : f.Net) (hs : Searching f v active s)
    (hv : List.Forall₂ (Carries f v s) (f.preds j) values)
    (hself : ∀ w ∈ values, Stack.isSelf j (s.rep w) = true) (hp : p ∈ f.preds x) :
    Returns f v s j p := by
  obtain ⟨hb, he, k, hr, hk⟩ := h
  have hpb := G.mem hb hp
  rcases rise_cases G v hb hp with ⟨-, t, -, hrise⟩ | ⟨-, hpe, hrise⟩ | hrise <;> rw [hrise] at hr
  · cases hr
  · exact ⟨hpb, hpe, k, hr, hk⟩
  · rw [WalkEnd.opens.injEq] at hr
    subst hr
    by_cases hxj : x = j
    · subst hxj
      obtain ⟨w, hw, hc⟩ := forall₂_left hv hp
      exact returns_of_carries G hs hpb hc (hself w hw)
    · -- A join that stands for another one has been completed, and all its paths stand for it.
      have hne : s.rep (.pending x) ≠ .pending x ∧ s.rep (.pending x) ≠ .join x := by
        refine ⟨fun e => ?_, fun e => ?_⟩ <;>
          · rw [e] at hk
            simp [Stack.isSelf, hxj] at hk
      obtain ⟨r, htop⟩ : ∃ r, s.tops.lookup x = some r := by
        cases htop : s.tops.lookup x with
        | some r => exact ⟨r, rfl⟩
        | none => exact absurd (Stack.rep_of_settled (r := .pending x) hs.total htop) hne.1
      have hagree : x ∉ s.phis ∨ (s.replaced.lookup x).isSome := by
        by_contra hcon
        obtain ⟨hphi, hrep⟩ := not_or.mp hcon
        have hjoin := Stack.rep_of_next (r := .pending x) hs.total (hs.phi (not_not.mp hphi))
        rw [Stack.rep_of_settled hs.total (r := .join x)
          (Option.not_isSome_iff_eq_none.mp hrep)] at hjoin
        exact hne.2 hjoin
      obtain ⟨w, hw, hc⟩ := forall₂_left (hs.values htop) hp
      exact returns_of_carries G hs hpb hc (hs.agree htop hagree w hw ▸ hk)

/-- A join that merges nothing but itself is marked by nothing. -/
theorem Marks.out_of_none (M : Marks f.preds (f.Decides v) region out) (G : f.Net)
    (h : Respects f region out s) (hs : Searching f v active s)
    (hj : region j) (hret : Returns f v s j j)
    (hv : List.Forall₂ (Carries f v s) (f.preds j) values) (ho : s.others j values = []) :
    out j = none := by
  have hself : ∀ w ∈ values, Stack.isSelf j (s.rep w) = true := fun w hw =>
    (Stack.mem_others_of_mem hw).resolve_right (by simp [ho])
  have same : ∀ {x}, region x → Returns f v s j x → out x = out j := by
    rintro x hx ⟨-, -, k, hr, hk⟩
    obtain ⟨hkr, hko⟩ := M.out_opens hx hr
    have := (h.rep (r := .pending k) hs.total hkr).2
    rw [worth_of_isSelf hk] at this
    exact hko.symm.trans this.symm
  have inside : ∀ {x p}, region x → Returns f v s j x → p ∈ f.preds x →
      region p ∧ Returns f v s j p := by
    intro x p hx hr hp
    have hr' := hr.pred G hs hv hself hp
    exact ⟨(M.closed hx hp).resolve_left (not_decides.mpr hr'.2.1), hr'⟩
  have nojoin : ∀ {x}, region x → Returns f v s j x → out x ≠ some x := by
    intro x hx hr hox
    obtain ⟨p, hp, -, -, -, hpx, -⟩ := M.differ hx hox
    obtain ⟨hpr, hpret⟩ := inside hx hr hp
    exact hpx (by rw [same hpr hpret, ← same hx hr, hox])
  cases hoj : out j with
  | none => rfl
  | some y =>
    have harr := M.traced hj hoj fun he => nojoin hj hret (he ▸ hoj)
    have lost : ∀ {x a}, Arrives f.preds (fun z => out z = some z) x a → a = some y →
        region x → Returns f v s j x → False := by
      intro x a ha
      induction ha with
      | start _ => exact fun hy => nomatch hy
      | leaves hp hsrc =>
        intro _ hx hr
        obtain ⟨hpr, hpret⟩ := inside hx hr hp
        exact nojoin hpr hpret hsrc
      | passes hp _ _ ih =>
        intro hy hx hr
        obtain ⟨hpr, hpret⟩ := inside hx hr hp
        exact ih hy hpr hpret
    exact (lost harr rfl hj hret).elim

/-! ## What a search keeps -/

theorem respects_lasts (G : f.Net) (hf : f.Placed v)
    (M : Marks f.preds (f.Decides v) region out) : f.Lasts v (Respects f region out) where
  withRoot h := h
  opened _ _ h := h
  completed {active s j values} hs hv h := by
    have hopens := hs.block (hs.met.mpr (Or.inl List.mem_cons_self))
    intro i r hi hr
    rcases entry_completed hr with ⟨rfl, rfl⟩ | hr
    · rcases s.joinResult_cases i values with ⟨_, ho, hres⟩ | ⟨_, ho⟩ | ⟨_, hres⟩
      · rw [hres]
        refine ⟨trivial, (M.out_of_none G h hs hi ⟨hopens.block,
          not_decides.mp (M.clear hi), i, rise_join G hopens.block hopens.several, ?_⟩ hv ho).symm⟩
        rw [Stack.rep_of_settled hs.total (r := .pending i) (hs.pending List.mem_cons_self)]
        simp [Stack.isSelf]
      · exact M.out_of_other G hf h hs hi hopens.block hv ho
      · rw [hres]
        exact ⟨hi, rfl⟩
    · exact h hi hr
  dropped {s j c} hs hj hn hc h := by
    have hopens := hs.block (hs.phi_mem_joins hj)
    intro i r hi hr
    rcases entry_dropped (s := s) (j := j) (c := c) hr with ⟨rfl, rfl⟩ | hr
    · rcases hc with ⟨ho, rfl⟩ | ho
      · refine ⟨trivial, (M.out_of_none G h hs hi ⟨hopens.block,
          not_decides.mp (M.clear hi), i, rise_join G hopens.block hopens.several, ?_⟩
          (hs.values_of_phi hj) ho).symm⟩
        rw [Stack.rep_of_next (r := .pending i) hs.total (hs.phi hj),
          Stack.rep_of_settled hs.total (r := .join i) hn]
        simp [Stack.isSelf]
      · exact M.out_of_other G hf h hs hi hopens.block (hs.values_of_phi hj) ho
    · exact h hi hr

theorem Func.Lasts.both {I J : Stack → Prop} (h : f.Lasts v I) (h' : f.Lasts v J) :
    f.Lasts v fun s => I s ∧ J s where
  withRoot hs := hs.imp h.withRoot h'.withRoot
  opened hs hx := And.imp (h.opened hs hx) (h'.opened hs hx)
  completed hs hv := And.imp (h.completed hs hv) (h'.completed hs hv)
  dropped hs hj hn hc := And.imp (h.dropped hs hj hn hc) (h'.dropped hs hj hn hc)

theorem Func.Lasts.all {ι : Type} {I : ι → Stack → Prop} (h : ∀ i, f.Lasts v (I i)) :
    f.Lasts v fun s => ∀ i, I i s where
  withRoot hs i := (h i).withRoot (hs i)
  opened hs hx hI i := (h i).opened hs hx (hI i)
  completed hs hv hI i := (h i).completed hs hv (hI i)
  dropped hs hj hn hc hI i := (h i).dropped hs hj hn hc (hI i)

/-! ## What a search finds -/

namespace Solution

variable {leaf : NodeId}

/-- What leaves a block that has been passed is a settled value. -/
theorem out_grounded (G : f.Net) (h : Solution f v leaf s) (hx : s.Visited f v x) :
    ∃ r, s.out f v x = f.source r ∧ Grounded f v s r := by
  obtain ⟨hb, he, hj⟩ := hx
  cases hr : f.rise v x with
  | known w =>
    refine ⟨w, Stack.out_of_known he hr, ?_⟩
    rcases rise_known G hb hr with rfl | ⟨t, rfl, ht⟩
    · exact trivial
    · exact ht
  | opens k =>
    refine ⟨s.rep (.pending k), Stack.out_of_opens he hr, ?_⟩
    refine h.search.grounded ⟨hj k hr, clear_of_opens G hb hr he⟩ fun m hm => ?_
    exact (h.search.phi_of_rep hm).resolve_left fun e => nomatch e

theorem surviving_of_out (G : f.Net) (hf : f.Placed v) (h : Solution f v leaf s)
    (hx : s.Visited f v x) (ho : s.out f v x = some x) : x ∈ s.surviving := by
  obtain ⟨r, hr, hg⟩ := h.out_grounded G hx
  rw [ho] at hr
  cases r with
  | undefined => cases hr
  | pending _ => exact hg.elim
  | timeline t =>
    obtain ⟨b, _, hb⟩ := hg
    rw [source, hf (timelineId?_of_explicit? hb), Option.some.injEq] at hr
    rw [← hr, hx.2.1] at hb
    cases hb
  | join k =>
    rw [source, Option.some.injEq] at hr
    exact hr ▸ hg.1

theorem out_surviving (h : Solution f v leaf s) (G : f.Net) (hf : f.Placed v)
    (hj : j ∈ s.surviving) (hd : ¬ f.Decides v j) : s.out f v j = some j :=
  (h.labelling G hf).join_out ⟨hj, hd⟩

theorem leads_out (G : f.Net) (hf : f.Placed v) (h : Solution f v leaf s) (ht : Tracing f s)
    (hx : s.Visited f v x) {y : NodeId} (ho : s.out f v x = some y) :
    Relation.ReflTransGen (fun a b => b ∈ f.preds a) x y := by
  obtain ⟨hb, he, -⟩ := hx
  cases hr : f.rise v x with
  | known w =>
    rw [Stack.out_of_known he hr] at ho
    exact leads_of_walkUp hf hr y ho
  | opens k =>
    rw [Stack.out_of_opens he hr] at ho
    refine ht.rep h.search.total (r := .pending k) (fun z hz => ?_) y ho
    rw [source, Option.some.injEq] at hz
    exact hz ▸ (rise_opens G hb hr).2.2.path

theorem marks (G : f.Net) (hf : f.Placed v) (h : Solution f v leaf s) (ht : Tracing f s) :
    Marks f.preds (f.Decides v) (s.Visited f v) (s.out f v) := by
  have hclosed : ∀ {x p}, s.Visited f v x → p ∈ f.preds x → f.Decides v p ∨ s.Visited f v p :=
    fun hx hp => h.carries_of_visited G hx hp
  have hopq : ∀ {x}, f.Decides v x → s.out f v x = some x := fun hx => Stack.out_of_explicit hx
  have hpass : ∀ {x p}, s.Visited f v x → s.out f v x ≠ some x → p ∈ f.preds x →
      s.out f v p = s.out f v x := fun hx ho hp =>
    h.pass_out G hf hx (fun hs => ho (h.out_surviving G hf hs (not_decides.mpr hx.2.1))) hp
  refine ⟨fun hx => not_decides.mpr hx.2.1, hclosed, hopq, fun hx hp => ?_, hpass,
    fun hx ho => ?_, fun hx ho hne => ?_⟩
  · rw [Stack.out_of_known hx.2.1 (rise_start G hx.1 hp), source]
  · obtain ⟨p, hp, q, hq, hpq, hown⟩ := h.differ G hf (h.surviving_of_out G hf hx ho)
    exact ⟨p, hp, q, hq, hpq, hown (not_decides.mpr hx.2.1)⟩
  · exact arrives_of_path hclosed hopq hpass (h.leads_out G hf ht hx ho) hx ho hne

/-- A settled value is marked as the block that it comes from. -/
theorem worth_of_grounded (M : Marks f.preds (f.Decides v) region out) (hf : f.Placed v)
    (hr : Grounded f v s r) : f.worth out r = (f.source r).bind out := by
  cases r with
  | undefined => rfl
  | pending _ => exact hr.elim
  | timeline t =>
    obtain ⟨b, _, hb⟩ := hr
    rw [worth, source, hf (timelineId?_of_explicit? hb), Option.bind_some,
      M.opaque_out (by rw [Decides, hb]; rfl)]
  | join k => rfl

theorem finest (G : f.Net) (hf : f.Placed v) (h : Solution f v leaf s) (ht : Tracing f s)
    (hr : ∀ {region out}, Marks f.preds (f.Decides v) region out → Respects f region out s) :
    Finest f v (s.Visited f v) (s.out f v) where
  marks := h.marks G hf ht
  finer {region out} M x hx hm := by
    obtain ⟨hb, he, hj⟩ := hx
    cases hrise : f.rise v x with
    | known w =>
      have hout : out x = f.worth out w := by
        rcases rise_known G hb hrise with rfl | ⟨t, rfl, -⟩
        · exact M.out_undefined G hm hb hrise
        · exact M.out_timeline hf hm hrise
      rw [Stack.out_of_known he hrise, hout]
      refine worth_of_grounded (s := s) M hf ?_
      rcases rise_known G hb hrise with rfl | ⟨t, rfl, hg⟩
      · exact trivial
      · exact hg
    | opens k =>
      obtain ⟨hk, hout⟩ := M.out_opens hm hrise
      have hg : Grounded f v s (s.rep (.pending k)) :=
        h.search.grounded ⟨hj k hrise, clear_of_opens G hb hrise he⟩ fun m hm =>
          (h.search.phi_of_rep hm).resolve_left fun e => nomatch e
      rw [Stack.out_of_opens he hrise, ← worth_of_grounded M hf hg,
        (Respects.rep (r := .pending k) (hr M) h.search.total hk).2]
      exact hout.symm

theorem out_leaf (h : Solution f v leaf s) (he : f.explicit? leaf v = none) :
    s.out f v leaf = f.source s.root := by
  rcases h.root with ⟨hj, -, -⟩ | ⟨-, hr | ⟨j, hr, -, hroot⟩⟩
  · rw [joined?_of_explicit? he] at hj
    cases hj
  · exact Stack.out_of_known he hr
  · rw [Stack.out_of_opens he hr, hroot]

theorem visited_leaf (h : Solution f v leaf s) (hl : leaf ∈ f.blocks)
    (he : f.explicit? leaf v = none) : s.Visited f v leaf := by
  refine ⟨hl, he, fun j hj => ?_⟩
  rcases h.root with ⟨hjoined, -, -⟩ | ⟨-, hr | ⟨k, hr, hm, -⟩⟩
  · rw [joined?_of_explicit? he] at hjoined
    cases hjoined
  · rw [hr] at hj
    cases hj
  · rw [hr, WalkEnd.opens.injEq] at hj
    exact hj ▸ hm

end Solution

namespace Func

theorem solve_finest (G : f.Net) (hf : f.Placed v) {leaf : NodeId} (hl : leaf ∈ f.blocks) :
    ∃ s, f.solve leaf v = .ok s ∧ Solution f v leaf s ∧
      Finest f v (s.Visited f v) (s.out f v) := by
  have hlasts : f.Lasts v fun s => Tracing f s ∧
      ∀ m : { m : (NodeId → Prop) × (NodeId → Option NodeId) //
        Marks f.preds (f.Decides v) m.1 m.2 }, Respects f m.1.1 m.1.2 s :=
    (tracing_lasts G hf).both (.all fun m => respects_lasts G hf m.2)
  have hempty : ∀ {j r}, (Stack.start leaf v).tops.lookup j = some r ∨
      (Stack.start leaf v).replaced.lookup j = some r → False := by
    rintro j r (hr | hr) <;> cases hr
  obtain ⟨s, hs, h, ht, hr⟩ := solve_lasts G hlasts hl
    ⟨fun hr => (hempty hr).elim, fun _ _ _ _ hr => (hempty hr).elim⟩
  exact ⟨s, hs, h, h.finest G hf ht fun M => hr ⟨(_, _), M⟩⟩

def origin (f : Func) (v : VarId) (x : NodeId) : Option NodeId :=
  if (f.explicit? x v).isSome then some x
  else match f.solve x v with
    | .ok s => f.source s.root
    | .error _ => none

theorem origin_of_decides (h : f.Decides v x) : f.origin v x = some x := if_pos h

/-- Every question that passes a block finds the same origin there. -/
theorem origin_eq_out (G : f.Net) (hf : f.Placed v)
    (hfine : Finest f v (s.Visited f v) (s.out f v)) (hx : s.Visited f v x) :
    f.origin v x = s.out f v x := by
  obtain ⟨s', hs', h', hfine'⟩ := solve_finest G hf hx.1
  rw [origin, hx.2.1, hs', hfine.eq hfine' hx (h'.visited_leaf hx.1 hx.2.1), h'.out_leaf hx.2.1]
  rfl

theorem origin_finest (G : f.Net) (hf : f.Placed v) :
    Finest f v (fun x => x ∈ f.blocks ∧ ¬ f.Decides v x) (f.origin v) where
  marks := by
    refine .of_local (fun hx => hx.2) origin_of_decides fun {x} hx => ?_
    obtain ⟨s, -, h, hfine⟩ := solve_finest G hf hx.1
    refine ⟨_, _, hfine.marks, h.visited_leaf hx.1 (not_decides.mp hx.2), fun y hy => ?_⟩
    exact ⟨⟨hy.1, not_decides.mpr hy.2.1⟩, origin_eq_out G hf hfine hy⟩
  finer M x hx hm := by
    obtain ⟨s, -, h, hfine⟩ := solve_finest G hf hx.1
    have hv := h.visited_leaf hx.1 (not_decides.mp hx.2)
    rw [hfine.finer M hv hm, origin_eq_out G hf hfine hv]

/-- Building joins where origins meet leaves every origin as it is. -/
theorem origin_eq {g : Func} (G : f.Net) (G' : g.Net) (hf : f.Placed v) (hg : g.Placed v)
    (hb : g.blocks = f.blocks) (hp : g.preds = f.preds) (hd : ∀ {x}, f.Decides v x → g.Decides v x)
    (hd' : ∀ {x}, g.Decides v x → f.Decides v x ∨ f.origin v x = some x) (hx : x ∈ f.blocks) :
    g.origin v x = f.origin v x := by
  have F := origin_finest G hf
  have F' := origin_finest G' hg
  have hN := F.marks.narrow hd hd'
  have hN' : Marks f.preds (g.Decides v) (fun x => (x ∈ f.blocks ∧ ¬ f.Decides v x) ∧
      ¬ g.Decides v x) (g.origin v) := by
    have hM := F'.marks
    rw [hp] at hM
    have hr : (fun x => (x ∈ f.blocks ∧ ¬ f.Decides v x) ∧ ¬ g.Decides v x) =
        fun x => x ∈ g.blocks ∧ ¬ g.Decides v x := by
      funext y
      rw [hb, eq_iff_iff]
      exact ⟨fun h => ⟨h.1.1, h.2⟩, fun h => ⟨⟨h.1, fun hy => h.2 (hd hy)⟩, h.2⟩⟩
    rw [hr]
    exact hM
  have hfiner : ∀ {y}, y ∈ f.blocks → ¬ g.Decides v y →
      f.origin v y = (g.origin v y).bind (f.origin v) := fun {y} hy hn =>
    F'.finer (hp.symm ▸ hN) ⟨hb ▸ hy, hn⟩ ⟨⟨hy, fun h => hn (hd h)⟩, hn⟩
  have hW := F.marks.widen hN' hd hd' fun hy hn => hfiner hy.1 hn
  by_cases hn : g.Decides v x
  · rw [origin_of_decides hn]
    exact ((hd' hn).elim (fun h => origin_of_decides h) id).symm
  · have hin : (x ∈ f.blocks ∧ ¬ f.Decides v x) ∧ ¬ g.Decides v x :=
      ⟨⟨hx, fun h => hn (hd h)⟩, hn⟩
    exact hN'.eq_of_finer hN (fun h _ => F.finer hW h.1 h.1) (fun h _ => hfiner h.1.1 h.2) hin hin

end Func

end

end DefFlow.Flow
