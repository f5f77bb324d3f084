import DefFlow.Flow.Verify
import DefFlow.Proofs.Edits.Spread
import DefFlow.Proofs.Resolution.Alike

/-!
# Searching for undefined paths

In a settled function the search behind a value always comes to an end, and if it finds an
undefined path there is one: along some path from the entry nothing defines the variable.
-/

set_option autoImplicit false

namespace DefFlow.Flow

open Func

section

variable {f : Func} {v : VarId} {b c : NodeId}

theorem Func.NodesFresh.target_cases (h : f.NodesFresh) {m : IncomingId}
    (hm : m ∈ f.joinNodes c v) :
    (f.incomingAt m).pred ∈ f.preds c ∧
      (((f.incomingAt m).target = none ∧
          Departs f.preds (f.Decides v) (f.incomingAt m).pred none) ∨
        ∃ u d, (f.incomingAt m).target = some u ∧ d ∈ f.blocks ∧ f.explicit? d v = some u ∧
          Departs f.preds (f.Decides v) (f.incomingAt m).pred (some d)) := by
  have he := DefFlow.Flow.mem_feeds hm
  have hd := h.departs_target he
  have hfresh := h.fresh _ he _ hd
  refine ⟨(h.mem_preds he).2, ?_⟩
  cases htarget : (f.incomingAt m).target with
  | none =>
    rw [htarget] at hd
    exact Or.inl ⟨rfl, hd⟩
  | some u =>
    simp only [htarget, Option.map_some, Option.bind_some] at hfresh hd
    exact Or.inr ⟨u, _, rfl, departs_mem h.searchable.forest (h.pred_mem he) hd, hfresh.symm, hd⟩

/-! ## Behind a timeline -/

def Func.nodeMayBeUndefined (f : Func) (n : Nat) (m : IncomingId) (seen : Seen) :
    Except EditError (Bool × Seen) :=
  match (f.incomingAt m).target.filter fun t => (f.timelines.get? t).isSome with
  | none => return (true, seen)
  | some t => f.timelineMayBeUndefined n t seen

namespace Func.Tables

variable {t : TimelineId} {seen : Seen}

theorem search_stops (h : f.Tables) (hid : f.timelineId? c v = some t)
    (hs : f.Defining v c ∨ t ∈ seen.timelines) (n : Nat) :
    f.timelineMayBeUndefined (n + 1) t seen = .ok (false, seen) := by
  have hstop : (!(f.timelineAt t).locals.isEmpty || seen.timelines.contains t) = true := by
    rw [Bool.or_eq_true]
    refine hs.imp (fun hd => ?_) (by simp)
    rw [Defining, h.locals_eq hid] at hd
    simpa using hd
  rw [timelineMayBeUndefined, if_pos hstop]
  rfl

/-- The search behind a timeline that only joins goes on behind each of its nodes. -/
theorem search_goes_on (h : f.Tables) (hexp : f.explicit? c v = some t) (hd : ¬ f.Defining v c)
    (hs : t ∉ seen.timelines) (n : Nat) :
    f.timelineMayBeUndefined (n + 1) t seen =
      (f.joinNodes c v).foldlM (fun (acc : Bool × Seen) m =>
        if acc.1 then return acc else f.nodeMayBeUndefined n m acc.2)
        (false, { seen with timelines := t :: seen.timelines }) := by
  have hid := timelineId?_of_explicit? hexp
  have hjoin : f.joinNodes c v ≠ [] :=
    (h.decides_iff.mp (by rw [Decides, hexp]; rfl)).resolve_left hd
  have hgo : ¬ (!(f.timelineAt t).locals.isEmpty || seen.timelines.contains t) = true := by
    rw [Bool.or_eq_true, not_or]
    refine ⟨?_, by simpa using hs⟩
    rw [Defining, h.locals_eq hid] at hd
    simpa using hd
  rw [timelineMayBeUndefined, if_neg hgo, if_neg (by simpa [h.joinNodes_eq hid] using hjoin),
    h.joinNodes_eq hid]
  rfl

end Func.Tables

theorem Func.Tables.nodeMayBeUndefined_some (h : f.Tables) {m : IncomingId} {d : NodeId}
    {u : TimelineId} (hu : (f.incomingAt m).target = some u) (hid : f.timelineId? d v = some u)
    (n : Nat) (seen : Seen) :
    f.nodeMayBeUndefined n m seen = f.timelineMayBeUndefined n u seen := by
  obtain ⟨x, hx, -, -⟩ := h.placed hid
  have hlive : (some u).filter (fun t => (f.timelines.get? t).isSome) = some u := by simp [hx]
  rw [nodeMayBeUndefined, hu]
  simp only [hlive]

/-- The search behind a timeline succeeds, and what it finds is there. -/
theorem Func.NodesFresh.timeline_search (h : f.NodesFresh) (n : Nat) {t : TimelineId}
    (hc : c ∈ f.blocks) (hexp : f.explicit? c v = some t) (seen : Seen) :
    ∃ found seen', f.timelineMayBeUndefined n t seen = .ok (found, seen') ∧
      (found = true → ¬ f.Defining v c ∧ Arrives f.preds (f.Defining v) c none) := by
  have ht := h.searchable.tables
  induction n generalizing c t seen with
  | zero => exact ⟨false, seen, rfl, fun hf => nomatch hf⟩
  | succ n ih =>
    by_cases hs : f.Defining v c ∨ t ∈ seen.timelines
    · exact ⟨false, seen, ht.search_stops (timelineId?_of_explicit? hexp) hs n,
        fun hf => nomatch hf⟩
    rw [not_or] at hs
    rw [ht.search_goes_on hexp hs.1 hs.2]
    have node : ∀ m ∈ f.joinNodes c v, ∀ seen₁, ∃ found seen',
        f.nodeMayBeUndefined n m seen₁ = .ok (found, seen') ∧
          (found = true → Arrives f.preds (f.Defining v) c none) := by
      intro m hm seen₁
      obtain ⟨hpred, ⟨htarget, hd⟩ | ⟨u, d, htarget, hdb, hexp', hd⟩⟩ := h.target_cases hm
      · refine ⟨true, seen₁, by rw [nodeMayBeUndefined, htarget]; rfl, fun _ => ?_⟩
        exact Departs.arrives hpred
          (departs_none_of_source h.defining_decides hd fun c hc => nomatch hc)
      · obtain ⟨found, seen', hrun, hfound⟩ := ih hdb hexp' seen₁
        refine ⟨found, seen', ?_, fun hf => Departs.arrives hpred ?_⟩
        · rw [ht.nodeMayBeUndefined_some htarget (timelineId?_of_explicit? hexp'), hrun]
        · refine departs_none_of_source h.defining_decides hd fun c hc => ?_
          cases hc
          exact hfound hf
    obtain ⟨found, seen', hrun, hfound⟩ :=
      foldlM_found node { seen with timelines := t :: seen.timelines }
    exact ⟨found, seen', hrun, fun hf => ⟨hs.1, hfound hf⟩⟩

/-! ## Behind a value -/

def Traced (f : Func) (v : VarId) (s : Stack) : Reach → Prop
  | .undefined => True
  | .timeline t => ∃ c ∈ f.blocks, f.explicit? c v = some t
  | .pending _ => False
  | .join k => k ∈ f.blocks ∧ ((f.joined? k v).isSome ∨ k ∈ s.surviving)

def BringsNone (f : Func) (v : VarId) : Reach → Prop
  | .undefined => True
  | .timeline t => ∃ c, f.explicit? c v = some t ∧ ¬ f.Defining v c ∧
      Arrives f.preds (f.Defining v) c none
  | .pending _ => False
  | .join k => Arrives f.preds (f.Defining v) k none ∧
      ((f.joined? k v).isSome → ¬ f.Defining v k)

section

variable {s : Stack}

theorem Grounded.traced (h : Solution f v b s) {r : Reach} (hr : Grounded f v s r) :
    Traced f v s r := by
  cases r with
  | undefined => exact trivial
  | timeline t => exact hr
  | pending _ => exact hr.elim
  | join k => exact ⟨(h.search.block (h.phi_of_surviving hr.1)).block, Or.inr hr.1⟩

theorem Solution.root_traced (G : f.Graph) (ht : f.Tables) (h : Solution f v b s)
    (hb : b ∈ f.blocks) : Traced f v s s.root := by
  rcases h.root_cases G (Solution.placed ht) hb with ⟨hroot, hj⟩ | ⟨-, -, hg, -⟩
  · rw [hroot]
    exact ⟨hb, hj⟩
  · exact hg.traced h

/-- The path behind a settled value leads through the block that the value comes from. -/
theorem BringsNone.source (h : f.NodesFresh) {r : Reach} (hr : BringsNone f v r)
    (hg : Grounded f v s r) : ∀ c, f.source r = some c →
      ¬ f.Defining v c ∧ Arrives f.preds (f.Defining v) c none := by
  intro c hc
  cases r with
  | undefined => cases hc
  | timeline t =>
    obtain ⟨d, hexp, hdef, harr⟩ := hr
    rw [Func.source, h.searchable.tables.block_eq (timelineId?_of_explicit? hexp)] at hc
    cases hc
    exact ⟨hdef, harr⟩
  | pending _ => exact hr.elim
  | join k =>
    cases hc
    refine ⟨fun hk => ?_, hr.1⟩
    have := h.defining_decides hk
    rw [Decides, hg.2] at this
    cases this

/-- The search behind a value succeeds, and what it finds is there. -/
theorem Func.NodesFresh.value_search (h : f.NodesFresh) (hs : Solution f v b s)
    (n : Nat) {r : Reach}
    (hr : Traced f v s (s.rep r)) (seen : Seen) :
    ∃ found seen', f.valueMayBeUndefined s n r seen = .ok (found, seen') ∧
      (found = true → BringsNone f v (s.rep r)) := by
  have ht := h.searchable.tables
  obtain ⟨G⟩ := h.searchable.graph
  induction n generalizing r seen with
  | zero => exact ⟨false, seen, rfl, fun hf => nomatch hf⟩
  | succ n ih =>
    rw [valueMayBeUndefined, hs.readable.canon f r, ok_bind]
    cases hrep : s.rep r with
    | undefined => exact ⟨true, seen, rfl, fun _ => trivial⟩
    | pending k =>
      rw [hrep] at hr
      exact hr.elim
    | timeline t =>
      rw [hrep] at hr
      obtain ⟨c, hc, hexp⟩ := hr
      obtain ⟨found, seen', hrun, hfound⟩ := h.timeline_search n hc hexp seen
      exact ⟨found, seen', hrun, fun hf => ⟨c, hexp, hfound hf⟩⟩
    | join k =>
      rw [hrep] at hr
      obtain ⟨hk, hjoin⟩ := hr
      dsimp only
      rw [hs.var_eq]
      cases hj : f.joined? k v with
      | some t =>
        obtain ⟨found, seen', hrun, hfound⟩ :=
          h.timeline_search n hk (ht.explicit?_of_joined hj) seen
        exact ⟨found, seen', hrun, fun hf => ⟨(hfound hf).2, fun _ => (hfound hf).1⟩⟩
      | none =>
        rw [hj] at hjoin
        have hin : k ∈ s.surviving := hjoin.resolve_left (by simp)
        dsimp only
        by_cases hseen : seen.joins.contains k = true
        · exact ⟨false, seen, by rw [if_pos hseen]; rfl, fun hf => nomatch hf⟩
        rw [if_neg hseen, if_neg (by simpa using hin)]
        have value : ∀ w ∈ (s.frame k).values, ∀ seen₁, ∃ found seen',
            f.valueMayBeUndefined s n w seen₁ = .ok (found, seen') ∧
              (found = true → Arrives f.preds (f.Defining v) k none) := by
          intro w hw seen₁
          obtain ⟨p, hp, hg, hd⟩ := forall₂_right (hs.departs_value G (Solution.placed ht) hin) hw
          obtain ⟨found, seen', hrun, hfound⟩ := ih (hg.traced hs) seen₁
          refine ⟨found, seen', hrun, fun hf => Departs.arrives hp ?_⟩
          exact departs_none_of_source (fun hx => Or.inl (h.defining_decides hx))
            ((hd _).mpr rfl) ((hfound hf).source h hg)
        obtain ⟨found, seen', hrun, hfound⟩ := foldlM_found value _
        exact ⟨found, seen', hrun, fun hf => ⟨hfound hf, fun hj' => by rw [hj] at hj'; cases hj'⟩⟩

end

end

end DefFlow.Flow
