import DefFlow.Proofs.Verification.Search

/-!
# What is reported

A settled function has nothing wrong with its nodes: all that can be reported are uses that
some path reaches without a definition. If all its joins are needed, a use is reported as
undefined on all paths exactly if no definition reaches it, and as undefined on some only if
a definition and an undefined path reach it.
-/

set_option autoImplicit false

namespace DefFlow.Flow

open Func

section

variable {f : Func} {v : VarId} {b : NodeId}

/-! ## Nodes -/

theorem Func.Forest.attached (h : f.Forest) (hb : b ∈ f.blocks) : f.attached b = true := by
  have hin : b ∈ f.body.ids := Component.mem_ids_of_mem_blocks hb
  rw [Func.attached, h.held, Component.contains, Bool.true_and]
  simpa using hin

theorem not_isEmpty_of_explicit? {t : TimelineId} (h : f.explicit? b v = some t) :
    (f.timelineAt t).isEmpty = false := by
  rw [explicit?, Option.filter_eq_some_iff, Timeline.explicit, Bool.not_eq_true'] at h
  exact h.2

theorem Func.NodesFresh.not_dangling (h : f.NodesFresh) {m : IncomingId}
    (hm : m ∈ f.joinNodes b v) :
    f.dangling (f.preds b) m = false := by
  have ht := h.searchable.tables
  obtain ⟨hpred, htarget⟩ := h.target_cases hm
  rw [dangling, Bool.or_eq_false_iff]
  refine ⟨by simpa using hpred, ?_⟩
  rcases htarget with ⟨hnone, -⟩ | ⟨u, d, hu, hd, hexp, -⟩
  · rw [hnone]
    rfl
  · obtain ⟨x, hx, hxb, -⟩ := ht.placed (timelineId?_of_explicit? hexp)
    have hempty := not_isEmpty_of_explicit? hexp
    rw [timelineAt_of_get? hx] at hempty
    rw [hu, Option.bind_some, hx, Option.any_some, hempty, hxb, h.searchable.forest.attached hd]
    rfl

theorem Func.NodesFresh.verifyIncoming_eq_nil (h : f.NodesFresh)
    (hb : b ∈ f.blocks) {t : TimelineId}
    (hid : f.timelineId? b v = some t) : f.verifyIncoming (f.preds b) t = [] := by
  have ht := h.searchable.tables
  rw [verifyIncoming]
  split
  · rfl
  next hne =>
  rw [← ht.joinNodes_eq hid, List.isEmpty_iff] at hne
  have hdang : (f.timelineAt t).incoming.filter (f.dangling (f.preds b)) = [] := by
    rw [← ht.joinNodes_eq hid, List.filter_eq_nil_iff]
    intro m hm
    rw [h.not_dangling hm]
    exact Bool.false_ne_true
  have hmiss : (f.preds b).filter (fun p => (f.incomingFrom? t p).isNone) = [] := by
    rw [List.filter_eq_nil_iff]
    intro p hp
    obtain ⟨e, he, rfl⟩ := List.mem_map.mp ((h.complete hb hne).mem_iff.mpr hp)
    obtain ⟨n, hn, rfl⟩ := List.mem_map.mp he
    rw [ht.joinNodes_eq hid] at hn
    rw [Bool.not_eq_true, Option.isNone_eq_false_iff, incomingFrom?, List.find?_isSome]
    exact ⟨n, hn, by simp⟩
  rw [hdang, hmiss]
  rfl

/-! ## Uses -/

/-- What is found at the top of a block is decided by the value there and the search behind it. -/
theorem Solution.undefinedAt_eq {s : Stack} (h : f.NodesFresh) (hb : b ∈ f.blocks)
    (hs : Solution f v b s) (hsolve : f.solve b v = .ok s) {found : Bool} {seen : Seen}
    (hrun : f.valueMayBeUndefined s f.searchDepth s.root ⟨[], []⟩ = .ok (found, seen)) :
    f.undefinedAt b v = .ok (if s.root = .undefined then some false
      else if found then some true else none) := by
  have ht := h.searchable.tables
  obtain ⟨G⟩ := h.searchable.graph
  have hcanon := hs.readable.canon f s.root
  rw [hs.rep_root G (Solution.placed ht) hb] at hcanon
  have hstack : f.probeStack b v = .ok s := by
    rw [probeStack, h.searchable.resolvable hb, ok_bind, hsolve]
  rw [undefinedAt, hstack, ok_bind, hcanon, ok_bind]
  cases hroot : s.root with
  | undefined => rfl
  | _ =>
    rw [hroot] at hrun
    dsimp only
    rw [hrun]
    rfl

theorem Func.NodesFresh.undefinedAt_ok (h : f.NodesFresh) (hb : b ∈ f.blocks) (v : VarId) :
    ∃ s r, Solution f v b s ∧ f.undefinedAt b v = .ok r ∧
      (r = some false ↔ s.root = .undefined) ∧
      (r = some true → s.root ≠ .undefined ∧ BringsNone f v s.root) := by
  have ht := h.searchable.tables
  obtain ⟨G⟩ := h.searchable.graph
  obtain ⟨s, hsolve, hs⟩ := solve_ok (v := v) G hb
  have hrep := hs.rep_root G (Solution.placed ht) hb
  obtain ⟨found, seen, hrun, hfound⟩ := h.value_search hs f.searchDepth
    (r := s.root) (by rw [hrep]; exact hs.root_traced G ht hb) ⟨[], []⟩
  rw [hrep] at hfound
  refine ⟨s, _, hs, hs.undefinedAt_eq h hb hsolve hrun, ?_, fun hr => ?_⟩
  · by_cases hroot : s.root = .undefined <;> cases found <;> simp [hroot]
  · by_cases hroot : s.root = .undefined
    · rw [if_pos hroot] at hr
      cases hr
    · rw [if_neg hroot] at hr
      cases found with
      | true => exact ⟨hroot, hfound rfl⟩
      | false => cases hr

def Func.reports (f : Func) (b : NodeId) (v : VarId) : List Violation :=
  match f.undefinedAt b v with
  | .ok (some partly) => (f.waiting b v).map (.undefinedUse partly b v ·)
  | _ => []

theorem Func.NodesFresh.verifyTimeline_eq (h : f.NodesFresh) (hb : b ∈ f.blocks) {t : TimelineId}
    (hid : f.timelineId? b v = some t) : f.verifyTimeline b v t = .ok (f.reports b v) := by
  obtain ⟨-, r, -, hr, -⟩ := h.undefinedAt_ok hb v
  rw [verifyTimeline, h.verifyIncoming_eq_nil hb hid,
      ← h.searchable.tables.waiting_eq hid, reports, hr]
  by_cases hw : f.waiting b v = []
  · rw [hw]
    cases r <;> rfl
  · rw [if_neg (by simpa using hw), ok_bind]
    cases r <;> rfl

/-- The uses in each block are reported, variable by variable, and nothing else. -/
theorem Func.NodesFresh.verify_eq (h : f.NodesFresh) : f.verify = .ok (f.blocks.flatMap fun b =>
    (f.blockAt b).timelines.flatMap fun e => f.reports b e.1) := by
  have inner : ∀ b ∈ f.blocks,
      (f.blockAt b).timelines.mapM (fun e => f.verifyTimeline b e.1 e.2) =
        .ok ((f.blockAt b).timelines.map fun e => f.reports b e.1) := fun b hb =>
    mapM_ok fun e he => h.verifyTimeline_eq hb (lookup_of_mem (h.searchable.tables.keys b) he)
  rw [verify, mapM_ok inner]
  show Except.ok _ = _
  simp only [List.flatMap_def, List.flatten_flatten, List.map_map, Function.comp_def]

theorem mem_reports {x : Violation} : x ∈ f.reports b v ↔ ∃ u partly,
    x = .undefinedUse partly b v u ∧ u ∈ f.waiting b v ∧
      f.undefinedAt b v = .ok (some partly) := by
  rw [reports]
  constructor
  · intro hx
    split at hx
    · next partly hr =>
      obtain ⟨u, hu, rfl⟩ := List.mem_map.mp hx
      exact ⟨u, partly, rfl, hu, hr⟩
    · cases hx
  · rintro ⟨u, partly, rfl, hu, hr⟩
    rw [hr]
    exact List.mem_map_of_mem hu

theorem Func.NodesFresh.mem_verify (h : f.NodesFresh) : ∃ found, f.verify = .ok found ∧
    ∀ x, x ∈ found ↔ ∃ b ∈ f.blocks, ∃ v u partly, x = .undefinedUse partly b v u ∧
      u ∈ f.waiting b v ∧ f.undefinedAt b v = .ok (some partly) := by
  refine ⟨_, h.verify_eq, fun x => ?_⟩
  simp only [List.mem_flatMap, mem_reports]
  constructor
  · rintro ⟨b, hb, e, -, u, partly, rest⟩
    exact ⟨b, hb, e.1, u, partly, rest⟩
  · rintro ⟨b, hb, v, u, partly, hx, hu, hr⟩
    cases hid : f.timelineId? b v with
    | none =>
      rw [waiting_of_none hid] at hu
      cases hu
    | some t => exact ⟨b, hb, (v, t), mem_of_lookup hid, u, partly, hx, hu, hr⟩

/-! ## What the reports mean -/

theorem Func.Needed.exists_some (h : f.Needed v b) :
    ∃ c, Arrives f.preds (f.Defining v) b (some c) := by
  obtain ⟨t, hne, ht⟩ := h _ (fun hx => hx) none
  cases t with
  | none => exact absurd rfl hne
  | some c => exact ⟨c, ht⟩

/-- A value other than none brings a definition, if all joins are needed. -/
theorem Solution.exists_some {s : Stack} (h : f.NodesFresh) (hthrift : f.Thrifty)
    (hb : b ∈ f.blocks)
    (hs : Solution f v b s) (hroot : s.root ≠ .undefined) :
    ∃ c, Arrives f.preds (f.Defining v) b (some c) := by
  have ht := h.searchable.tables
  obtain ⟨G⟩ := h.searchable.graph
  have needed : ∀ {k}, f.joinNodes k v ≠ [] ∨ k ∈ s.surviving → f.Needed v k := by
    rintro k (hk | hk)
    · exact hthrift hk
    · exact hthrift.needed ht (hs.meets G (Solution.placed ht) hk)
  rcases hs.root_cases G (Solution.placed ht) hb with ⟨-, hj⟩ | ⟨-, -, hg, harr⟩
  · refine (needed (hj.imp_left fun hj => ?_)).exists_some
    obtain ⟨t, hjt⟩ := Option.isSome_iff_exists.mp hj
    exact (ht.joinNodes_of_joined? hjt).1
  · obtain ⟨c, hc⟩ : ∃ c, f.source s.root = some c := by
      cases hr : s.root with
      | undefined => exact absurd hr hroot
      | _ => exact ⟨_, rfl⟩
    have harr := (harr _).mpr hc.symm
    by_cases hd : f.Defining v c
    · exact ⟨c, arrives_narrow (fun hx => Or.inl (h.defining_decides hx)) harr
        fun y hy => Option.some.inj hy ▸ hd⟩
    · have hdec : f.Decides v c ∨ c ∈ s.surviving := decides_of_arrives harr
      obtain ⟨d, hcd⟩ := (needed (hdec.imp_left fun hx =>
        (ht.decides_iff.mp hx).resolve_left hd)).exists_some
      exact ⟨d, arrives_through (fun hx => Or.inl (h.defining_decides hx)) harr rfl hd hcd⟩

/-- What the search at the top of a block says about the paths that lead there. -/
theorem Func.NodesFresh.undefinedAt_cases (h : f.NodesFresh) (hthrift : f.Thrifty)
    (hb : b ∈ f.blocks)
    (v : VarId) : ∃ r, f.undefinedAt b v = .ok r ∧
      (r = some false ↔ ∀ a, Arrives f.preds (f.Defining v) b a → a = none) ∧
      (r = some true → Arrives f.preds (f.Defining v) b none ∧
        ∃ c, Arrives f.preds (f.Defining v) b (some c)) := by
  have ht := h.searchable.tables
  obtain ⟨G⟩ := h.searchable.graph
  obtain ⟨s, r, hs, hr, hwhole, hpartly⟩ := h.undefinedAt_ok hb v
  refine ⟨r, hr, ?_, fun htrue => ?_⟩
  · rw [hwhole]
    constructor
    · intro hroot a ha
      rcases hs.root_cases G (Solution.placed ht) hb with ⟨hjoin, -⟩ | ⟨-, -, -, harr⟩
      · rw [hroot] at hjoin
        cases hjoin
      · rw [hroot] at harr
        rcases arrives_wide (fun hx => Or.inl (h.defining_decides hx)) ha with hw | ⟨y, -, hy⟩
        · exact (harr a).mp hw
        · cases (harr _).mp hy
    · intro hall
      by_contra hroot
      obtain ⟨c, hc⟩ := hs.exists_some h hthrift hb hroot
      cases hall _ hc
  · obtain ⟨hroot, hbrings⟩ := hpartly htrue
    refine ⟨?_, hs.exists_some h hthrift hb hroot⟩
    rcases hs.root_cases G (Solution.placed ht) hb with ⟨hjoin, -⟩ | ⟨-, -, hg, harr⟩
    · rw [hjoin] at hbrings
      exact hbrings.1
    · exact arrives_none_of_source (fun hx => Or.inl (h.defining_decides hx)) ((harr _).mpr rfl)
        (hbrings.source h hg)

end

end DefFlow.Flow
