import DefFlow.Proofs.Reaching.Paths
import DefFlow.Proofs.Resolution.Refine

/-!
# Expanding joins

The join of a timeline stands for what its nodes bring. Expanding the joins of a
settled function gives back the definitions that arrive along the paths.
-/

set_option autoImplicit false

namespace DefFlow.Flow

open Func

/-- The definitions that an answer stands for once its joins are expanded; none stands
for an undefined value. -/
inductive Expands (f : Func) : Reaching → Option InstId → Prop
  | undefined : Expands f .undefined none
  | defined (i : InstId) : Expands f (.defined i) (some i)
  | unbound {t : TimelineId} {n : IncomingId} (hn : n ∈ (f.timelineAt t).incoming)
      (ht : (f.incomingAt n).target = none) : Expands f (.join t) none
  | bound {t u : TimelineId} {n : IncomingId} {d : Option InstId}
      (hn : n ∈ (f.timelineAt t).incoming) (ht : (f.incomingAt n).target = some u)
      (h : Expands f (Edit.leaving f u) d) : Expands f (.join t) d

def ExpandsTarget (f : Func) (d : Option InstId) : Option TimelineId → Prop
  | none => d = none
  | some u => Expands f (Edit.leaving f u) d

section

variable {f : Func} {v : VarId} {b c : NodeId}

theorem Func.Tables.leaving_of_defining (h : f.Tables) {t : TimelineId}
    (ht : f.timelineId? b v = some t)
    (hd : f.Defining v b) :
    ∃ i, f.lastDef v b = some i ∧ Edit.leaving f t = .defined i := by
  rw [Defining, h.locals_eq ht] at hd
  rw [lastDef, h.locals_eq ht, Edit.leaving, List.getLast?_map]
  cases hl : (f.timelineAt t).locals.getLast? with
  | none =>
    rw [List.getLast?_eq_none_iff] at hl
    rw [hl] at hd
    exact absurd rfl hd
  | some l => exact ⟨l.inst, rfl, rfl⟩

theorem Func.Tables.leaving_of_not_defining (h : f.Tables) {t : TimelineId}
    (ht : f.timelineId? b v = some t) (hd : ¬ f.Defining v b) : Edit.leaving f t = .join t := by
  rw [Defining, not_not, h.locals_eq ht, List.map_eq_nil_iff] at hd
  rw [Edit.leaving, hd]
  rfl

/-- Adding joins changes neither the edges nor the definitions. -/
theorem Refines.defining {f' : Func} (h : Refines f f') : f'.Defining v = f.Defining v := by
  funext c
  rw [Defining, Defining, h.locals]

theorem Refines.lastDef {f' : Func} (h : Refines f f') : f'.lastDef v = f.lastDef v := by
  funext c
  rw [Func.lastDef, Func.lastDef, h.locals]

namespace Func.NodesFresh

theorem defining_decides (h : f.NodesFresh) : ∀ {x}, f.Defining v x → f.Decides v x :=
  fun hd => h.searchable.tables.decides_iff.mpr (Or.inl hd)

theorem mem_feeds (h : f.NodesFresh) (hb : b ∈ f.blocks) {t : TimelineId}
    (ht : f.joined? b v = some t) {p : NodeId} (hp : p ∈ f.preds b) :
    ∃ n ∈ (f.timelineAt t).incoming, (f.incomingAt n).pred = p ∧
      f.Fresh v p (f.incomingAt n).target := by
  have htab := h.searchable.tables
  rw [htab.joined?_eq] at ht
  split at ht
  · cases ht
  next hne =>
    have hm := (h.complete hb hne).mem_iff.mpr hp
    rw [List.mem_map] at hm
    obtain ⟨e, he, rfl⟩ := hm
    have hfresh := h.fresh e he
    rw [feeds, List.mem_map] at he
    obtain ⟨n, hn, rfl⟩ := he
    rw [htab.joinNodes_eq ht] at hn
    exact ⟨n, hn, rfl, hfresh⟩

theorem joined?_of_not_defining (h : f.NodesFresh) {u : TimelineId} (hp : f.Decides v b)
    (hd : ¬ f.Defining v b) (hu : f.timelineId? b v = some u) : f.joined? b v = some u := by
  have hj := (h.searchable.tables.decides_iff.mp hp).resolve_left hd
  rw [h.searchable.tables.joined?_eq, if_neg hj, hu]

/-- A node for a block with definitions brings the last of them. -/
theorem target_of_defining (h : f.NodesFresh) {T : Option TimelineId} (hT : T = f.explicit? b v)
    (hd : f.Defining v b) : ExpandsTarget f (f.lastDef v b) T := by
  obtain ⟨u, hu⟩ := Option.isSome_iff_exists.mp (h.defining_decides hd)
  obtain ⟨i, hi, hl⟩ := h.searchable.tables.leaving_of_defining (timelineId?_of_explicit? hu) hd
  rw [hT, hu, ExpandsTarget, hl, hi]
  exact .defined i

/-- A node for a block that only joins brings what the join does. -/
theorem target_of_joining (h : f.NodesFresh) {T : Option TimelineId} (hT : T = f.explicit? b v)
    (hp : f.Decides v b) (hd : ¬ f.Defining v b) {d : Option InstId}
    (hj : ∀ t, f.joined? b v = some t → Expands f (.join t) d) : ExpandsTarget f d T := by
  obtain ⟨u, hu⟩ := Option.isSome_iff_exists.mp hp
  have hid := timelineId?_of_explicit? hu
  rw [hT, hu, ExpandsTarget, h.searchable.tables.leaving_of_not_defining hid hd]
  exact hj u (h.joined?_of_not_defining hp hd hid)

/-- A join brings what the fresh targets for one of its predecessors bring. -/
theorem expands_of_pred (h : f.NodesFresh) (hb : b ∈ f.blocks) {t : TimelineId}
    (ht : f.joined? b v = some t) {p : NodeId} (hp : p ∈ f.preds b) {d : Option InstId}
    (hd : ∀ T, f.Fresh v p T → ExpandsTarget f d T) : Expands f (.join t) d := by
  obtain ⟨n, hn, _, hfresh⟩ := h.mem_feeds hb ht hp
  have hexp := hd _ hfresh
  cases hT : (f.incomingAt n).target with
  | none =>
    rw [hT] at hexp
    rw [show d = none from hexp]
    exact .unbound hn hT
  | some u =>
    rw [hT] at hexp
    exact .bound hn hT hexp

/-- Everything that arrives along the paths is found by expanding. -/
theorem expands_of_arrives (h : f.NodesFresh) (hb : b ∈ f.blocks) {a : Option NodeId}
    (ha : Arrives f.preds (f.Defining v) b a) :
    (∀ t, f.joined? b v = some t → Expands f (.join t) (a.bind (f.lastDef v))) ∧
    (¬ f.Decides v b → ∀ T, f.FreshTop v b T → ExpandsTarget f (a.bind (f.lastDef v)) T) := by
  have htab := h.searchable.tables
  induction ha with
  | @start x hp =>
    refine ⟨fun t ht => ?_, fun _ T hT => ?_⟩
    · have hne : f.joinNodes x v ≠ [] := by
        intro hnil
        rw [htab.joined?_eq, if_pos hnil] at ht
        cases ht
      have := h.complete hb hne
      rw [hp, List.perm_nil, List.map_eq_nil_iff, feeds_eq_nil_iff] at this
      exact absurd this hne
    · rw [hT none (.start hp)]
      rfl
  | @leaves x p hp hd =>
    have hdec := h.defining_decides hd
    refine ⟨fun t ht => h.expands_of_pred hb ht hp fun T hT => ?_, fun _ T hT => ?_⟩
    · exact h.target_of_defining (hT (some p) (Or.inl ⟨hdec, rfl⟩)) hd
    · exact h.target_of_defining (hT (some p) (.leaves hp hdec)) hd
  | @passes x p a hp hnot harr ih =>
    obtain ⟨hjoin, htop⟩ := ih (h.searchable.forest.pred_mem hb hp)
    by_cases hdec : f.Decides v p
    · refine ⟨fun t ht => h.expands_of_pred hb ht hp fun T hT => ?_, fun _ T hT => ?_⟩
      · exact h.target_of_joining (hT (some p) (Or.inl ⟨hdec, rfl⟩)) hdec hnot hjoin
      · exact h.target_of_joining (hT (some p) (.leaves hp hdec)) hdec hnot hjoin
    · refine ⟨fun t ht => h.expands_of_pred hb ht hp fun T hT => ?_, fun _ T hT => ?_⟩
      · exact htop hdec T fun c hc => hT c (Or.inr ⟨hdec, hc⟩)
      · exact htop hdec T fun c hc => hT c (.passes hp hdec hc)

/-- Expanding a join finds nothing but what arrives along the paths. -/
theorem arrives_of_expands (h : f.NodesFresh) {r : Reaching} {d : Option InstId}
    (hexp : Expands f r d) {t : TimelineId} (hr : r = .join t) (hb : b ∈ f.blocks)
    (ht : f.joined? b v = some t) :
    ∃ a, Arrives f.preds (f.Defining v) b a ∧ d = a.bind (f.lastDef v) := by
  have htab := h.searchable.tables
  -- The node stands for what leaves its predecessor.
  have node : ∀ {b t n}, b ∈ f.blocks → f.joined? b v = some t →
      n ∈ (f.timelineAt t).incoming → ∃ a, Arrives f.preds (f.Decides v) b a ∧
        (f.incomingAt n).target = a.bind fun c => f.explicit? c v := by
    intro b t n hb ht hn
    rw [htab.joined?_eq] at ht
    split at ht
    · cases ht
    next hne =>
      rw [← htab.joinNodes_eq ht] at hn
      have hm : ((f.incomingAt n).pred, (f.incomingAt n).target) ∈ f.feeds b v :=
        List.mem_map.mpr ⟨n, hn, rfl⟩
      have hp := (h.complete hb hne).mem_iff.mp (List.mem_map_of_mem hm)
      obtain ⟨G⟩ := h.searchable.graph
      obtain ⟨a, ha⟩ : ∃ a, Departs f.preds (f.Decides v) (f.incomingAt n).pred a :=
        G.exists_departs (G.mem hb hp)
      exact ⟨a, ha.arrives hp, h.fresh _ hm a ha⟩
  have bind_some : ∀ {x y}, Arrives f.preds (f.Decides v) x (some y) →
      ∃ u, f.explicit? y v = some u := fun ha => Option.isSome_iff_exists.mp (decides_of_arrives ha)
  induction hexp generalizing b t with
  | undefined => cases hr
  | defined i => cases hr
  | @unbound t' n hn hT =>
    cases hr
    obtain ⟨a, ha, he⟩ := node hb ht hn
    cases a with
    | none => exact ⟨none, arrives_narrow h.defining_decides ha (by simp), rfl⟩
    | some y =>
      obtain ⟨u, hu⟩ := bind_some ha
      rw [hT, Option.bind_some, hu] at he
      cases he
  | @bound t' u n d hn hT hexp ih =>
    cases hr
    obtain ⟨a, ha, he⟩ := node hb ht hn
    cases a with
    | none =>
      rw [hT] at he
      cases he
    | some y =>
      rw [hT, Option.bind_some] at he
      have hid := timelineId?_of_explicit? he.symm
      by_cases hd : f.Defining v y
      · obtain ⟨i, hi, hl⟩ := htab.leaving_of_defining hid hd
        rw [hl] at hexp
        cases hexp
        exact ⟨some y, arrives_narrow h.defining_decides ha (by rintro z ⟨⟩; exact hd), hi.symm⟩
      · have hj := h.joined?_of_not_defining (decides_of_arrives ha) hd hid
        obtain ⟨c, hc, hdc⟩ := ih (htab.leaving_of_not_defining hid hd)
          (arrives_mem h.searchable.forest hb ha y rfl).1 hj
        exact ⟨c, arrives_through h.defining_decides ha rfl hd hc, hdc⟩

theorem expands_join_iff (h : f.NodesFresh) (hb : b ∈ f.blocks) {t : TimelineId}
    (ht : f.joined? b v = some t) (d : Option InstId) :
    Expands f (.join t) d ↔
      ∃ a, Arrives f.preds (f.Defining v) b a ∧ d = a.bind (f.lastDef v) := by
  constructor
  · exact fun hexp => h.arrives_of_expands hexp rfl hb ht
  · rintro ⟨a, ha, rfl⟩
    exact (h.expands_of_arrives hb ha).1 t ht

/-- A node expands to what leaves the block that it stands for. -/
theorem expandsTarget_iff (h : f.NodesFresh) (hb : b ∈ f.blocks) {T : Option TimelineId}
    (hT : f.Fresh v b T) (d : Option InstId) : ExpandsTarget f d T ↔
      ∃ a, Departs f.preds (f.Defining v) b a ∧ d = a.bind (f.lastDef v) := by
  have htab := h.searchable.tables
  constructor
  · intro hexp
    obtain ⟨G⟩ := h.searchable.graph
    obtain ⟨a, ha⟩ : ∃ a, Departs f.preds (f.Decides v) b a := G.exists_departs hb
    rw [hT a ha] at hexp
    cases a with
    | none => exact ⟨none, departs_narrow h.defining_decides ha (by simp), hexp⟩
    | some y =>
      have hdec := decides_of_departs ha
      obtain ⟨u, hu⟩ := Option.isSome_iff_exists.mp hdec
      have hid := timelineId?_of_explicit? hu
      rw [Option.bind_some, hu, ExpandsTarget] at hexp
      by_cases hd : f.Defining v y
      · obtain ⟨i, hi, hl⟩ := htab.leaving_of_defining hid hd
        rw [hl] at hexp
        cases hexp
        exact ⟨some y, departs_narrow h.defining_decides ha (by rintro z ⟨⟩; exact hd), hi.symm⟩
      · rw [htab.leaving_of_not_defining hid hd] at hexp
        obtain ⟨c, hc, hdc⟩ := h.arrives_of_expands hexp rfl (departs_mem h.searchable.forest hb ha)
          (h.joined?_of_not_defining hdec hd hid)
        exact ⟨c, departs_through h.defining_decides ha hd hc, hdc⟩
  · rintro ⟨a, ⟨hd, rfl⟩ | ⟨hd, ha⟩, rfl⟩
    · exact h.target_of_defining (hT _ (Or.inl ⟨h.defining_decides hd, rfl⟩)) hd
    · obtain ⟨hjoin, htop⟩ := h.expands_of_arrives hb ha
      by_cases hdec : f.Decides v b
      · exact h.target_of_joining (hT _ (Or.inl ⟨hdec, rfl⟩)) hdec hd hjoin
      · exact htop hdec T fun c hc => hT c (Or.inr ⟨hdec, hc⟩)

/-! ## Expanding an answer -/

/-- If only `a` is seen with all joins in place, what arrives is what leaves it. -/
theorem arrives_of_only (h : f.NodesFresh) {a d : Option NodeId}
    (ho : ∀ c, Arrives f.preds (f.Decides v) b c → c = a)
    (hd : Arrives f.preds (f.Defining v) b d) :
    (a = none → d = none) ∧ (∀ c, a = some c → (f.Defining v c → d = some c) ∧
      (¬ f.Defining v c → Arrives f.preds (f.Defining v) c d)) := by
  induction hd with
  | @start x hp =>
    refine ⟨fun _ => rfl, fun c hc => ?_⟩
    rw [hc] at ho
    cases ho none (.start hp)
  | @leaves x p hp hdef =>
    have hpa := ho (some p) (.leaves hp (h.defining_decides hdef))
    refine ⟨fun hn => ?_, fun c hc => ?_⟩
    · rw [hn] at hpa
      cases hpa
    · rw [hc, Option.some.injEq] at hpa
      exact ⟨fun _ => by rw [hpa], fun hn => absurd (hpa ▸ hdef) hn⟩
  | @passes x p d hp hnot harr ih =>
    by_cases hdec : f.Decides v p
    · have hpa := ho (some p) (.leaves hp hdec)
      refine ⟨fun hn => ?_, fun c hc => ?_⟩
      · rw [hn] at hpa
        cases hpa
      · rw [hc, Option.some.injEq] at hpa
        exact ⟨fun hd => absurd (hpa ▸ hd) hnot, fun _ => hpa ▸ harr⟩
    · exact ih fun c hc => ho c (.passes hp hdec hc)

/-- The top of `b` sees what the top of the join `c` sees. -/
theorem arrives_iff_of_join (h : f.NodesFresh) (ho : f.Only v b (some c)) (hc : ¬ f.Defining v c)
    (a : Option NodeId) :
    Arrives f.preds (f.Defining v) b a ↔ Arrives f.preds (f.Defining v) c a := by
  constructor
  · exact fun ha => ((h.arrives_of_only (fun d hd => (ho d).mp hd) ha).2 c rfl).2 hc
  · exact fun ha => arrives_through h.defining_decides ((ho (some c)).mpr rfl) rfl hc ha

/-- An answer expands to the definitions that arrive along the paths. -/
theorem expands_answer_iff (h : f.NodesFresh) (hb : b ∈ f.blocks) {r : Resolution}
    (hr : f.Shows v b r) (d : Option InstId) :
    Expands f (Edit.reachingOf f r) d ↔
      ∃ a, Arrives f.preds (f.Defining v) b a ∧ d = a.bind (f.lastDef v) := by
  have htab := h.searchable.tables
  obtain ⟨G⟩ := h.searchable.graph
  have behind : ∀ {c t}, f.Only v b (some c) → ¬ f.Defining v c → f.joined? c v = some t →
      (Expands f (.join t) d ↔
        ∃ a, Arrives f.preds (f.Defining v) b a ∧ d = a.bind (f.lastDef v)) := by
    intro c t ho hc ht
    rw [h.expands_join_iff (arrives_mem h.searchable.forest hb ((ho (some c)).mpr rfl) c rfl).1 ht]
    simp only [h.arrives_iff_of_join ho hc]
  cases r with
  | undefined =>
    obtain ⟨_, ho⟩ := hr
    have hall := fun {a} ha => (h.arrives_of_only (d := a) (fun d hd => (ho d).mp hd) ha).1 rfl
    obtain ⟨a, ha⟩ : ∃ a, Arrives f.preds (f.Defining v) b a := G.exists_arrives hb
    constructor
    · intro hexp
      cases hexp
      exact ⟨a, ha, by rw [hall ha]; rfl⟩
    · rintro ⟨a, ha, rfl⟩
      rw [hall ha]
      exact .undefined
  | timeline t =>
    obtain ⟨_, c, hc, ho⟩ := hr
    have hid := timelineId?_of_explicit? hc
    have hdec : f.Decides v c := by rw [Decides, hc]; rfl
    by_cases hd : f.Defining v c
    · obtain ⟨i, hi, hl⟩ := htab.leaving_of_defining hid hd
      rw [Edit.reachingOf, hl]
      have hall := fun {a} ha =>
        ((h.arrives_of_only (d := a) (fun d hd => (ho d).mp hd) ha).2 c rfl).1 hd
      constructor
      · intro hexp
        cases hexp
        exact ⟨some c, arrives_narrow h.defining_decides ((ho (some c)).mpr rfl)
          (by rintro y ⟨⟩; exact hd), hi.symm⟩
      · rintro ⟨a, ha, rfl⟩
        rw [hall ha, Option.bind_some, hi]
        exact .defined i
    · rw [Edit.reachingOf, htab.leaving_of_not_defining hid hd]
      exact behind ho hd (h.joined?_of_not_defining hdec hd hid)
  | top t =>
    rcases hr with hj | ⟨_, c, hc, hl, ho⟩
    · exact h.expands_join_iff hb hj d
    · exact behind ho (by rw [Defining, hl]; simp) hc
  | join _ => exact hr.elim

end Func.NodesFresh

end

end DefFlow.Flow
