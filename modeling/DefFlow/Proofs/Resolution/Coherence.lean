import DefFlow.Proofs.Resolution.Build

/-!
# Coherent nodes

A node is fresh if it is bound to the only timeline whose value can leave its
predecessor. Building the joins of a resolution makes fresh nodes and keeps the fresh
ones, since a block that sees a single value sees no new join.
-/

set_option autoImplicit false

namespace DefFlow.Flow

open Func

def Func.Fresh (f : Func) (v : VarId) (p : NodeId) (T : Option TimelineId) : Prop :=
  ∀ a, Departs f.preds (f.Decides v) p a → T = a.bind fun b => f.explicit? b v

def Func.FreshTop (f : Func) (v : VarId) (p : NodeId) (T : Option TimelineId) : Prop :=
  ∀ a, Arrives f.preds (f.Decides v) p a → T = a.bind fun b => f.explicit? b v

section

variable {f f' : Func} {v w : VarId} {s : Stack} {leaf : NodeId}

/-- Values that come from deciding blocks are told apart by their timelines. -/
theorem eq_of_bind_explicit (ht : f.Tables) {a c : Option NodeId}
    (ha : ∀ b, a = some b → f.Decides v b) (hc : ∀ b, c = some b → f.Decides v b)
    (h : (a.bind fun b => f.explicit? b v) = c.bind fun b => f.explicit? b v) : a = c := by
  have some_of : ∀ {b}, f.Decides v b → ∃ t, f.explicit? b v = some t :=
    fun hb => Option.isSome_iff_exists.mp hb
  cases a with
  | none =>
    cases c with
    | none => rfl
    | some b =>
      obtain ⟨t, hb⟩ := some_of (hc b rfl)
      rw [Option.bind_some, hb] at h
      cases h
  | some b =>
    obtain ⟨t, hb⟩ := some_of (ha b rfl)
    cases c with
    | none =>
      rw [Option.bind_some, hb] at h
      cases h
    | some d =>
      obtain ⟨u, hd⟩ := some_of (hc d rfl)
      rw [Option.bind_some, Option.bind_some, hb, hd, Option.some.injEq] at h
      have hb' := timelineId?_of_explicit? hb
      exact congrArg some (ht.eq_of_timelineId? (timelineId?_of_explicit? hd) (h ▸ hb')).1

theorem Func.Fresh.unique (ht : f.Tables) {p : NodeId} {T : Option TimelineId}
    (h : f.Fresh v p T) {a c : Option NodeId} (ha : Departs f.preds (f.Decides v) p a)
    (hc : Departs f.preds (f.Decides v) p c) : a = c :=
  eq_of_bind_explicit ht (fun _ hb => decides_of_departs (hb ▸ ha))
    (fun _ hb => decides_of_departs (hb ▸ hc)) ((h a ha).symm.trans (h c hc))

namespace Extended

variable {J : NodeId → Prop}

/-- A block without new nodes decides what it decided before. -/
theorem explicit? (h : Extended v J f f') (ht : f.Tables) (ht' : f'.Tables) {b : NodeId}
    (hb : f'.joinNodes b w = f.joinNodes b w) : f'.explicit? b w = f.explicit? b w :=
  ht.explicit?_congr ht' (fun _ => h.id) (h.locals b w) hb

theorem joinNodes_other (h : Extended v J f f') {b : NodeId} (hb : ¬ (w = v ∧ J b)) :
    f'.joinNodes b w = f.joinNodes b w := by
  obtain ⟨l, hl, _, hJ⟩ := h.joinNodes b w
  have hnil : l = [] := by_contra fun hne => hb (hJ hne)
  rw [hl, hnil, List.append_nil]

theorem explicit?_other (h : Extended v J f f') (ht : f.Tables) (ht' : f'.Tables)
    (hw : w ≠ v) (b : NodeId) : f'.explicit? b w = f.explicit? b w :=
  h.explicit? ht ht' (h.joinNodes_other fun hc => hw hc.1)

theorem explicit?_of_some (h : Extended v J f f') (ht : f.Tables) (ht' : f'.Tables)
    {b : NodeId} {t : TimelineId} (hb : f.explicit? b w = some t) : f'.explicit? b w = some t := by
  refine ht.explicit?_mono ht' (fun _ => h.id) (fun hl => h.locals b w ▸ hl) (fun hn => ?_) hb
  obtain ⟨l, hl, _⟩ := h.joinNodes b w
  rw [hl, List.append_eq_nil_iff] at hn
  exact hn.1

end Extended

theorem timelineId?_of_joinNodes {b : NodeId} (h : f.joinNodes b v ≠ []) :
    ∃ t, f.timelineId? b v = some t := by
  cases hid : f.timelineId? b v with
  | some t => exact ⟨t, rfl⟩
  | none => exact absurd (joinNodes_of_none hid) h

namespace Solution

theorem placed (ht : f.Tables) : f.Placed v := fun hid => ht.block_eq hid

theorem joinNodes_ne_nil {g : Func} (h : Solution f v leaf s) (hb : Built v s s.surviving g f')
    {j : NodeId} (hj : j ∈ s.surviving) : f'.joinNodes j v ≠ [] := by
  rw [ne_eq, ← feeds_eq_nil_iff, hb.feeds j hj, List.map_eq_nil_iff, h.frame_preds hj]
  have h2 := h.several_of_surviving hj
  have hlen := (h.values_of_mem (h.phi_of_surviving hj)).length_eq
  intro hnil
  have := congrArg List.length hnil
  rw [List.length_zip, List.length_nil] at this
  omega

theorem explicit?_surviving (h : Solution f v leaf s) (hb : Built v s s.surviving f f')
    {j : NodeId} (hj : j ∈ s.surviving) :
    f'.explicit? j v = f'.timelineId? j v ∧ (f'.timelineId? j v).isSome := by
  have hne := h.joinNodes_ne_nil hb hj
  obtain ⟨t, hid⟩ := timelineId?_of_joinNodes hne
  rw [hb.tables.explicit?_eq, if_neg fun hc => hne hc.2, hid]
  exact ⟨rfl, rfl⟩

theorem explicit?_not_surviving (hb : Built v s s.surviving f f') (ht : f.Tables) {b : NodeId}
    (hj : b ∉ s.surviving) : f'.explicit? b v = f.explicit? b v :=
  hb.extended.explicit? ht hb.tables (hb.extended.joinNodes_other fun hc => hj hc.2)

/-- The built joins decide what leaves them, and nothing else does that did not. -/
theorem decides_eq (h : Solution f v leaf s) (hb : Built v s s.surviving f f')
    (ht : f.Tables) : f'.Decides v = s.Decided f v := by
  funext b
  rw [eq_iff_iff, Stack.Decided]
  by_cases hj : b ∈ s.surviving
  · obtain ⟨he, hs⟩ := h.explicit?_surviving hb hj
    simp [Decides, he, hs, hj]
  · simp [Decides, explicit?_not_surviving hb ht hj, hj]

theorem aim_eq_bind (h : Solution f v leaf s) (hb : Built v s s.surviving f f')
    (ht : f.Tables) {r : Reach} (hr : Grounded f v s r) :
    f'.aim v r = (f.source r).bind fun b => f'.explicit? b v := by
  cases r with
  | undefined => rfl
  | pending _ => exact hr.elim
  | timeline t =>
    obtain ⟨b, _, he⟩ := hr
    rw [source, ht.block_eq (timelineId?_of_explicit? he), Option.bind_some,
      hb.extended.explicit?_of_some ht hb.tables he]
    rfl
  | join k => exact (h.explicit?_surviving hb hr.1).1.symm

theorem fresh_new (h : Solution f v leaf s) (hb : Built v s s.surviving f f') (G : f.Graph)
    (ht : f.Tables) {j : NodeId} (hj : j ∈ s.surviving) :
    ∀ e ∈ f'.feeds j v, f'.Fresh v e.1 e.2 := by
  intro e he a ha
  rw [hb.feeds j hj, h.frame_preds hj, List.mem_map] at he
  obtain ⟨⟨p, w⟩, hm, rfl⟩ := he
  have hv := h.departs_value G (placed ht) hj
  obtain ⟨hg, hd⟩ := (List.forall₂_iff_zip.mp hv).2 hm
  rw [hb.extended.keeps.preds, h.decides_eq hb ht] at ha
  show f'.aim v (s.rep w) = _
  rw [(hd a).mp ha, h.aim_eq_bind hb ht hg]

theorem fresh_old (h : Solution f v leaf s) (hb : Built v s s.surviving f f') (G : f.Graph)
    (ht : f.Tables) {p : NodeId} {T : Option TimelineId} (hp : p ∈ f.blocks)
    (hfresh : f.Fresh v p T) : f'.Fresh v p T := by
  have L := h.labelling G (placed ht)
  have hw : ∀ {y}, f.Decides v y → f.Decides v y := fun h => h
  have hbind : ∀ {a : Option NodeId}, (∀ b, a = some b → f.Decides v b) →
      (a.bind fun b => f'.explicit? b v) = a.bind fun b => f.explicit? b v := by
    intro a ha
    cases a with
    | none => rfl
    | some b =>
      obtain ⟨t, he⟩ := Option.isSome_iff_exists.mp (ha b rfl)
      rw [Option.bind_some, Option.bind_some, he, hb.extended.explicit?_of_some ht hb.tables he]
  intro a ha
  rw [hb.extended.keeps.preds, h.decides_eq hb ht, decided_eq] at ha
  suffices hd : Departs f.preds (f.Decides v) p a by
    rw [hbind fun b he => decides_of_departs (he ▸ hd)]
    exact hfresh a hd
  by_cases hdec : f.Decides v p
  · rcases ha with ⟨_, rfl⟩ | ⟨hn, _⟩
    · exact Or.inl ⟨hdec, rfl⟩
    · exact absurd (Or.inl hdec) hn
  obtain ⟨c, hc⟩ : ∃ c, Arrives f.preds (f.Decides v) p c := G.exists_arrives hp
  have hall : ∀ t, Arrives f.preds (f.Decides v) p t → t = c :=
    fun t harr => hfresh.unique ht (Or.inr ⟨hdec, harr⟩) (Or.inr ⟨hdec, hc⟩)
  rcases ha with ⟨hjoin, _⟩ | ⟨_, harr⟩
  · obtain ⟨t, hne, harr⟩ := L.meets G.toReducible (hjoin.resolve_left hdec) _ hw c
    exact absurd (hall t harr) hne
  · exact Or.inr ⟨hdec, (L.arrives_of_single G.toReducible hw hall).mp harr⟩

end Solution

end

end DefFlow.Flow
