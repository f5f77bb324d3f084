import DefFlow.Proofs.Verification.Report

/-!
# The search for undefined paths misses one case

Behind what it looks at the search finds an undefined path whenever there is one, whether the
joins on the way have been built or not. It does not look behind a join that has been built if its
block defines the variable as well, so of what arrives at the top of a block it overlooks exactly
what comes into such a join of its own.
-/

set_option autoImplicit false

namespace DefFlow.Flow

open Func

/-! ## Closed sets of blocks -/

def Covered (preds : NodeId → List NodeId) (narrow wide S : NodeId → Prop) (x : NodeId) : Prop :=
  ∀ a, Arrives preds wide x a → ∃ d, a = some d ∧ (S d ∨ narrow d ∨ ¬ Arrives preds narrow d none)

/-- No undefined path leads out of blocks that cover each other. -/
theorem Covered.not_none {preds : NodeId → List NodeId} {narrow wide S : NodeId → Prop} {x : NodeId}
    (hS : ∀ d, S d → Covered preds narrow wide S d) (h : Covered preds narrow wide S x) :
    ¬ Arrives preds narrow x none := by
  intro ha
  generalize hnone : (none : Option NodeId) = a at ha
  induction ha with
  | start hp =>
    obtain ⟨d, hd, -⟩ := h none (.start hp)
    cases hd
  | leaves _ _ => cases hnone
  | @passes x p a hp hnot hs ih =>
    subst hnone
    refine ih ?_ rfl
    by_cases hw : wide p
    · obtain ⟨d, hd, hcase⟩ := h _ (.leaves hp hw)
      cases hd
      rcases hcase with hd | hd | hd
      · exact hS p hd
      · exact absurd hd hnot
      · exact absurd hs hd
    · exact fun a ha => h a (.passes hp hw ha)

section

variable {f : Func} {v : VarId} {b c : NodeId} {s : Stack}

/-! ## Behind a timeline -/

def Func.Clear (f : Func) (v : VarId) (T : List TimelineId) (m : IncomingId) : Prop :=
  ∃ u, (f.incomingAt m).target = some u ∧
    (u ∈ T ∨ ∃ d, f.explicit? d v = some u ∧ f.Defining v d)

def Func.Combed (f : Func) (v : VarId) (T : List TimelineId) (t : TimelineId) : Prop :=
  ∀ c m, f.explicit? c v = some t → m ∈ f.joinNodes c v → f.Clear v T m

theorem Func.Clear.mono {T T' : List TimelineId} {m : IncomingId} (h : f.Clear v T m)
    (hT : ∀ u ∈ T, u ∈ T') : f.Clear v T' m := by
  obtain ⟨u, hu, hin⟩ := h
  exact ⟨u, hu, hin.imp_left (hT u)⟩

/-- No undefined path leads to a timeline that has been combed with all others that it needs. -/
theorem Func.NodesFresh.not_none_of_combed (h : f.NodesFresh) {T : List TimelineId} {t : TimelineId}
    (hT : ∀ t ∈ T, f.Combed v T t) (hc : c ∈ f.blocks) (hexp : f.explicit? c v = some t)
    (ht : t ∈ T) (hd : ¬ f.Defining v c) : ¬ Arrives f.preds (f.Defining v) c none := by
  have htab := h.searchable.tables
  suffices hcov : ∀ d, (d ∈ f.blocks ∧ ¬ f.Defining v d ∧ ∃ u ∈ T, f.explicit? d v = some u) →
      Covered f.preds (f.Defining v) (f.Decides v)
        (fun d => d ∈ f.blocks ∧ ¬ f.Defining v d ∧ ∃ u ∈ T, f.explicit? d v = some u) d from
    (hcov c ⟨hc, hd, t, ht, hexp⟩).not_none hcov
  rintro d ⟨hdb, hdef, u, hu, hexp⟩ a ha
  have hj : f.joinNodes d v ≠ [] :=
    (htab.decides_iff.mp (by rw [Decides, hexp]; rfl)).resolve_left hdef
  have hcomplete := h.complete hdb hj
  rcases arrives_iff.mp ha with ⟨hnone, -⟩ | ⟨p, hp, hdep⟩
  · rw [hnone, List.perm_nil, List.map_eq_nil_iff] at hcomplete
    exact absurd (List.map_eq_nil_iff.mp hcomplete) hj
  · obtain ⟨e, he, rfl⟩ := List.mem_map.mp (hcomplete.mem_iff.mpr hp)
    have hfresh := h.fresh e he a hdep
    obtain ⟨m, hm, rfl⟩ := List.mem_map.mp he
    obtain ⟨w, hw, hin⟩ := hT u hu d m hexp hm
    rw [hw] at hfresh
    cases a with
    | none => cases hfresh
    | some y =>
      have hexp' : f.explicit? y v = some w := hfresh.symm
      refine ⟨y, rfl, ?_⟩
      by_cases hy : f.Defining v y
      · exact Or.inr (Or.inl hy)
      · refine Or.inl ⟨departs_mem h.searchable.forest (h.pred_mem he) hdep, hy, w,
            hin.resolve_right ?_,
          hexp'⟩
        rintro ⟨z, hz, hdz⟩
        have hexp'' := timelineId?_of_explicit? hexp'
        have hsame := (htab.eq_of_timelineId? (timelineId?_of_explicit? hz) hexp'').1
        exact hy (hsame ▸ hdz)

structure Func.Sighted (f : Func) (S : List TimelineId) : Prop where
  nodup : S.Nodup
  live : ∀ t ∈ S, (f.timelines.get? t).isSome

theorem Func.Sighted.length_le {S : List TimelineId} (h : f.Sighted S) :
    S.length ≤ f.timelines.size := by
  have hsub : S ⊆ (List.range f.timelines.size).map Nat.succ := by
    intro u hu
    obtain ⟨x, hx⟩ := Option.isSome_iff_exists.mp (h.live u hu)
    have hle := f.timelines.le_size_of_get? hx
    cases u with
    | zero => cases hx
    | succ k => exact List.mem_map.mpr ⟨k, List.mem_range.mpr hle, rfl⟩
  simpa only [List.length_map, List.length_range] using (h.nodup.subperm hsub).length_le

/-- A search that has seen as many timelines as there are has seen them all. -/
theorem Func.Sighted.mem {S : List TimelineId} (h : f.Sighted S)
    (hlen : f.timelines.size ≤ S.length) {t : TimelineId} (ht : (f.timelines.get? t).isSome) :
    t ∈ S := by
  by_contra hn
  have hle := Func.Sighted.length_le (f := f) (S := t :: S)
    ⟨List.nodup_cons.mpr ⟨hn, h.nodup⟩, List.forall_mem_cons.mpr ⟨ht, h.live⟩⟩
  rw [List.length_cons] at hle
  omega

structure Func.Combs (f : Func) (v : VarId) (seen seen' : Seen) : Prop where
  grown : ∃ new, seen'.timelines = new ++ seen.timelines ∧
    ∀ t ∈ new, f.Combed v seen'.timelines t
  sighted : f.Sighted seen'.timelines
  joins : seen'.joins = seen.joins

namespace Func.Combs

variable {seen seen₁ seen' : Seen} {t : TimelineId}

theorem refl (h : f.Sighted seen.timelines) : f.Combs v seen seen := ⟨⟨[], rfl, nofun⟩, h, rfl⟩

theorem mem (h : f.Combs v seen seen') (ht : t ∈ seen.timelines) : t ∈ seen'.timelines := by
  obtain ⟨new, hnew, -⟩ := h.grown
  exact hnew ▸ List.mem_append_right _ ht

theorem length_le (h : f.Combs v seen seen') :
    seen.timelines.length ≤ seen'.timelines.length := by
  obtain ⟨new, hnew, -⟩ := h.grown
  rw [hnew, List.length_append]
  exact Nat.le_add_left _ _

theorem trans (h : f.Combs v seen seen₁) (h' : f.Combs v seen₁ seen') : f.Combs v seen seen' := by
  obtain ⟨new, hnew, hall⟩ := h.grown
  obtain ⟨new', hnew', hall'⟩ := h'.grown
  refine ⟨⟨new' ++ new, by rw [hnew', hnew, List.append_assoc], fun t ht => ?_⟩, h'.sighted,
    h'.joins.trans h.joins⟩
  rcases List.mem_append.mp ht with ht | ht
  · exact hall' t ht
  · exact fun c m hc hm => (hall t ht c m hc hm).mono fun u => h'.mem

/-- A timeline has been combed after all of its nodes have been. -/
theorem tail (h : f.Combs v { seen with timelines := t :: seen.timelines } seen')
    (ht : f.Combed v seen'.timelines t) : f.Combs v seen seen' := by
  obtain ⟨new, hnew, hall⟩ := h.grown
  refine ⟨⟨new ++ [t], by rw [hnew, List.append_assoc]; rfl, fun u hu => ?_⟩, h.sighted, h.joins⟩
  rcases List.mem_append.mp hu with hu | hu
  · exact hall u hu
  · rwa [List.mem_singleton.mp hu]

end Func.Combs

/-- A search behind a timeline that finds nothing has combed it, unless its block defines the
variable. It needs no more depth than there are timelines that it has not seen. -/
theorem Func.NodesFresh.timeline_combs (h : f.NodesFresh) :
    ∀ {n : Nat} {c : NodeId} {t : TimelineId}
    {seen seen' : Seen}, c ∈ f.blocks → f.explicit? c v = some t → f.Sighted seen.timelines →
    f.timelines.size ≤ n + seen.timelines.length →
    f.timelineMayBeUndefined n t seen = .ok (false, seen') →
    f.Combs v seen seen' ∧ (f.Defining v c ∨ t ∈ seen'.timelines) := by
  have ht := h.searchable.tables
  intro n
  induction n with
  | zero =>
    intro c t seen seen' hc hexp hs hn hrun
    obtain ⟨x, hx, -, -⟩ := ht.placed (timelineId?_of_explicit? hexp)
    cases hrun
    rw [Nat.zero_add] at hn
    exact ⟨.refl hs, .inr (hs.mem hn (by rw [hx]; rfl))⟩
  | succ n ih =>
    intro c t seen seen' hc hexp hs hn hrun
    have hid := timelineId?_of_explicit? hexp
    by_cases hstop : f.Defining v c ∨ t ∈ seen.timelines
    · rw [ht.search_stops hid hstop n] at hrun
      cases hrun
      exact ⟨.refl hs, hstop⟩
    rw [not_or] at hstop
    rw [ht.search_goes_on hexp hstop.1 hstop.2] at hrun
    obtain ⟨x, hx, -, -⟩ := ht.placed hid
    have hs' : f.Sighted (t :: seen.timelines) :=
      ⟨List.nodup_cons.mpr ⟨hstop.2, hs.nodup⟩,
        List.forall_mem_cons.mpr ⟨by rw [hx]; rfl, hs.live⟩⟩
    obtain ⟨hcombs, hall, -⟩ := foldlM_not_found
      (I := f.Combs v { seen with timelines := t :: seen.timelines })
      (C := fun m seen => f.Clear v seen.timelines m) (fun m hm seen₁ seen₂ hc₁ hrun₁ => by
        have hn₁ : f.timelines.size ≤ n + seen₁.timelines.length := by
          have := hc₁.length_le
          rw [List.length_cons] at this
          omega
        obtain ⟨-, ⟨htarget, -⟩ | ⟨u, d, htarget, hdb, hexp', -⟩⟩ := h.target_cases hm
        · rw [nodeMayBeUndefined, htarget] at hrun₁
          cases hrun₁
        · rw [ht.nodeMayBeUndefined_some htarget (timelineId?_of_explicit? hexp')] at hrun₁
          obtain ⟨hcomb, hor⟩ := ih hdb hexp' hc₁.sighted hn₁ hrun₁
          exact ⟨hc₁.trans hcomb, ⟨u, htarget, hor.symm.imp_right fun hd => ⟨d, hexp', hd⟩⟩,
            fun k hk => hk.mono fun w => hcomb.mem⟩) (.refl hs') hrun
    refine ⟨hcombs.tail fun c' m hc' hm => ?_, .inr (hcombs.mem List.mem_cons_self)⟩
    obtain ⟨rfl, -⟩ := ht.eq_of_timelineId? hid (timelineId?_of_explicit? hc')
    exact hall m hm

/-! ## Behind a value -/

def Swept (f : Func) (v : VarId) (seen : Seen) : Reach → Prop
  | .undefined => False
  | .timeline t => t ∈ seen.timelines ∨ ∃ d, f.explicit? d v = some t ∧ f.Defining v d
  | .pending _ => False
  | .join k => k ∈ seen.joins ∨
    ∃ t, f.joined? k v = some t ∧ (t ∈ seen.timelines ∨ f.Defining v k)

structure Stack.Looked (s : Stack) (J : List NodeId) : Prop where
  nodup : J.Nodup
  surviving : ∀ k ∈ J, k ∈ s.surviving

theorem Stack.Looked.length_le {J : List NodeId} (h : s.Looked J) :
    J.length ≤ s.surviving.length :=
  (h.nodup.subperm h.surviving).length_le

structure Sweeps (f : Func) (v : VarId) (s : Stack) (seen seen' : Seen) : Prop where
  timelines : ∃ new, seen'.timelines = new ++ seen.timelines ∧
    ∀ t ∈ new, f.Combed v seen'.timelines t
  joins : ∃ new, seen'.joins = new ++ seen.joins ∧
    ∀ k ∈ new, ∀ w ∈ (s.frame k).values, Swept f v seen' (s.rep w)
  sighted : f.Sighted seen'.timelines
  looked : s.Looked seen'.joins

namespace Sweeps

variable {seen seen₁ seen' : Seen} {t : TimelineId} {k : NodeId} {r : Reach}

theorem refl (ht : f.Sighted seen.timelines) (hj : s.Looked seen.joins) : Sweeps f v s seen seen :=
  ⟨⟨[], rfl, nofun⟩, ⟨[], rfl, nofun⟩, ht, hj⟩

theorem mem_timelines (h : Sweeps f v s seen seen') (ht : t ∈ seen.timelines) :
    t ∈ seen'.timelines := by
  obtain ⟨new, hnew, -⟩ := h.timelines
  exact hnew ▸ List.mem_append_right _ ht

theorem mem_joins (h : Sweeps f v s seen seen') (hk : k ∈ seen.joins) : k ∈ seen'.joins := by
  obtain ⟨new, hnew, -⟩ := h.joins
  exact hnew ▸ List.mem_append_right _ hk

theorem swept (h : Sweeps f v s seen seen') (hr : Swept f v seen r) : Swept f v seen' r := by
  cases r with
  | undefined => exact hr
  | pending _ => exact hr
  | timeline t => exact hr.imp_left h.mem_timelines
  | join k =>
    exact hr.imp h.mem_joins fun ⟨t, ht, hor⟩ => ⟨t, ht, hor.imp_left h.mem_timelines⟩

theorem length_le (h : Sweeps f v s seen seen') :
    seen.timelines.length ≤ seen'.timelines.length ∧ seen.joins.length ≤ seen'.joins.length := by
  obtain ⟨new, hnew, -⟩ := h.timelines
  obtain ⟨new', hnew', -⟩ := h.joins
  rw [hnew, hnew', List.length_append, List.length_append]
  exact ⟨Nat.le_add_left _ _, Nat.le_add_left _ _⟩

theorem trans (h : Sweeps f v s seen seen₁) (h' : Sweeps f v s seen₁ seen') :
    Sweeps f v s seen seen' := by
  obtain ⟨new, hnew, hall⟩ := h.timelines
  obtain ⟨new', hnew', hall'⟩ := h'.timelines
  obtain ⟨js, hjs, hvalues⟩ := h.joins
  obtain ⟨js', hjs', hvalues'⟩ := h'.joins
  refine ⟨⟨new' ++ new, by rw [hnew', hnew, List.append_assoc], fun t ht => ?_⟩,
    ⟨js' ++ js, by rw [hjs', hjs, List.append_assoc], fun k hk => ?_⟩, h'.sighted, h'.looked⟩
  · rcases List.mem_append.mp ht with ht | ht
    · exact hall' t ht
    · exact fun c m hc hm => (hall t ht c m hc hm).mono fun u => h'.mem_timelines
  · rcases List.mem_append.mp hk with hk | hk
    · exact hvalues' k hk
    · exact fun w hw => h'.swept (hvalues k hk w hw)

theorem of_combs (h : f.Combs v seen seen') (hj : s.Looked seen.joins) :
    Sweeps f v s seen seen' :=
  ⟨h.grown, ⟨[], h.joins, nofun⟩, h.sighted, h.joins ▸ hj⟩

/-- A join has been swept after all of its values have been. -/
theorem tail (h : Sweeps f v s { seen with joins := k :: seen.joins } seen')
    (hk : ∀ w ∈ (s.frame k).values, Swept f v seen' (s.rep w)) : Sweeps f v s seen seen' := by
  obtain ⟨js, hjs, hvalues⟩ := h.joins
  refine ⟨h.timelines, ⟨js ++ [k], by rw [hjs, List.append_assoc]; rfl, fun j hj => ?_⟩, h.sighted,
    h.looked⟩
  rcases List.mem_append.mp hj with hj | hj
  · exact hvalues j hj
  · rwa [List.mem_singleton.mp hj]

end Sweeps

/-- A search behind a value that finds nothing has swept it. It needs no more depth than there are
timelines and joins that it has not seen. -/
theorem Func.NodesFresh.value_sweeps (h : f.NodesFresh) (hs : Solution f v b s) :
    ∀ {n : Nat} {r : Reach} {seen seen' : Seen}, Traced f v s (s.rep r) →
    f.Sighted seen.timelines → s.Looked seen.joins →
    f.timelines.size + s.surviving.length < n + seen.timelines.length + seen.joins.length →
    f.valueMayBeUndefined s n r seen = .ok (false, seen') →
    Sweeps f v s seen seen' ∧ Swept f v seen' (s.rep r) := by
  have ht := h.searchable.tables
  obtain ⟨G⟩ := h.searchable.graph
  intro n
  induction n with
  | zero =>
    intro r seen seen' _ hst hsj hn _
    have := hst.length_le
    have := hsj.length_le
    omega
  | succ n ih =>
    intro r seen seen' hr hst hsj hn hrun
    have hn' : f.timelines.size ≤ n + seen.timelines.length := by
      have := hsj.length_le
      omega
    rw [valueMayBeUndefined, hs.readable.canon f r, ok_bind] at hrun
    cases hrep : s.rep r with
    | undefined =>
      rw [hrep] at hrun
      cases hrun
    | pending k =>
      rw [hrep] at hr
      exact hr.elim
    | timeline t =>
      rw [hrep] at hr hrun
      obtain ⟨c, hc, hexp⟩ := hr
      obtain ⟨hcombs, hor⟩ := h.timeline_combs hc hexp hst hn' hrun
      exact ⟨.of_combs hcombs hsj, hor.symm.imp_right fun hd => ⟨c, hexp, hd⟩⟩
    | join k =>
      rw [hrep] at hr hrun
      obtain ⟨hk, hjoin⟩ := hr
      dsimp only at hrun
      rw [hs.var_eq] at hrun
      cases hj : f.joined? k v with
      | some t =>
        rw [hj] at hrun
        obtain ⟨hcombs, hor⟩ :=
          h.timeline_combs hk (ht.explicit?_of_joined hj) hst hn' hrun
        exact ⟨.of_combs hcombs hsj, .inr ⟨t, hj, hor.symm⟩⟩
      | none =>
        rw [hj] at hjoin hrun
        have hin : k ∈ s.surviving := hjoin.resolve_left (by simp)
        dsimp only at hrun
        by_cases hseen : k ∈ seen.joins
        · rw [if_pos (by simpa using hseen)] at hrun
          cases hrun
          exact ⟨.refl hst hsj, .inl hseen⟩
        rw [if_neg (by simpa using hseen), if_neg (by simpa using hin)] at hrun
        have hsj' : s.Looked (k :: seen.joins) :=
          ⟨List.nodup_cons.mpr ⟨hseen, hsj.nodup⟩, List.forall_mem_cons.mpr ⟨hin, hsj.surviving⟩⟩
        obtain ⟨hsweeps, hall, -⟩ := foldlM_not_found
          (I := Sweeps f v s { seen with joins := k :: seen.joins })
          (C := fun w seen => Swept f v seen (s.rep w)) (fun w hw seen₁ seen₂ hsw hrun₁ => by
            obtain ⟨p, -, hg, -⟩ := forall₂_right (hs.departs_value G (Solution.placed ht) hin) hw
            have hn₁ : f.timelines.size + s.surviving.length <
                n + seen₁.timelines.length + seen₁.joins.length := by
              have := hsw.length_le
              simp only [List.length_cons] at this
              omega
            obtain ⟨hsw', hw'⟩ := ih (hg.traced hs) hsw.sighted hsw.looked hn₁ hrun₁
            exact ⟨hsw.trans hsw', hw', fun x hx => hsw'.swept hx⟩) (.refl hst hsj') hrun
        exact ⟨hsweeps.tail hall, .inl (hsweeps.mem_joins List.mem_cons_self)⟩

/-! ## What is found at the top of a block -/

/-- No undefined path comes out of a settled value that has been swept, unless it goes on through
a join that has been looked at. -/
theorem Swept.source (h : f.NodesFresh) {seen : Seen}
    (hT : ∀ t ∈ seen.timelines, f.Combed v seen.timelines t) {r : Reach} (hr : Swept f v seen r)
    (hg : Grounded f v s r) : ∃ d, f.source r = some d ∧
      (d ∈ seen.joins ∨ f.Defining v d ∨ ¬ Arrives f.preds (f.Defining v) d none) := by
  have ht := h.searchable.tables
  cases r with
  | undefined => exact hr.elim
  | pending _ => exact hr.elim
  | timeline t =>
    obtain ⟨c, hc, hexp⟩ := hg
    have hblock := ht.block_eq (timelineId?_of_explicit? hexp)
    refine ⟨c, by rw [Func.source, hblock], .inr ?_⟩
    by_cases hd : f.Defining v c
    · exact .inl hd
    · refine .inr (h.not_none_of_combed hT hc hexp (hr.resolve_right ?_) hd)
      rintro ⟨e, hexp', he⟩
      rw [ht.block_eq (timelineId?_of_explicit? hexp')] at hblock
      exact hd (hblock ▸ he)
  | join k =>
    refine ⟨k, rfl, .inl (hr.resolve_right ?_)⟩
    rintro ⟨t, hj, -⟩
    rw [joined?_of_explicit? hg.2] at hj
    cases hj

/-- No undefined path arrives where a search behind the value there finds nothing, unless a join
has been built there in a block that defines the variable. -/
theorem Func.NodesFresh.not_none_of_swept (h : f.NodesFresh) (hb : b ∈ f.blocks)
    (hs : Solution f v b s)
    {seen : Seen} (hsweeps : Sweeps f v s ⟨[], []⟩ seen) (hroot : Swept f v seen s.root)
    (hd : ¬ (f.joinNodes b v ≠ [] ∧ f.Defining v b)) :
    ¬ Arrives f.preds (f.Defining v) b none := by
  have ht := h.searchable.tables
  obtain ⟨G⟩ := h.searchable.graph
  obtain ⟨new, hnew, hT⟩ := hsweeps.timelines
  obtain ⟨js, hjs, hJ⟩ := hsweeps.joins
  rw [List.append_nil] at hnew hjs
  subst hnew hjs
  have joins : ∀ k ∈ seen.joins,
      Covered f.preds (f.Defining v) (s.Decided f v) (· ∈ seen.joins) k := by
    intro k hk a ha
    have hin := hsweeps.looked.surviving k hk
    rcases arrives_iff.mp ha with ⟨hnone, -⟩ | ⟨p, hp, hdep⟩
    · have := hs.several_of_surviving hin
      rw [hnone] at this
      exact absurd this (by decide)
    · obtain ⟨w, hw, hg, hiff⟩ := forall₂_left (hs.departs_value G (Solution.placed ht) hin) hp
      rw [(hiff a).mp hdep]
      exact (hJ k hk w hw).source h hT hg
  rcases hs.root_cases G (Solution.placed ht) hb with ⟨hjoin, -⟩ | ⟨-, -, hg, harr⟩
  · rw [hjoin] at hroot
    rcases hroot with hk | ⟨t, hj, hor⟩
    · exact (joins b hk).not_none joins
    · have hdef : ¬ f.Defining v b := fun hdef =>
        hd ⟨(ht.joinNodes_of_joined? hj).1, hdef⟩
      exact h.not_none_of_combed hT hb (ht.explicit?_of_joined hj) (hor.resolve_right hdef) hdef
  · refine Covered.not_none joins fun a ha => ?_
    rw [(harr a).mp ha]
    exact hroot.source h hT hg

theorem Func.Forest.searchDepth_enough (h : f.Forest) :
    f.timelines.size + f.blocks.length < f.searchDepth := by
  have hblocks := h.blocks_length
  rw [searchDepth]
  calc f.timelines.size + f.blocks.length
      < (f.timelines.size + 2) * 1 + 1 * (f.nodes.size + 2) := by omega
    _ ≤ (f.timelines.size + 2) * 1 + (f.timelines.size + 2) * (f.nodes.size + 2) :=
      Nat.add_le_add_left (Nat.mul_le_mul_right _ (by omega)) _
    _ = (f.timelines.size + 2) * (f.nodes.size + 3) := by rw [← Nat.mul_add]; congr 1; omega

/-- A variable is found undefined at the top of a block exactly if an undefined path arrives there,
unless a join has been built there and the block defines the variable as well. -/
theorem Func.NodesFresh.undefinedAt_isSome (h : f.NodesFresh) (hb : b ∈ f.blocks) (v : VarId) :
    ∃ r, f.undefinedAt b v = .ok r ∧ (r.isSome ↔ Arrives f.preds (f.Defining v) b none ∧
      ¬ (f.joinNodes b v ≠ [] ∧ f.Defining v b)) := by
  have ht := h.searchable.tables
  obtain ⟨G⟩ := h.searchable.graph
  obtain ⟨s, hsolve, hs⟩ := solve_ok (v := v) G hb
  have hrep := hs.rep_root G (Solution.placed ht) hb
  have htraced := hs.root_traced G ht hb
  obtain ⟨found, seen, hrun, hfound⟩ := h.value_search hs f.searchDepth
    (r := s.root) (by rw [hrep]; exact htraced) ⟨[], []⟩
  rw [hrep] at hfound
  refine ⟨_, hs.undefinedAt_eq h hb hsolve hrun, ?_⟩
  have hcases := hs.root_cases G (Solution.placed ht) hb
  constructor
  · intro hsome
    have hbrings : BringsNone f v s.root := by
      by_cases hroot : s.root = .undefined
      · rw [hroot]
        exact trivial
      · rw [if_neg hroot] at hsome
        cases found with
        | true => exact hfound rfl
        | false => cases hsome
    rcases hcases with ⟨hjoin, -⟩ | ⟨hj, -, hg, harr⟩
    · rw [hjoin] at hbrings
      refine ⟨hbrings.1, fun ⟨hne, hd⟩ => hbrings.2 ?_ hd⟩
      rw [Option.isSome_iff_ne_none]
      exact fun hnone => hne (ht.joined?_eq_none.mp hnone)
    · refine ⟨arrives_none_of_source (fun hx => Or.inl (h.defining_decides hx))
        ((harr _).mpr rfl) (hbrings.source h hg), fun hboth => ?_⟩
      exact hboth.1 (ht.joined?_eq_none.mp hj)
  · rintro ⟨harr, hd⟩
    by_cases hroot : s.root = .undefined
    · rw [if_pos hroot]
      rfl
    rw [if_neg hroot]
    cases found with
    | true => rfl
    | false =>
      have hlooked : s.Looked [] := ⟨List.nodup_nil, fun _ hk => absurd hk List.not_mem_nil⟩
      have hsurv : s.surviving.length ≤ f.blocks.length :=
        ((hs.search.phis_nodup.filter _).subperm fun k hk =>
          (hs.search.block (hs.phi_of_surviving hk)).block).length_le
      obtain ⟨hsweeps, hswept⟩ := h.value_sweeps hs (r := s.root) (by rw [hrep]; exact htraced)
        (⟨List.nodup_nil, fun _ ht => absurd ht List.not_mem_nil⟩) hlooked
        (by have := h.searchable.forest.searchDepth_enough; simp only [List.length_nil]; omega) hrun
      rw [hrep] at hswept
      exact absurd harr (h.not_none_of_swept hb hs hsweeps hswept hd)

/-! ## Where all joins have been built -/

def Func.Furnished (f : Func) (v : VarId) (b : NodeId) : Prop :=
  ∀ {y}, Sees f.preds (f.Defining v) b y → f.Needed v y → f.joinNodes y v ≠ []

theorem Func.Furnished.surviving (hf : f.Furnished v b) (h : f.NodesFresh) (hthrift : f.Thrifty)
    (hb : b ∈ f.blocks) (hs : Solution f v b s) : s.surviving = [] := by
  refine List.eq_nil_iff_forall_not_mem.mpr fun j hj => ?_
  obtain ⟨hnone, hneeded, hsees⟩ := (hs.surviving_iff h hthrift hb).mp hj
  exact hf hsees hneeded hnone

/-- What is found at the top of a block all of whose joins have been built: the variable is
undefined on all paths, or on some but not on all, unless the block defines it itself and
different values meet at its top. -/
theorem Func.NodesFresh.undefinedAt_iff (h : f.NodesFresh) (hthrift : f.Thrifty) (hb : b ∈ f.blocks)
    (hfurn : f.Furnished v b) : ∃ r, f.undefinedAt b v = .ok r ∧
      (r = some false ↔ ∀ a, Arrives f.preds (f.Defining v) b a → a = none) ∧
      (r = some true ↔ Arrives f.preds (f.Defining v) b none ∧
        (∃ c, Arrives f.preds (f.Defining v) b (some c)) ∧ ¬ (f.Needed v b ∧ f.Defining v b)) := by
  obtain ⟨r, hr, hfalse, htrue⟩ := h.undefinedAt_cases hthrift hb v
  obtain ⟨r', hr', hsome⟩ := h.undefinedAt_isSome hb v
  cases hr.symm.trans hr'
  refine ⟨r, hr, hfalse, fun hr => ?_, ?_⟩
  · obtain ⟨hnone, hc⟩ := htrue hr
    have hnot := (hsome.mp (by rw [hr]; rfl)).2
    exact ⟨hnone, hc, fun hboth => hnot ⟨hfurn .refl hboth.1, hboth.2⟩⟩
  · rintro ⟨hnone, ⟨c, hc⟩, hnot⟩
    have := hsome.mpr ⟨hnone, fun hboth => hnot ⟨hthrift hboth.1, hboth.2⟩⟩
    match r with
    | some true => rfl
    | some false => cases hfalse.mp rfl _ hc
    | none => cases this

end

end DefFlow.Flow
