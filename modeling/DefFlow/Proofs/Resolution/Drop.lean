import DefFlow.Proofs.Resolution.Search

/-!
# Dropping joins

A join that merges at most one value besides itself is dropped for that value. The
passes end when one of them drops nothing; after that two different values come to
every join that is left.
-/

set_option autoImplicit false

namespace DefFlow.Flow

namespace Stack

def dropJoin (f : Func) (s : Stack) (join : NodeId) : Except EditError Stack := do
  if (s.replaced.lookup join).isSome then return s
  match ← s.distinct f join (s.frame join).values with
  | [] => return { s with replaced := (join, .undefined) :: s.replaced }
  | [r] => return { s with replaced := (join, r) :: s.replaced }
  | _ => return s

theorem eliminateOnce_eq (f : Func) (s : Stack) :
    s.eliminateOnce f = s.phis.foldlM (dropJoin f) s := rfl

def SameSearch (s s' : Stack) : Prop := s' = { s with replaced := s'.replaced }

theorem SameSearch.trans {s s' s'' : Stack} (h : SameSearch s s') (h' : SameSearch s' s'') :
    SameSearch s s'' := by
  rw [SameSearch] at h h' ⊢
  rw [h', h]

def Needs (s : Stack) (j : NodeId) : Prop := 2 ≤ (s.others j (s.frame j).values).length

end Stack

namespace Searching

variable {f : Func} {v : VarId} {s : Stack} {j : NodeId} {c : Reach}

theorem values_of_phi (h : Searching f v [] s) (hj : j ∈ s.phis) :
    List.Forall₂ (Carries f v s) (f.preds j) (s.frame j).values :=
  h.values (h.phi hj)

theorem rep_ne_pending (h : Searching f v [] s) {r : Reach} {k : NodeId} (hk : k ∈ s.joins) :
    s.rep r ≠ .pending k := by
  intro he
  have hn := Stack.next?_rep h.total r
  rw [he, Stack.next?_pending] at hn
  rcases h.met.mp hk with hm | hm
  · cases hm
  · rw [hn] at hm
    cases hm

/-- Dropping a join for the one value that it merges besides itself. -/
theorem dropped (G : f.Net) (h : Searching f v [] s) (hj : j ∈ s.phis)
    (hn : s.replaced.lookup j = none)
    (hc : (s.others j (s.frame j).values = [] ∧ c = .undefined) ∨
      s.others j (s.frame j).values = [c]) :
    Searching f v [] { s with replaced := (j, c) :: s.replaced } ∧
      Extends s { s with replaced := (j, c) :: s.replaced } := by
  have hmem := h.phi_mem_joins hj
  have hjb := (h.block hmem).block
  obtain ⟨hset, hne, hto⟩ : s.next? c = none ∧ c ≠ .join j ∧
      (Clear f v s c ∧ ∀ k, c = .join k → k ∈ s.phis) := by
    rcases hc with ⟨_, rfl⟩ | hc
    · exact ⟨rfl, by simp, trivial, by simp⟩
    · obtain ⟨⟨w, hw, hrep⟩, hself⟩ := Stack.mem_others (hc ▸ List.mem_singleton_self c)
      obtain ⟨p, hm, hcar⟩ := forall₂_right (h.values_of_phi hj) hw
      refine ⟨hrep ▸ Stack.next?_rep h.total w, ?_, ?_, ?_⟩
      · rintro rfl
        simp [Stack.isSelf] at hself
      · exact hrep ▸ h.clear_rep (h.clear_carried G (G.mem hjb hm) hcar)
      · intro k hk
        exact h.rep_carried_join G (G.mem hjb hm) hcar (hrep.trans hk)
  have henters := Stack.enters_replaced hn hset hne
  have hrep := henters.rep h.total
  have hext : Extends s { s with replaced := (j, c) :: s.replaced } := {
    leaf := rfl
    var := rfl
    tops := fun h => h
    joins := fun h => h
    length := Nat.le_refl _
    frame := fun _ => rfl
    phis := fun _ => Iff.rfl
    rep := fun hr => henters.rep_congr h.total hr }
  refine ⟨{
    total := henters.total h.total
    nodup := h.nodup
    block := h.block
    seen := h.seen
    met := h.met
    active_nodup := h.active_nodup
    pending := h.pending
    length := h.length
    phis_nodup := h.phis_nodup
    phi := h.phi
    result := h.result
    clear := fun hk => (h.clear hk).imp_right fun hc => hc.extends hext
    preds := h.preds
    values := fun hk => (h.values hk).imp fun _ _ hcar => hcar.extends hext
    dropped_nodup := by
      rw [List.map_cons, List.nodup_cons]
      refine ⟨fun hm => ?_, h.dropped_nodup⟩
      obtain ⟨⟨_, r⟩, he, rfl⟩ := List.mem_map.mp hm
      exact absurd (List.lookup_eq_none_iff.mp hn _ he) (by simp)
    dropped_phi := fun {k r} hk => by
      rcases of_lookup_cons hk with ⟨rfl, _⟩ | ⟨_, hk⟩
      · exact hj
      · exact h.dropped_phi hk
    dropped_to := fun {k r} hk => by
      rcases of_lookup_cons hk with ⟨_, rfl⟩ | ⟨_, hk⟩
      · exact ⟨hto.1.extends hext, hto.2⟩
      · exact ⟨(h.dropped_to hk).1.extends hext, (h.dropped_to hk).2⟩
    agree := fun {k r} hk hd w hw => by
      replace hw : w ∈ (s.frame k).values := hw
      by_cases hkj : k = j
      · subst hkj
        rw [hrep, hrep, Stack.rep_of_next h.total (r := .pending k) (h.phi hj),
          Stack.rep_of_settled h.total (r := .join k) hn, if_pos rfl]
        rcases Stack.mem_others_of_mem hw with hs | hs
        · have hs' : s.rep w = .join k := by
            simp only [Stack.isSelf, Bool.or_eq_true, decide_eq_true_eq] at hs
            exact hs.resolve_left (h.rep_ne_pending hmem)
          rw [hs', if_pos rfl]
        · rcases hc with ⟨hc, _⟩ | hc
          · simp [hc] at hs
          · rw [hc, List.mem_singleton] at hs
            rw [hs, if_neg hne]
      · refine hext.rep (h.agree hk (hd.imp_right fun hd => ?_) w hw)
        rwa [lookup_cons_of_ne hkj] at hd }, hext⟩

variable {I : Stack → Prop}

theorem dropJoin_ok (G : f.Net) (hlasts : f.Lasts v I) (h : Searching f v [] s) (hI : I s)
    (hj : j ∈ s.phis) :
    ∃ s', s.dropJoin f j = .ok s' ∧ Searching f v [] s' ∧ I s' ∧ s.SameSearch s' ∧ Extends s s' ∧
      (s' = s ∧ (s.replaced.lookup j = none → s.Needs j) ∨
        s'.replaced.length = s.replaced.length + 1) := by
  rw [Stack.dropJoin]
  cases hn : s.replaced.lookup j with
  | some r => exact ⟨s, by simp [pure, Except.pure], h, hI, rfl, .refl s, Or.inl ⟨rfl, by simp⟩⟩
  | none =>
    rw [Stack.distinct_eq f h.total h.bounded]
    match ho : s.others j (s.frame j).values with
    | [] =>
      obtain ⟨hd, hext⟩ := h.dropped G hj hn (Or.inl ⟨ho, rfl⟩)
      exact ⟨_, rfl, hd, hlasts.dropped h hj hn (Or.inl ⟨ho, rfl⟩) hI, rfl, hext, Or.inr rfl⟩
    | [r] =>
      obtain ⟨hd, hext⟩ := h.dropped G hj hn (Or.inr ho)
      exact ⟨_, rfl, hd, hlasts.dropped h hj hn (Or.inr ho) hI, rfl, hext, Or.inr rfl⟩
    | r :: r' :: rs =>
      exact ⟨s, rfl, h, hI, rfl, .refl s, Or.inl ⟨rfl, fun _ => by simp [Stack.Needs, ho]⟩⟩

/-- A pass that drops nothing has found different values at every join left. -/
theorem dropJoins_ok (G : f.Net) (hlasts : f.Lasts v I) (js : List NodeId)
    (h : Searching f v [] s) (hI : I s) (hj : ∀ j ∈ js, j ∈ s.phis) :
    ∃ s', js.foldlM (Stack.dropJoin f) s = .ok s' ∧ Searching f v [] s' ∧ I s' ∧
      s.SameSearch s' ∧ Extends s s' ∧
      (s' = s ∧ (∀ j ∈ js, s.replaced.lookup j = none → s.Needs j) ∨
        s.replaced.length < s'.replaced.length) := by
  induction js generalizing s with
  | nil => exact ⟨s, rfl, h, hI, rfl, .refl s, Or.inl ⟨rfl, by simp⟩⟩
  | cons j js ih =>
    obtain ⟨s₁, hs₁, h₁, hI₁, hsame, hext, hd⟩ :=
      h.dropJoin_ok G hlasts hI (hj j List.mem_cons_self)
    have hphis : s₁.phis = s.phis := by rw [hsame]
    obtain ⟨s₂, hs₂, h₂, hI₂, hsame₂, hext₂, hd₂⟩ := ih h₁ hI₁ fun k hk =>
      hphis ▸ hj k (List.mem_cons_of_mem _ hk)
    refine ⟨s₂, ?_, h₂, hI₂, hsame.trans hsame₂, hext.trans hext₂, ?_⟩
    · rw [List.foldlM_cons, hs₁]
      exact hs₂
    rcases hd with ⟨rfl, hneeds⟩ | hd
    · refine hd₂.imp_left fun ⟨he, hall⟩ => ⟨he, fun k hk => ?_⟩
      rcases List.mem_cons.mp hk with rfl | hk
      · exact hneeds
      · exact hall k hk
    · refine Or.inr ?_
      rcases hd₂ with ⟨rfl, _⟩ | hd₂ <;> omega

/-- The passes end with a stack whose joins are all needed. -/
theorem eliminate_ok (G : f.Net) (hlasts : f.Lasts v I) {n : Nat} (h : Searching f v [] s)
    (hI : I s) (hn : s.phis.length < n + s.replaced.length) :
    ∃ s', s.eliminate f n = .ok s' ∧ Searching f v [] s' ∧ I s' ∧ s.SameSearch s' ∧ Extends s s' ∧
      ∀ j ∈ s'.surviving, s'.Needs j := by
  induction n generalizing s with
  | zero =>
    have := h.dropped_length
    omega
  | succ n ih =>
    obtain ⟨s₁, hs₁, h₁, hI₁, hsame, hext, hd⟩ :=
      h.dropJoins_ok G hlasts s.phis hI fun _ hj => hj
    have hphis : s₁.phis = s.phis := by rw [hsame]
    rw [Stack.eliminate, Stack.eliminateOnce_eq, hs₁]
    by_cases hlen : s₁.replaced.length = s.replaced.length
    · obtain ⟨rfl, hall⟩ := hd.resolve_right (by omega)
      refine ⟨s₁, by simp [bind, Except.bind, pure, Except.pure], h₁, hI₁, rfl, .refl s₁,
        fun j hj => ?_⟩
      rw [Stack.surviving, List.mem_filter, Option.isNone_iff_eq_none] at hj
      exact hall j hj.1 hj.2
    · have hlt : s.replaced.length < s₁.replaced.length := by
        rcases hd with ⟨rfl, _⟩ | hd
        · exact absurd rfl hlen
        · exact hd
      obtain ⟨s₂, hs₂, h₂, hI₂, hsame₂, hext₂, hall⟩ := ih h₁ hI₁ (by rw [hphis]; omega)
      exact ⟨s₂, by simp [bind, Except.bind, hlen, hs₂], h₂, hI₂, hsame.trans hsame₂,
        hext.trans hext₂, hall⟩

end Searching
end DefFlow.Flow
