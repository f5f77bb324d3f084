import DefFlow.Proofs.Graph.Confluence
import DefFlow.Proofs.Resolution.Canon
import Mathlib.Data.List.Perm.Subperm

/-!
# The search through the joins

Each join is searched once. When its paths are known it is recorded with one value
for each predecessor, and either it joins different values or all its paths stand
for the value that it stands for. The search never fails: every join that it opens
is a block that it has not met before.
-/

set_option autoImplicit false

namespace DefFlow.Flow

namespace Func

structure Net (f : Func) : Prop where
  mem : ∀ {x p}, x ∈ f.blocks → p ∈ f.preds x → p ∈ f.blocks
  count : f.blocks.length ≤ f.nodes.size

structure Graph (f : Func) extends Reducible (· ∈ f.blocks) f.preds where
  fits : bound ≤ f.nodes.size
  count : f.blocks.length ≤ f.nodes.size

theorem Graph.net {f : Func} (G : f.Graph) : f.Net := ⟨G.mem, G.count⟩

instance {f : Func} : Coe f.Graph f.Net := ⟨Graph.net⟩

def Decides (f : Func) (v : VarId) (b : NodeId) : Prop := (f.explicit? b v).isSome

variable {f : Func} {v : VarId}

theorem not_decides {b : NodeId} : ¬ f.Decides v b ↔ f.explicit? b v = none :=
  Option.not_isSome_iff_eq_none

/-! ## Walking up -/

def rise (f : Func) (v : VarId) (x : NodeId) : WalkEnd := f.walkUp v [] [] f.nodes.size x

theorem walkUp_eq (active : List NodeId) (tops : List (NodeId × Reach)) (n : Nat) (x : NodeId) :
    f.walkUp v active tops n x =
      match f.walkUp v [] [] n x with
      | .known r => .known r
      | .opens j =>
        if active.contains j then .known (.pending j)
        else match tops.lookup j with
          | some r => .known r
          | none => .opens j := by
  induction n generalizing x with
  | zero => rfl
  | succ n ih =>
    rw [walkUp, walkUp]
    cases hp : f.preds x with
    | nil => rfl
    | cons p ps =>
      cases ps with
      | nil =>
        cases he : f.explicit? p v with
        | some t => simp [he]
        | none => simpa [he] using ih p
      | cons q qs => rfl

def goesOn (f : Func) (v : VarId) (x : NodeId) : Option NodeId :=
  match f.preds x with
  | [p] => if f.explicit? p v = none then some p else none
  | _ => none

theorem goesOn_eq {x p : NodeId} (hp : f.preds x = [p]) (he : f.explicit? p v = none) :
    f.goesOn v x = some p := by
  rw [goesOn, hp]
  exact if_pos he

theorem of_goesOn {x p : NodeId} (h : f.goesOn v x = some p) :
    f.preds x = [p] ∧ f.explicit? p v = none := by
  rw [goesOn] at h
  split at h
  · split at h
    · cases h
      exact ⟨‹_›, ‹_›⟩
    · cases h
  · cases h

theorem walkUp_goesOn {x p : NodeId} (h : f.goesOn v x = some p) (n : Nat) :
    f.walkUp v [] [] (n + 1) x = f.walkUp v [] [] n p := by
  obtain ⟨hp, he⟩ := of_goesOn h
  rw [walkUp, hp]
  simp only [he]

theorem walkUp_ends {x : NodeId} (h : f.goesOn v x = none) (n m : Nat) :
    f.walkUp v [] [] (n + 1) x = f.walkUp v [] [] (m + 1) x := by
  rw [goesOn] at h
  rw [walkUp, walkUp]
  split at h
  · next p hp =>
    split at h
    · cases h
    · next he =>
      obtain ⟨t, ht⟩ := Option.ne_none_iff_exists'.mp he
      simp only [hp, ht]
  · next hp =>
    match hx : f.preds x with
    | [] => rfl
    | [p] => exact absurd hx (hp p)
    | p :: q :: ps => rfl

def climbs (f : Func) (v : VarId) (n : Nat) (x : NodeId) : NodeId :=
  (fun y => (f.goesOn v y).getD y)^[n] x

theorem walkUp_climbs {n k : Nat} {x : NodeId}
    (h : ∀ i < k, (f.goesOn v (f.climbs v i x)).isSome) :
    f.walkUp v [] [] (n + k) x = f.walkUp v [] [] n (f.climbs v k x) := by
  induction k generalizing x with
  | zero => rfl
  | succ k ih =>
    obtain ⟨p, hp⟩ := Option.isSome_iff_exists.mp (h 0 (Nat.succ_pos k))
    replace hp : f.goesOn v x = some p := hp
    have hstep : ∀ i, f.climbs v (i + 1) x = f.climbs v i p := fun i => by
      rw [climbs, climbs, Function.iterate_succ_apply, hp, Option.getD_some]
    rw [← Nat.add_assoc, walkUp_goesOn hp, hstep]
    exact ih fun i hi => hstep i ▸ h (i + 1) (Nat.succ_lt_succ hi)

theorem climbs_mem (G : f.Net) (n : Nat) {x : NodeId} (hx : x ∈ f.blocks) :
    f.climbs v n x ∈ f.blocks := by
  induction n generalizing x with
  | zero => exact hx
  | succ n ih =>
    rw [climbs, Function.iterate_succ_apply]
    refine ih ?_
    cases h : f.goesOn v x with
    | none => exact hx
    | some p => exact G.mem hx (by rw [(of_goesOn h).1]; exact List.mem_singleton_self p)

/-- A walk that ends at all passes every block at most once. -/
theorem climbs_ends (G : f.Net) {x : NodeId} (hx : x ∈ f.blocks)
    (h : ∃ k, f.goesOn v (f.climbs v k x) = none) :
    ∃ k < f.blocks.length, f.goesOn v (f.climbs v k x) = none ∧
      ∀ i < k, (f.goesOn v (f.climbs v i x)).isSome := by
  obtain ⟨k, hk, hmin⟩ := wellFounded_lt.has_min {k | f.goesOn v (f.climbs v k x) = none} h
  refine ⟨k, ?_, hk, fun i hi => Option.isSome_iff_ne_none.mpr fun hn => hmin i hn hi⟩
  -- A block that is met twice is met again and again.
  have hnodup : ((List.range (k + 1)).map fun i => f.climbs v i x).Nodup := by
    refine List.pairwise_map.mpr (List.pairwise_lt_range.imp_of_mem fun {i j} _ hj hij he => ?_)
    have hj := Nat.lt_succ_iff.mp (List.mem_range.mp hj)
    have hsame : f.climbs v (k - j + i) x = f.climbs v (k - j + j) x := by
      simp only [climbs, Function.iterate_add_apply] at he ⊢
      rw [he]
    rw [Nat.sub_add_cancel hj] at hsame
    exact hmin (k - j + i) (hsame ▸ hk : f.goesOn v (f.climbs v (k - j + i) x) = none) (by omega)
  have hsub := hnodup.subperm fun y hy => by
    obtain ⟨i, _, rfl⟩ := List.mem_map.mp hy
    exact climbs_mem G i hx
  have := hsub.length_le
  rw [List.length_map, List.length_range] at this
  omega

/-- With a step for every block it does not matter how many steps a walk may take. -/
theorem walkUp_fuel (G : f.Net) {n m : Nat} {x : NodeId} (hx : x ∈ f.blocks)
    (hn : f.blocks.length ≤ n) (hm : f.blocks.length ≤ m) :
    f.walkUp v [] [] n x = f.walkUp v [] [] m x := by
  by_cases h : ∃ k, f.goesOn v (f.climbs v k x) = none
  · obtain ⟨k, hk, hend, hpass⟩ := climbs_ends G hx h
    have hrun : ∀ l, f.blocks.length ≤ l →
        f.walkUp v [] [] l x = f.walkUp v [] [] 1 (f.climbs v k x) := by
      intro l hl
      obtain ⟨d, rfl⟩ : ∃ d, l = d + 1 + k := ⟨l - k - 1, by omega⟩
      rw [walkUp_climbs hpass]
      exact walkUp_ends hend d 0
    rw [hrun n hn, hrun m hm]
  · have hrun : ∀ l, f.walkUp v [] [] l x = .known .undefined := by
      intro l
      have := walkUp_climbs (f := f) (v := v) (n := 0) (k := l) (x := x)
        fun i _ => Option.isSome_iff_ne_none.mpr fun hi => h ⟨i, hi⟩
      rw [Nat.zero_add] at this
      rw [this, walkUp]
    rw [hrun, hrun]

theorem size_pos (G : f.Net) {x : NodeId} (hx : x ∈ f.blocks) : ∃ n, f.nodes.size = n + 1 := by
  have := List.length_pos_of_mem hx
  have := G.count
  exact ⟨f.nodes.size - 1, by omega⟩

theorem rise_start (G : f.Net) {x : NodeId} (hx : x ∈ f.blocks) (hp : f.preds x = []) :
    f.rise v x = .known .undefined := by
  obtain ⟨n, hn⟩ := size_pos G hx
  rw [rise, hn, walkUp, hp]

theorem rise_explicit (G : f.Net) {x p : NodeId} {t : TimelineId} (hx : x ∈ f.blocks)
    (hp : f.preds x = [p]) (he : f.explicit? p v = some t) :
    f.rise v x = .known (.timeline t) := by
  obtain ⟨n, hn⟩ := size_pos G hx
  rw [rise, hn, walkUp, hp]
  simp [he]

theorem rise_pass (G : f.Net) {x p : NodeId} (hx : x ∈ f.blocks)
    (hp : f.preds x = [p]) (he : f.explicit? p v = none) :
    f.rise v x = f.rise v p := by
  rw [rise, walkUp_fuel G hx G.count (Nat.le_succ_of_le G.count), walkUp_goesOn (goesOn_eq hp he),
    rise]

theorem rise_join (G : f.Net) {x : NodeId} (hx : x ∈ f.blocks)
    (hp : 2 ≤ (f.preds x).length) : f.rise v x = .opens x := by
  obtain ⟨n, hn⟩ := size_pos G hx
  rw [rise, hn, walkUp]
  match h : f.preds x with
  | [] => simp [h] at hp
  | [p] => simp [h] at hp
  | p :: q :: ps => simp

theorem preds_cases (f : Func) (x : NodeId) :
    f.preds x = [] ∨ (∃ p, f.preds x = [p]) ∨ 2 ≤ (f.preds x).length := by
  match h : f.preds x with
  | [] => exact Or.inl rfl
  | [p] => exact Or.inr (Or.inl ⟨p, rfl⟩)
  | p :: q :: ps => exact Or.inr (Or.inr (by simp))

/-- How a walk goes on at a block that has a predecessor. -/
theorem rise_cases (G : f.Net) (v : VarId) {x p : NodeId} (hx : x ∈ f.blocks)
    (hp : p ∈ f.preds x) :
    (f.preds x = [p] ∧ ∃ t, f.explicit? p v = some t ∧ f.rise v x = .known (.timeline t)) ∨
      (f.preds x = [p] ∧ f.explicit? p v = none ∧ f.rise v x = f.rise v p) ∨
      f.rise v x = .opens x := by
  rcases preds_cases f x with hnil | ⟨q, hq⟩ | hmany
  · rw [hnil] at hp
    cases hp
  · rw [hq, List.mem_singleton] at hp
    subst hp
    cases he : f.explicit? p v with
    | some t => exact Or.inl ⟨hq, t, rfl, rise_explicit G hx hq he⟩
    | none => exact Or.inr (Or.inl ⟨hq, rfl, rise_pass G hx hq he⟩)
  · exact Or.inr (Or.inr (rise_join G hx hmany))

theorem walkUp_known (G : f.Net) {n : Nat} {x : NodeId} {w : Reach} (hx : x ∈ f.blocks)
    (h : f.walkUp v [] [] n x = .known w) :
    w = .undefined ∨ ∃ t, w = .timeline t ∧ ∃ b ∈ f.blocks, f.explicit? b v = some t := by
  induction n generalizing x with
  | zero =>
    rw [walkUp, WalkEnd.known.injEq] at h
    exact Or.inl h.symm
  | succ n ih =>
    rw [walkUp] at h
    match hp : f.preds x with
    | [] =>
      simp only [hp, WalkEnd.known.injEq] at h
      exact Or.inl h.symm
    | [p] =>
      have hpb := G.mem hx (show p ∈ f.preds x by simp [hp])
      cases he : f.explicit? p v with
      | some t =>
        simp only [hp, he, WalkEnd.known.injEq] at h
        exact Or.inr ⟨t, h.symm, p, hpb, he⟩
      | none =>
        simp only [hp, he] at h
        exact ih hpb h
    | p :: q :: ps => simp [hp] at h

theorem rise_known (G : f.Net) {x : NodeId} {w : Reach} (hx : x ∈ f.blocks)
    (h : f.rise v x = .known w) :
    w = .undefined ∨ ∃ t, w = .timeline t ∧ ∃ b ∈ f.blocks, f.explicit? b v = some t :=
  walkUp_known G hx h

theorem walkUp_opens (G : f.Net) {n : Nat} {x j : NodeId} (hx : x ∈ f.blocks)
    (h : f.walkUp v [] [] n x = .opens j) : j ∈ f.blocks ∧ 2 ≤ (f.preds j).length ∧
      Sees f.preds (f.Decides v) x j := by
  induction n generalizing x with
  | zero => cases h
  | succ n ih =>
    rw [walkUp] at h
    match hp : f.preds x with
    | [] =>
      simp only [hp] at h
      cases h
    | [p] =>
      have hm : p ∈ f.preds x := by simp [hp]
      cases he : f.explicit? p v with
      | some t =>
        simp only [hp, he] at h
        cases h
      | none =>
        simp only [hp, he] at h
        obtain ⟨h1, h2, h3⟩ := ih (G.mem hx hm) h
        exact ⟨h1, h2, (Sees.refl.step hm (not_decides.mpr he)).trans h3⟩
    | p :: q :: ps =>
      simp [hp] at h
      subst h
      exact ⟨hx, by simp [hp], .refl⟩

theorem rise_opens (G : f.Net) {x j : NodeId} (hx : x ∈ f.blocks)
    (h : f.rise v x = .opens j) : j ∈ f.blocks ∧ 2 ≤ (f.preds j).length ∧
      Sees f.preds (f.Decides v) x j :=
  walkUp_opens G hx h

theorem clear_of_opens (G : f.Net) {x j : NodeId} (hx : x ∈ f.blocks)
    (h : f.rise v x = .opens j) (he : f.explicit? x v = none) : f.explicit? j v = none :=
  (rise_opens G hx h).2.2.eq_or_clear.elim (fun e => e ▸ he) not_decides.mp

theorem joined?_of_explicit? {x : NodeId} (h : f.explicit? x v = none) :
    f.joined? x v = none := by
  rw [explicit?, Option.filter_eq_none_iff] at h
  rw [joined?, Option.filter_eq_none_iff]
  intro t ht
  have := h t ht
  simp only [Timeline.explicit, Timeline.isEmpty] at this
  simp only [Bool.not_eq_true'] at this ⊢
  simp_all

theorem walk_of_explicit? {x : NodeId} (h : f.explicit? x v = none) (active : List NodeId)
    (tops : List (NodeId × Reach)) :
    f.walk v active tops x =
      match f.rise v x with
      | .known r => .known r
      | .opens j =>
        if active.contains j then .known (.pending j)
        else match tops.lookup j with
          | some r => .known r
          | none => .opens j := by
  rw [walk, joined?_of_explicit? h, walkUp_eq, rise]
  rfl

end Func

/-! ## The values of a join -/

namespace Stack

def joins (s : Stack) : List NodeId := s.frames.map Frame.join

end Stack

structure Func.Opens (f : Func) (v : VarId) (j : NodeId) : Prop where
  block : j ∈ f.blocks
  several : 2 ≤ (f.preds j).length
  unjoined : f.joined? j v = none

def Clear (f : Func) (v : VarId) (s : Stack) : Reach → Prop
  | .undefined => True
  | .timeline t => ∃ b ∈ f.blocks, f.explicit? b v = some t
  | .pending k => k ∈ s.joins ∧ f.explicit? k v = none
  | .join k => f.explicit? k v = none

inductive Carries (f : Func) (v : VarId) (s : Stack) (p : NodeId) : Reach → Prop
  | explicit {t : TimelineId} (h : f.explicit? p v = some t) : Carries f v s p (.timeline t)
  | known {w : Reach} (h : f.explicit? p v = none) (hw : f.rise v p = .known w) :
      Carries f v s p w
  | pending {j : NodeId} (h : f.explicit? p v = none) (hj : f.rise v p = .opens j)
      (hm : j ∈ s.joins) : Carries f v s p (.pending j)
  | top {j : NodeId} {r : Reach} (h : f.explicit? p v = none) (hj : f.rise v p = .opens j)
      (ht : s.tops.lookup j = some r) : Carries f v s p r

structure Extends (s s' : Stack) : Prop where
  leaf : s'.leaf = s.leaf
  var : s'.var = s.var
  tops : ∀ {j r}, s.tops.lookup j = some r → s'.tops.lookup j = some r
  joins : ∀ {j}, j ∈ s.joins → j ∈ s'.joins
  length : s.frames.length ≤ s'.frames.length
  frame : ∀ {j r}, s.tops.lookup j = some r → s'.frame j = s.frame j
  phis : ∀ {j r}, s.tops.lookup j = some r → (j ∈ s'.phis ↔ j ∈ s.phis)
  rep : ∀ {a b}, s.rep a = s.rep b → s'.rep a = s'.rep b

theorem Extends.refl (s : Stack) : Extends s s :=
  ⟨rfl, rfl, fun h => h, fun h => h, le_refl _, fun _ => rfl, fun _ => Iff.rfl, fun h => h⟩

theorem Extends.trans {s s' s'' : Stack} (h : Extends s s') (h' : Extends s' s'') :
    Extends s s'' where
  leaf := h'.leaf.trans h.leaf
  var := h'.var.trans h.var
  tops hj := h'.tops (h.tops hj)
  joins hj := h'.joins (h.joins hj)
  length := Nat.le_trans h.length h'.length
  frame hj := (h'.frame (h.tops hj)).trans (h.frame hj)
  phis hj := (h'.phis (h.tops hj)).trans (h.phis hj)
  rep hr := h'.rep (h.rep hr)

theorem Carries.extends {f : Func} {v : VarId} {s s' : Stack} {p : NodeId} {r : Reach}
    (h : Carries f v s p r) (hs : Extends s s') : Carries f v s' p r := by
  cases h with
  | explicit h => exact .explicit h
  | known h hw => exact .known h hw
  | pending h hj hm => exact .pending h hj (hs.joins hm)
  | top h hj ht => exact .top h hj (hs.tops ht)

theorem Clear.extends {f : Func} {v : VarId} {s s' : Stack} {r : Reach} (h : Clear f v s r)
    (hs : Extends s s') : Clear f v s' r := by
  cases r with
  | pending k => exact ⟨hs.joins h.1, h.2⟩
  | _ => exact h

structure Searching (f : Func) (v : VarId) (active : List NodeId) (s : Stack) : Prop where
  total : s.Total
  nodup : s.joins.Nodup
  block : ∀ {j}, j ∈ s.joins → f.Opens v j
  seen : ∀ {j}, j ∈ s.joins → Sees f.preds (f.Decides v) s.leaf j
  met : ∀ {j}, j ∈ s.joins ↔ j ∈ active ∨ (s.tops.lookup j).isSome
  active_nodup : active.Nodup
  pending : ∀ {j}, j ∈ active → s.tops.lookup j = none
  length : s.tops.length + active.length = s.frames.length
  phis_nodup : s.phis.Nodup
  phi : ∀ {j}, j ∈ s.phis → s.tops.lookup j = some (.join j)
  result : ∀ {j k}, s.tops.lookup j = some (.join k) → k ∈ s.phis
  clear : ∀ {j r}, s.tops.lookup j = some r → r = .join j ∨ Clear f v s r
  preds : ∀ {j r}, s.tops.lookup j = some r → (s.frame j).preds = f.preds j
  values : ∀ {j r}, s.tops.lookup j = some r →
    List.Forall₂ (Carries f v s) (f.preds j) (s.frame j).values
  dropped_nodup : (s.replaced.map Prod.fst).Nodup
  dropped_phi : ∀ {j r}, s.replaced.lookup j = some r → j ∈ s.phis
  dropped_to : ∀ {j r}, s.replaced.lookup j = some r →
    Clear f v s r ∧ ∀ k, r = .join k → k ∈ s.phis
  agree : ∀ {j r}, s.tops.lookup j = some r → j ∉ s.phis ∨ (s.replaced.lookup j).isSome →
    ∀ w ∈ (s.frame j).values, s.rep w = s.rep (.pending j)

namespace Searching

variable {f : Func} {v : VarId} {active : List NodeId} {s : Stack}

theorem phi_mem_joins (h : Searching f v active s) {j : NodeId} (hj : j ∈ s.phis) :
    j ∈ s.joins :=
  h.met.mpr (Or.inr (by rw [h.phi hj, Option.isSome_some]))

theorem phis_length (h : Searching f v active s) : s.phis.length ≤ s.frames.length := by
  have := (h.phis_nodup.subperm fun _ hj => h.phi_mem_joins hj).length_le
  rwa [Stack.joins, List.length_map] at this

theorem dropped_length (h : Searching f v active s) : s.replaced.length ≤ s.phis.length := by
  have hsub : ∀ j ∈ s.replaced.map Prod.fst, j ∈ s.phis := by
    intro j hj
    cases hl : s.replaced.lookup j with
    | some r => exact h.dropped_phi hl
    | none =>
      obtain ⟨⟨_, r⟩, he, rfl⟩ := List.mem_map.mp hj
      exact absurd (List.lookup_eq_none_iff.mp hl _ he) (by simp)
  have := (h.dropped_nodup.subperm hsub).length_le
  rwa [List.length_map] at this

theorem bounded (h : Searching f v active s) :
    s.tops.length + s.replaced.length ≤ 2 * s.frames.length + 1 := by
  have h1 := h.length
  have h2 := h.phis_length
  have h3 := h.dropped_length
  omega

theorem clear_rep (h : Searching f v active s) {r : Reach} (hr : Clear f v s r) :
    Clear f v s (s.rep r) := by
  refine Stack.rep_induct h.total (fun {a b} hn ha => ?_) hr
  cases a with
  | pending k =>
    rcases h.clear hn with rfl | hc
    · exact ha.2
    · exact hc
  | join k => exact (h.dropped_to hn).1
  | _ => simp at hn

/-- A join among the ends of the chains has been completed as one. -/
theorem phi_of_rep (h : Searching f v active s) {r : Reach} {k : NodeId}
    (hr : s.rep r = .join k) : r = .join k ∨ k ∈ s.phis := by
  refine Stack.rep_induct (P := fun a => a = .join k → r = .join k ∨ k ∈ s.phis) h.total
    (fun {a b} hn _ hb => ?_) Or.inl hr
  subst hb
  cases a with
  | pending b => exact Or.inr (h.result hn)
  | join b => exact Or.inr ((h.dropped_to hn).2 k rfl)
  | _ => simp at hn

theorem start (f : Func) (v : VarId) (leaf : NodeId) :
    Searching f v [] (Stack.start leaf v) where
  total r := by cases r <;> exact ⟨_, rfl⟩
  nodup := by simp [Stack.start, Stack.joins]
  block h := by simp [Stack.start, Stack.joins] at h
  seen h := by simp [Stack.start, Stack.joins] at h
  met := by simp [Stack.start, Stack.joins]
  active_nodup := List.nodup_nil
  pending h := by simp at h
  length := rfl
  phis_nodup := by simp [Stack.start]
  phi h := by simp [Stack.start] at h
  result h := by simp [Stack.start] at h
  clear h := by simp [Stack.start] at h
  preds h := by simp [Stack.start] at h
  values h := by simp [Stack.start] at h
  dropped_nodup := List.nodup_nil
  dropped_phi h := by simp [Stack.start] at h
  dropped_to h := by simp [Stack.start] at h
  agree h := by simp [Stack.start] at h

theorem lookup_new (h : Searching f v active s) {j : NodeId} (hj : j ∉ s.joins) :
    s.tops.lookup j = none := by
  cases hl : s.tops.lookup j with
  | none => rfl
  | some r => exact absurd (h.met.mpr (Or.inr (by simp [hl]))) hj

theorem mem_joins_opened {x : Frame} {k : NodeId} :
    k ∈ ({ s with frames := s.frames ++ [x] } : Stack).joins ↔ k ∈ s.joins ∨ k = x.join := by
  simp [Stack.joins]

theorem frame_opened (h : Searching f v active s) {x : Frame} (hx : x.join ∉ s.joins)
    {k : NodeId} {r : Reach} (hk : s.tops.lookup k = some r) :
    ({ s with frames := s.frames ++ [x] } : Stack).frame k = s.frame k := by
  refine Stack.frame_append ?_
  rintro rfl
  rw [h.lookup_new hx] at hk
  cases hk

theorem extends_opened (h : Searching f v active s) {x : Frame} (hx : x.join ∉ s.joins) :
    Extends s { s with frames := s.frames ++ [x] } where
  leaf := rfl
  var := rfl
  tops h := h
  joins hk := mem_joins_opened.mpr (Or.inl hk)
  length := by simp
  frame hk := h.frame_opened hx hk
  phis _ := Iff.rfl
  rep hr := by
    have hrep := @Stack.rep_congr_entries s { s with frames := s.frames ++ [x] } rfl rfl
    rw [hrep, hrep, hr]

theorem opened (h : Searching f v active s) {x : Frame} (hx : x.join ∉ s.joins)
    (hb : f.Opens v x.join) (ha : Sees f.preds (f.Decides v) s.leaf x.join) :
    Searching f v (x.join :: active) { s with frames := s.frames ++ [x] } := by
  have hext := h.extends_opened hx
  have hrep := @Stack.rep_congr_entries s { s with frames := s.frames ++ [x] } rfl rfl
  exact {
    total := Stack.total_congr_entries (s := s) rfl rfl h.total
    nodup := by
      have hjoins : ({ s with frames := s.frames ++ [x] } : Stack).joins =
          s.joins ++ [x.join] := by simp [Stack.joins]
      exact hjoins ▸ nodup_concat h.nodup hx
    block := fun hk => by
      rcases mem_joins_opened.mp hk with hk | rfl
      · exact h.block hk
      · exact hb
    seen := fun hk => by
      rcases mem_joins_opened.mp hk with hk | rfl
      · exact h.seen hk
      · exact ha
    met := fun {k} => by
      rw [mem_joins_opened, List.mem_cons, h.met]
      constructor
      · rintro ((hk | hk) | hk)
        · exact Or.inl (Or.inr hk)
        · exact Or.inr hk
        · exact Or.inl (Or.inl hk)
      · rintro ((hk | hk) | hk)
        · exact Or.inr hk
        · exact Or.inl (Or.inl hk)
        · exact Or.inl (Or.inr hk)
    active_nodup := List.nodup_cons.mpr ⟨fun hm => hx (h.met.mpr (Or.inl hm)), h.active_nodup⟩
    pending := fun hk => by
      rcases List.mem_cons.mp hk with rfl | hk
      · exact h.lookup_new hx
      · exact h.pending hk
    length := by
      have := h.length
      simp only [List.length_cons, List.length_append, List.length_nil]
      omega
    phis_nodup := h.phis_nodup
    phi := h.phi
    result := h.result
    clear := fun hk => (h.clear hk).imp_right fun hc => hc.extends hext
    preds := fun hk => by rw [h.frame_opened hx hk]; exact h.preds hk
    values := fun hk => by
      rw [h.frame_opened hx hk]
      exact (h.values hk).imp fun _ _ hc => hc.extends hext
    dropped_nodup := h.dropped_nodup
    dropped_phi := h.dropped_phi
    dropped_to := fun hk => ⟨(h.dropped_to hk).1.extends hext, (h.dropped_to hk).2⟩
    agree := fun hk hn w hw => by
      rw [h.frame_opened hx hk] at hw
      rw [hrep, hrep]
      exact h.agree hk hn w hw }

/-- The values of an active join never name the join itself. -/
theorem not_phi (h : Searching f v active s) {j : NodeId} (hj : j ∈ active) : j ∉ s.phis := by
  intro hm
  have := h.phi hm
  rw [h.pending hj] at this
  cases this

theorem not_dropped (h : Searching f v active s) {j : NodeId} (hj : j ∈ active) :
    s.replaced.lookup j = none := by
  cases hl : s.replaced.lookup j with
  | none => rfl
  | some r => exact absurd (h.dropped_phi hl) (h.not_phi hj)

theorem carried_join (G : f.Net) (h : Searching f v active s) {p k : NodeId}
    (hp : p ∈ f.blocks) (hc : Carries f v s p (.join k)) : k ∈ s.phis := by
  cases hc with
  | known _ hw => rcases Func.rise_known G hp hw with hr | ⟨t, hr, _⟩ <;> cases hr
  | top _ _ ht => exact h.result ht

theorem clear_carried (G : f.Net) (h : Searching f v active s) {p : NodeId} {w : Reach}
    (hp : p ∈ f.blocks) (hc : Carries f v s p w) : Clear f v s w := by
  cases hc with
  | explicit he => exact ⟨p, hp, he⟩
  | known _ hw =>
    rcases Func.rise_known G hp hw with rfl | ⟨t, rfl, hb⟩
    · exact trivial
    · exact hb
  | pending he hj hm => exact ⟨hm, Func.clear_of_opens G hp hj he⟩
  | top he hj ht =>
    rcases h.clear ht with rfl | hc
    · exact Func.clear_of_opens G hp hj he
    · exact hc

theorem rep_carried_join (G : f.Net) (h : Searching f v active s) {p k : NodeId} {w : Reach}
    (hp : p ∈ f.blocks) (hc : Carries f v s p w) (hr : s.rep w = .join k) : k ∈ s.phis := by
  rcases h.phi_of_rep hr with rfl | hk
  · exact h.carried_join G hp hc
  · exact hk

end Searching

namespace Stack

def joinResult (s : Stack) (join : NodeId) (values : List Reach) : Reach :=
  match s.others join values with
  | [] => .undefined
  | [r] => r
  | _ => .join join

def joinPhis (s : Stack) (join : NodeId) (values : List Reach) : List NodeId :=
  match s.others join values with
  | [] => s.phis
  | [_] => s.phis
  | _ => s.phis ++ [join]

def completed (s : Stack) (join : NodeId) (preds : List NodeId) (values : List Reach) : Stack :=
  let result := s.joinResult join values
  ({ s with phis := s.joinPhis join values, tops := (join, result) :: s.tops } : Stack).setFrame
    ⟨join, preds, values, result⟩

variable {s : Stack} {join : NodeId} {values : List Reach}

/-- A join is dropped for what all its paths stand for, or it is kept. -/
theorem joinResult_cases (s : Stack) (join : NodeId) (values : List Reach) :
    (s.joinPhis join values = s.phis ∧ s.others join values = [] ∧
      s.joinResult join values = .undefined) ∨
    (s.joinPhis join values = s.phis ∧ s.others join values = [s.joinResult join values]) ∨
    (s.joinPhis join values = s.phis ++ [join] ∧ s.joinResult join values = .join join) := by
  rw [joinPhis, joinResult]
  match s.others join values with
  | [] => exact Or.inl ⟨rfl, rfl, rfl⟩
  | [r] => exact Or.inr (Or.inl ⟨rfl, rfl⟩)
  | r :: r' :: rs => exact Or.inr (Or.inr ⟨rfl, rfl⟩)

theorem mem_joinPhis {k : NodeId} :
    k ∈ s.joinPhis join values ↔ k ∈ s.phis ∨ (k = join ∧ s.joinPhis join values ≠ s.phis) := by
  rcases s.joinResult_cases join values with ⟨hp, _⟩ | ⟨hp, _⟩ | ⟨hp, _⟩ <;> simp [hp]

theorem joinPhis_nodup (h : s.phis.Nodup) (hj : join ∉ s.phis) :
    (s.joinPhis join values).Nodup := by
  rcases s.joinResult_cases join values with ⟨hp, _⟩ | ⟨hp, _⟩ | ⟨hp, _⟩
  · rw [hp]; exact h
  · rw [hp]; exact h
  · rw [hp]; exact nodup_concat h hj

theorem joinResult_of_phi (h : s.joinPhis join values ≠ s.phis) :
    s.joinResult join values = .join join := by
  rcases s.joinResult_cases join values with ⟨hp, _⟩ | ⟨hp, _⟩ | ⟨_, hr⟩
  · exact absurd hp h
  · exact absurd hp h
  · exact hr

variable {preds : List NodeId} {k : NodeId}

theorem joins_completed : (s.completed join preds values).joins = s.joins :=
  joins_setFrame _

theorem lookup_completed : (s.completed join preds values).tops.lookup k =
    if k = join then some (s.joinResult join values) else s.tops.lookup k :=
  lookup_cons_ite

theorem frame_completed_self (h : join ∈ s.joins) :
    (s.completed join preds values).frame join =
      ⟨join, preds, values, s.joinResult join values⟩ :=
  frame_setFrame_self (x := ⟨join, preds, values, s.joinResult join values⟩) h

theorem frame_completed_of_ne (hk : k ≠ join) :
    (s.completed join preds values).frame k = s.frame k :=
  frame_setFrame_of_ne (x := ⟨join, preds, values, s.joinResult join values⟩) hk

end Stack

namespace Searching

variable {f : Func} {v : VarId} {active : List NodeId} {s : Stack} {j : NodeId}
variable {values : List Reach}

theorem settled_result (G : f.Net) (h : Searching f v (j :: active) s) (hj : j ∈ f.blocks)
    (hv : List.Forall₂ (Carries f v s) (f.preds j) values) :
    s.next? (s.joinResult j values) = none ∧ s.joinResult j values ≠ .pending j ∧
      (∀ k, s.joinResult j values = .join k → k ∈ s.joinPhis j values) ∧
      (s.joinResult j values = .join j ∨ Clear f v s (s.joinResult j values)) := by
  rcases s.joinResult_cases j values with ⟨_, _, hr⟩ | ⟨hp, ho⟩ | ⟨hp, hr⟩
  · rw [hr]
    exact ⟨rfl, by simp, by simp, Or.inr trivial⟩
  · obtain ⟨⟨w, hw, hrep⟩, hself⟩ := Stack.mem_others (ho ▸ List.mem_singleton_self _)
    obtain ⟨p, hm, hc⟩ := forall₂_right hv hw
    refine ⟨hrep ▸ Stack.next?_rep h.total w, ?_, ?_, Or.inr ?_⟩
    · intro he
      simp [Stack.isSelf, he] at hself
    · intro k hk
      rw [hp]
      exact h.rep_carried_join G (G.mem hj hm) hc (hrep.trans hk)
    · exact hrep ▸ h.clear_rep (h.clear_carried G (G.mem hj hm) hc)
  · rw [hr, hp]
    refine ⟨h.not_dropped List.mem_cons_self, by simp, ?_, Or.inl rfl⟩
    rintro k ⟨⟩
    simp

theorem agree_result (G : f.Net) (h : Searching f v (j :: active) s) (hj : j ∈ f.blocks)
    (hv : List.Forall₂ (Carries f v s) (f.preds j) values)
    (hd : s.joinPhis j values = s.phis) {w : Reach} (hw : w ∈ values) :
    s.rep w = .pending j ∨ s.rep w = s.joinResult j values := by
  have hself : Stack.isSelf j (s.rep w) = true → s.rep w = .pending j := by
    intro hs
    simp only [Stack.isSelf, Bool.or_eq_true, decide_eq_true_eq] at hs
    refine hs.resolve_right fun he => ?_
    obtain ⟨p, hm, hc⟩ := forall₂_right hv hw
    exact h.not_phi List.mem_cons_self (h.rep_carried_join G (G.mem hj hm) hc he)
  rcases s.joinResult_cases j values with ⟨_, ho, _⟩ | ⟨_, ho⟩ | ⟨hp, _⟩
  · exact Or.inl (hself ((Stack.mem_others_of_mem hw).resolve_right (by simp [ho])))
  · exact (Stack.mem_others_of_mem hw).imp hself fun hm => List.mem_singleton.mp (ho ▸ hm)
  · simp [hp] at hd

theorem enters_completed (G : f.Net) (h : Searching f v (j :: active) s)
    (hv : List.Forall₂ (Carries f v s) (f.preds j) values) :
    Stack.Enters s (s.completed j (f.preds j) values) (.pending j) (s.joinResult j values) := by
  have hjb := (h.block (h.met.mpr (Or.inl List.mem_cons_self))).block
  obtain ⟨hset, hne, _⟩ := h.settled_result G hjb hv
  exact Stack.enters_top (h.pending List.mem_cons_self) hset hne

/-- Joins that have been completed before are not the innermost one. -/
theorem ne_of_lookup (h : Searching f v (j :: active) s) {k : NodeId} {r : Reach}
    (hk : s.tops.lookup k = some r) : k ≠ j := by
  rintro rfl
  rw [h.pending List.mem_cons_self] at hk
  cases hk

theorem extends_completed (G : f.Net) (h : Searching f v (j :: active) s)
    (hv : List.Forall₂ (Carries f v s) (f.preds j) values) :
    Extends s (s.completed j (f.preds j) values) where
  leaf := rfl
  var := rfl
  tops hk := by rw [Stack.lookup_completed, if_neg (h.ne_of_lookup hk), hk]
  joins hk := by rw [Stack.joins_completed]; exact hk
  length := by simp [Stack.completed, Stack.setFrame]
  frame hk := Stack.frame_completed_of_ne (h.ne_of_lookup hk)
  phis hk := Stack.mem_joinPhis.trans (or_iff_left fun hc => h.ne_of_lookup hk hc.1)
  rep hr := by
    have hrep := (h.enters_completed G hv).rep h.total
    rw [hrep, hrep, hr]

/-- All values of the innermost join agree with it if it has been dropped. -/
theorem agree_completed (G : f.Net) (h : Searching f v (j :: active) s)
    (hv : List.Forall₂ (Carries f v s) (f.preds j) values)
    (hn : j ∉ s.joinPhis j values ∨ (s.replaced.lookup j).isSome) {w : Reach} (hw : w ∈ values) :
    (s.completed j (f.preds j) values).rep w =
      (s.completed j (f.preds j) values).rep (.pending j) := by
  have hjb := (h.block (h.met.mpr (Or.inl List.mem_cons_self))).block
  have hnone : s.tops.lookup j = none := h.pending List.mem_cons_self
  have hn : j ∉ s.joinPhis j values := by
    refine hn.resolve_right fun hd => ?_
    rw [h.not_dropped List.mem_cons_self] at hd
    cases hd
  have hd : s.joinPhis j values = s.phis :=
    by_contra fun hd => hn (Stack.mem_joinPhis.mpr (Or.inr ⟨rfl, hd⟩))
  have hrep := (h.enters_completed G hv).rep h.total
  rw [hrep, hrep, Stack.rep_of_settled h.total (r := .pending j) hnone]
  rcases h.agree_result G hjb hv hd hw with he | he
  · rw [he]
  · rw [he]
    simp

theorem completed (G : f.Net) (h : Searching f v (j :: active) s)
    (hv : List.Forall₂ (Carries f v s) (f.preds j) values) :
    Searching f v active (s.completed j (f.preds j) values) := by
  have hmem : j ∈ s.joins := h.met.mpr (Or.inl List.mem_cons_self)
  obtain ⟨_, _, hjoin, hclear⟩ := h.settled_result G (h.block hmem).block hv
  obtain ⟨hja, hact⟩ := List.nodup_cons.mp h.active_nodup
  have hext := h.extends_completed G hv
  exact {
    total := (h.enters_completed G hv).total h.total
    nodup := by rw [Stack.joins_completed]; exact h.nodup
    block := fun hk => h.block (Stack.joins_completed ▸ hk)
    seen := fun hk => h.seen (Stack.joins_completed ▸ hk)
    met := fun {k} => by
      rw [Stack.joins_completed, h.met, List.mem_cons, Stack.lookup_completed]
      by_cases hk : k = j
      · simp [hk]
      · simp [hk]
    active_nodup := hact
    pending := fun {k} hk => by
      have hkj : k ≠ j := fun he => hja (he ▸ hk)
      rw [Stack.lookup_completed, if_neg hkj]
      exact h.pending (List.mem_cons_of_mem _ hk)
    length := by
      have := h.length
      simp only [Stack.completed, Stack.setFrame, List.length_cons, List.length_map] at this ⊢
      omega
    phis_nodup := Stack.joinPhis_nodup h.phis_nodup (h.not_phi List.mem_cons_self)
    phi := fun {k} hk => by
      rcases Stack.mem_joinPhis.mp hk with hm | ⟨rfl, hm⟩
      · exact hext.tops (h.phi hm)
      · rw [Stack.lookup_completed, if_pos rfl, Stack.joinResult_of_phi hm]
    result := fun {i k} hk => by
      rw [Stack.lookup_completed] at hk
      by_cases hi : i = j
      · rw [if_pos hi, Option.some.injEq] at hk
        exact hjoin k hk
      · rw [if_neg hi] at hk
        exact Stack.mem_joinPhis.mpr (Or.inl (h.result hk))
    clear := fun {i r} hk => by
      rw [Stack.lookup_completed] at hk
      by_cases hi : i = j
      · rw [if_pos hi, Option.some.injEq] at hk
        rw [← hk, hi]
        exact hclear.imp_right fun hc => hc.extends hext
      · rw [if_neg hi] at hk
        exact (h.clear hk).imp_right fun hc => hc.extends hext
    preds := fun {k r} hk => by
      by_cases hi : k = j
      · rw [hi, Stack.frame_completed_self hmem]
      · rw [Stack.lookup_completed, if_neg hi] at hk
        rw [Stack.frame_completed_of_ne hi]
        exact h.preds hk
    values := fun {k r} hk => by
      by_cases hi : k = j
      · rw [hi, Stack.frame_completed_self hmem]
        exact hv.imp fun _ _ hc => hc.extends hext
      · rw [Stack.lookup_completed, if_neg hi] at hk
        rw [Stack.frame_completed_of_ne hi]
        exact (h.values hk).imp fun _ _ hc => hc.extends hext
    dropped_nodup := h.dropped_nodup
    dropped_phi := fun hk => Stack.mem_joinPhis.mpr (Or.inl (h.dropped_phi hk))
    dropped_to := fun hk => ⟨(h.dropped_to hk).1.extends hext,
      fun k hr => Stack.mem_joinPhis.mpr (Or.inl ((h.dropped_to hk).2 k hr))⟩
    agree := fun {k r} hk hn w hw => by
      by_cases hi : k = j
      · subst hi
        rw [Stack.frame_completed_self hmem] at hw
        exact h.agree_completed G hv hn hw
      · rw [Stack.lookup_completed, if_neg hi] at hk
        rw [Stack.frame_completed_of_ne hi] at hw
        have hn := hn.imp_left fun hn hm => hn (Stack.mem_joinPhis.mpr (Or.inl hm))
        exact hext.rep (h.agree hk hn w hw) }

end Searching

/-! ## The whole search -/

namespace Func

variable {f : Func} {v : VarId}

def searchPath (f : Func) (v : VarId) (n : Nat) (active : List NodeId)
    (acc : List Reach × Stack) (p : NodeId) : Except EditError (List Reach × Stack) := do
  let (values, s) := acc
  match f.explicit? p v with
  | some t => return (values ++ [.timeline t], s)
  | none =>
    match f.walk v active s.tops p with
    | .known r => return (values ++ [r], s)
    | .opens inner =>
      let (r, s) ← f.searchJoin v n active inner s
      return (values ++ [r], s)

theorem searchJoin_succ (n : Nat) (active : List NodeId) (join : NodeId) (s : Stack) :
    f.searchJoin v (n + 1) active join s = do
      let (values, s) ← (f.preds join).foldlM (f.searchPath v n (join :: active))
        ([], { s with frames := s.frames ++ [⟨join, f.preds join, [], .undefined⟩] })
      let (result, s) ← do
        match ← s.distinct f join values with
        | [] => pure (.undefined, s)
        | [r] => pure (r, s)
        | _ => pure (.join join, { s with phis := s.phis ++ [join] })
      let s := { s with tops := (join, result) :: s.tops }
      return (result, s.setFrame ⟨join, f.preds join, values, result⟩) := rfl

structure Lasts (f : Func) (v : VarId) (I : Stack → Prop) : Prop where
  withRoot : ∀ {s r}, I s → I { s with root := r }
  opened : ∀ {active s x}, Searching f v active s → x.join ∉ s.joins → I s →
    I { s with frames := s.frames ++ [x] }
  completed : ∀ {active s j values}, Searching f v (j :: active) s →
    List.Forall₂ (Carries f v s) (f.preds j) values → I s → I (s.completed j (f.preds j) values)
  dropped : ∀ {s j c}, Searching f v [] s → j ∈ s.phis → s.replaced.lookup j = none →
    (s.others j (s.frame j).values = [] ∧ c = .undefined) ∨ s.others j (s.frame j).values = [c] →
    I s → I { s with replaced := (j, c) :: s.replaced }

theorem Lasts.trivial (f : Func) (v : VarId) : Lasts f v fun _ => True :=
  ⟨fun h => h, fun _ _ h => h, fun _ _ h => h, fun _ _ _ _ h => h⟩

def Searches (f : Func) (v : VarId) (I : Stack → Prop) (n : Nat) : Prop :=
  ∀ {active : List NodeId} {j : NodeId} {s : Stack}, Searching f v active s → I s → j ∉ s.joins →
    f.Opens v j → Sees f.preds (f.Decides v) s.leaf j →
    f.blocks.length ≤ n + s.frames.length →
    ∃ r s', f.searchJoin v n active j s = .ok (r, s') ∧ Searching f v active s' ∧ I s' ∧
      Extends s s' ∧ s'.tops.lookup j = some r

variable {I : Stack → Prop}

theorem searchPath_ok (G : f.Net) {n : Nat} (hn : Searches f v I n) {active : List NodeId}
    (values : List Reach) {s : Stack} (h : Searching f v active s) (hI : I s) {p : NodeId}
    (hp : p ∈ f.blocks) (hs : ¬ f.Decides v p → Sees f.preds (f.Decides v) s.leaf p)
    (hb : f.blocks.length ≤ n + s.frames.length) :
    ∃ r s', f.searchPath v n active (values, s) p = .ok (values ++ [r], s') ∧
      Searching f v active s' ∧ I s' ∧ Extends s s' ∧ Carries f v s' p r := by
  rw [searchPath]
  cases he : f.explicit? p v with
  | some t => exact ⟨_, s, by simp [pure, Except.pure], h, hI, .refl s, .explicit he⟩
  | none =>
    have hw := walk_of_explicit? he active s.tops
    cases hr : f.rise v p with
    | known r =>
      simp only [hr] at hw
      exact ⟨r, s, by simp [hw, pure, Except.pure], h, hI, .refl s, .known he hr⟩
    | opens j =>
      obtain ⟨hjb, hjp, hsees⟩ := rise_opens G hp hr
      simp only [hr] at hw
      by_cases ha : j ∈ active
      · rw [if_pos (by simpa using ha)] at hw
        exact ⟨.pending j, s, by simp [hw, pure, Except.pure], h, hI, .refl s,
          .pending he hr (h.met.mpr (Or.inl ha))⟩
      rw [if_neg (by simpa using ha)] at hw
      cases ht : s.tops.lookup j with
      | some r =>
        simp only [ht] at hw
        exact ⟨r, s, by simp [hw, pure, Except.pure], h, hI, .refl s, .top he hr ht⟩
      | none =>
        simp only [ht] at hw
        have hj : j ∉ s.joins := fun hm => (h.met.mp hm).elim ha (by simp [ht])
        obtain ⟨r, s', hs, hs', hI', hext, hr'⟩ := hn h hI hj
          ⟨hjb, hjp, joined?_of_explicit? (clear_of_opens G hp hr he)⟩
          ((hs (not_decides.mpr he)).trans hsees) hb
        exact ⟨r, s', by simp [hw, hs, bind, Except.bind, pure, Except.pure], hs', hI', hext,
          .top he hr hr'⟩

theorem searchPaths_ok (G : f.Net) {n : Nat} (hn : Searches f v I n) {active : List NodeId}
    {done : List NodeId} (ps : List NodeId) {values : List Reach} {s : Stack}
    (h : Searching f v active s) (hI : I s) (hv : List.Forall₂ (Carries f v s) done values)
    (hp : ∀ p ∈ ps, p ∈ f.blocks)
    (hs : ∀ p ∈ ps, ¬ f.Decides v p → Sees f.preds (f.Decides v) s.leaf p)
    (hb : f.blocks.length ≤ n + s.frames.length) :
    ∃ values' s', ps.foldlM (f.searchPath v n active) (values, s) = .ok (values', s') ∧
      Searching f v active s' ∧ I s' ∧ Extends s s' ∧
      List.Forall₂ (Carries f v s') (done ++ ps) values' := by
  induction ps generalizing done values s with
  | nil => exact ⟨values, s, rfl, h, hI, .refl s, by simpa using hv⟩
  | cons p ps ih =>
    obtain ⟨r, s', hrun, hs', hI', hext, hc⟩ := searchPath_ok G hn values h hI
      (hp p List.mem_cons_self) (hs p List.mem_cons_self) hb
    have hv' : List.Forall₂ (Carries f v s') (done ++ [p]) (values ++ [r]) :=
      List.rel_append (hv.imp fun _ _ h => h.extends hext) (.cons hc .nil)
    obtain ⟨values', s'', hs'', h'', hI'', hext', hv''⟩ := ih hs' hI' hv'
      (fun q hq => hp q (List.mem_cons_of_mem _ hq))
      (fun q hq => hext.leaf ▸ hs q (List.mem_cons_of_mem _ hq))
      (Nat.le_trans hb (Nat.add_le_add_left hext.length n))
    refine ⟨values', s'', ?_, h'', hI'', hext.trans hext', by simpa using hv''⟩
    rw [List.foldlM_cons, hrun]
    exact hs''

/-- As long as there is a join that has not been met, there are fewer frames than blocks. -/
theorem frames_lt {active : List NodeId} {j : NodeId} {s : Stack} (h : Searching f v active s)
    (hj : j ∉ s.joins) (hb : f.Opens v j) : s.frames.length < f.blocks.length := by
  have hsub : (j :: s.joins).Subperm f.blocks :=
    (List.nodup_cons.mpr ⟨hj, h.nodup⟩).subperm fun x hx => by
      rcases List.mem_cons.mp hx with rfl | hx
      · exact hb.block
      · exact (h.block hx).block
  have := hsub.length_le
  simp only [List.length_cons, Stack.joins, List.length_map] at this
  omega

/-- A join is completed as soon as its paths have been searched. -/
theorem searchJoin_close {n : Nat} {active active' : List NodeId} {j : NodeId} {s s' : Stack}
    {values : List Reach}
    (hpaths : (f.preds j).foldlM (f.searchPath v n (j :: active))
      ([], { s with frames := s.frames ++ [⟨j, f.preds j, [], .undefined⟩] }) = .ok (values, s'))
    (h : Searching f v active' s') :
    f.searchJoin v (n + 1) active j s =
      .ok (s'.joinResult j values, s'.completed j (f.preds j) values) := by
  rw [searchJoin_succ, hpaths]
  simp only [bind, Except.bind]
  rw [Stack.distinct_eq f h.total h.bounded]
  simp only [Stack.completed, Stack.joinResult, Stack.joinPhis]
  match s'.others j values with
  | [] => rfl
  | [r] => rfl
  | r :: r' :: rs => rfl

theorem searches (G : f.Net) (hlasts : Lasts f v I) (n : Nat) : Searches f v I n := by
  induction n with
  | zero =>
    -- All blocks have been met already.
    intro active j s h _ hj hb _ hlen
    have := frames_lt h hj hb
    omega
  | succ n ih =>
    intro active j s h hI hj hb ha hlen
    have ho := h.opened (x := ⟨j, f.preds j, [], .undefined⟩) hj hb ha
    have hext := h.extends_opened (x := ⟨j, f.preds j, [], .undefined⟩) hj
    obtain ⟨values, s', hs, h', hI', hext', hv⟩ := searchPaths_ok G ih (f.preds j) ho
      (hlasts.opened h hj hI) (List.Forall₂.nil (R := Carries f v _))
      (fun p hm => G.mem hb.block hm)
      (fun p hm ho => ha.step hm ho) (by
        simp only [List.length_append, List.length_cons, List.length_nil]
        omega)
    rw [List.nil_append] at hv
    refine ⟨s'.joinResult j values, s'.completed j (f.preds j) values, searchJoin_close hs h',
      h'.completed G hv, hlasts.completed h' hv hI',
      (hext.trans hext').trans (h'.extends_completed G hv), ?_⟩
    show List.lookup j ((j, s'.joinResult j values) :: s'.tops) = _
    simp

end Func

end DefFlow.Flow
