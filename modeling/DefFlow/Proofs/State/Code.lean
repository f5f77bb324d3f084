import DefFlow.Proofs.State.Tables

/-!
# The instructions of a block

An instruction knows its block and its place in it, and the timelines list the
definitions of a block in the order of its instructions.
-/

set_option autoImplicit false

namespace DefFlow.Flow

/-! ## The last of some instructions -/

section

variable {α : Type} {p : α → Bool} {l : List α}

/-- The members of a part of a list are those at the places below its end. -/
theorem mem_filter_take {a : α} {n : Nat} :
    a ∈ (l.take n).filter p ↔ ∃ k, k < n ∧ l[k]? = some a ∧ p a = true := by
  rw [List.mem_filter, List.mem_iff_getElem?]
  constructor
  · rintro ⟨⟨k, hk⟩, hp⟩
    rw [List.getElem?_take] at hk
    split at hk
    · next hlt => exact ⟨k, hlt, hk, hp⟩
    · cases hk
  · rintro ⟨k, hlt, hk, hp⟩
    exact ⟨⟨k, by rw [List.getElem?_take, if_pos hlt, hk]⟩, hp⟩

theorem filter_take_eq_nil_iff {n : Nat} :
    (l.take n).filter p = [] ↔ ∀ k, k < n → ∀ a, l[k]? = some a → p a = false := by
  rw [List.eq_nil_iff_forall_not_mem]
  constructor
  · intro h k hk a ha
    by_contra hp
    exact h a (mem_filter_take.mpr ⟨k, hk, ha, by simpa using hp⟩)
  · intro h a ha
    obtain ⟨k, hk, hka, hp⟩ := mem_filter_take.mp ha
    rw [h k hk a hka] at hp
    cases hp

/-- The last member that passes a test is followed by none that does. -/
theorem getLast?_filter_take {a : α} {n : Nat} :
    ((l.take n).filter p).getLast? = some a ↔
      ∃ k, k < n ∧ l[k]? = some a ∧ p a = true ∧
        ∀ m, k < m → m < n → ∀ c, l[m]? = some c → p c = false := by
  induction n generalizing a with
  | zero => simp
  | succ n ih =>
    rw [List.take_add_one, List.filter_append]
    cases hn : l[n]? with
    | none =>
      have hlen := List.getElem?_eq_none_iff.mp hn
      simp only [Option.toList_none, List.filter_nil, List.append_nil, ih]
      constructor
      · rintro ⟨k, hk, ha, hp, hq⟩
        refine ⟨k, by omega, ha, hp, fun m hkm hm c hc => ?_⟩
        by_cases hmn : m = n
        · rw [hmn, hn] at hc
          cases hc
        · exact hq m hkm (by omega) c hc
      · rintro ⟨k, hk, ha, hp, hq⟩
        refine ⟨k, ?_, ha, hp, fun m hkm hm => hq m hkm (by omega)⟩
        by_contra hkn
        rw [show k = n by omega, hn] at ha
        cases ha
    | some c =>
      simp only [Option.toList_some]
      by_cases hc : p c = true
      · rw [List.filter_singleton, hc]
        simp only [cond_true, List.getLast?_append, List.getLast?_singleton, Option.some_or]
        constructor
        · rintro ⟨⟩
          exact ⟨n, by omega, hn, hc, fun m h1 h2 => by omega⟩
        · rintro ⟨k, hk, ha, hp, hq⟩
          by_cases hkn : k = n
          · rw [hkn, hn] at ha
            exact ha
          · rw [hq n (by omega) (by omega) c hn] at hc
            cases hc
      · rw [Bool.not_eq_true] at hc
        rw [List.filter_singleton, hc]
        simp only [cond_false, List.append_nil, ih]
        constructor
        · rintro ⟨k, hk, ha, hp, hq⟩
          refine ⟨k, by omega, ha, hp, fun m hkm hm d hd => ?_⟩
          by_cases hmn : m = n
          · rw [hmn, hn] at hd
            cases hd
            exact hc
          · exact hq m hkm (by omega) d hd
        · rintro ⟨k, hk, ha, hp, hq⟩
          refine ⟨k, ?_, ha, hp, fun m hkm hm => hq m hkm (by omega)⟩
          by_contra hkn
          rw [show k = n by omega, hn] at ha
          cases ha
          rw [hc] at hp
          cases hp

/-- In a list whose members know their places, those before a place stand first. -/
theorem takeWhile_filter {place : α → Nat} {m : Nat}
    (h : ∀ k a, l[k]? = some a → place a = k + m) (n : Nat) :
    (l.filter p).takeWhile (fun a => place a < n + m) = (l.take n).filter p := by
  induction l generalizing m n with
  | nil => simp
  | cons x l ih =>
    have hx : place x = m := by simpa using h 0 x rfl
    have hl : ∀ k a, l[k]? = some a → place a = k + (m + 1) := by
      intro k a ha
      rw [h (k + 1) a (by simpa using ha)]
      omega
    cases n with
    | zero =>
      have hall : ∀ a ∈ x :: l, ¬ place a < m := by
        intro a ha
        obtain ⟨k, hk⟩ := List.mem_iff_getElem?.mp ha
        rw [h k a hk]
        omega
      simp only [Nat.zero_add, List.take_zero, List.filter_nil]
      cases hf : (x :: l).filter p with
      | nil => rfl
      | cons y ys =>
        have hy : y ∈ (x :: l).filter p := hf ▸ List.mem_cons_self
        rw [List.takeWhile_cons, if_neg]
        simpa using hall y (List.mem_filter.mp hy).1
    | succ n =>
      have hih := ih hl n
      rw [List.take_succ_cons, List.filter_cons, List.filter_cons]
      have hm : (fun a => decide (place a < n + 1 + m)) =
          fun a => decide (place a < n + (m + 1)) := by
        funext a
        rw [show n + 1 + m = n + (m + 1) by omega]
      split
      · rw [List.takeWhile_cons, if_pos (by rw [hx]; simp), hm, hih]
      · rw [hm, hih]

end

namespace Func

def defines (f : Func) (v : VarId) (i : InstId) : Bool := (f.inst i).dest.any fun d => d.var = v

def code (f : Func) (b : NodeId) : List InstId := (f.blockAt b).instructions

/-- The operand place `u` of an instruction of `b` holds a use of `v`. -/
structure UsedAt (f : Func) (b : NodeId) (v : VarId) (u : UseSite) : Prop where
  block : (f.inst u.inst).block = some b
  operand : (f.inst u.inst).operands[u.slot]? = some (.use v)

structure Scheduled (f : Func) : Prop where
  place : ∀ {b k i}, (f.code b)[k]? = some i →
    ∃ x, f.insts.get? i = some x ∧ x.block = some b ∧ x.index = k
  home : ∀ {i x b}, f.insts.get? i = some x → x.block = some b →
    (f.code b)[x.index]? = some i
  phis : ∀ b, (f.blockAt b).phiCount ≤ (f.code b).length
  locals : ∀ b v, f.locals b v = (f.code b).filter (f.defines v)

variable {f : Func} {b : NodeId} {v : VarId}

theorem Scheduled.indexOf (h : f.Scheduled) {k : Nat} {i : InstId} (hi : (f.code b)[k]? = some i) :
    f.indexOf i = k := by
  obtain ⟨x, hx, _, hk⟩ := h.place hi
  rw [Func.indexOf, inst, hx, Option.getD_some, hk]

theorem Scheduled.nodup (h : f.Scheduled) (b : NodeId) : (f.code b).Nodup := by
  rw [List.Nodup, List.pairwise_iff_getElem]
  intro i j hi hj hij he
  have h1 := h.indexOf (List.getElem?_eq_getElem hi)
  have h2 := h.indexOf (List.getElem?_eq_getElem hj)
  rw [he] at h1
  omega

/-- The definition that a position sees in its own block. -/
theorem Scheduled.latestDefBefore? (h : f.Scheduled) (n : Nat) :
    f.latestDefBefore? b n v = (((f.code b).take n).filter (f.defines v)).getLast? := by
  have hl := h.locals b v
  rw [Func.latestDefBefore?]
  rw [Func.locals] at hl
  have hplace : ∀ k a, (f.code b)[k]? = some a → f.indexOf a = k + 0 := fun k a ha => h.indexOf ha
  have htake := takeWhile_filter (p := f.defines v) hplace n
  cases ht : f.timeline? b v with
  | none =>
    rw [ht] at hl
    rw [← htake, ← hl]
    rfl
  | some t =>
    rw [ht] at hl
    simp only at hl
    rw [Option.bind_some, lastBefore, ← htake, ← hl, List.takeWhile_map, List.getLast?_map]
    rfl

end Func
end DefFlow.Flow
