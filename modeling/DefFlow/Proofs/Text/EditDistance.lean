import DefFlow.Text.EditDistance
import Mathlib.Order.Bounds.Basic
import Mathlib.Data.List.Forall2
import Mathlib.Data.List.Induction

/-!
# The edit distance is the least number of edits

A row holds the distances from the bytes read so far to all starts of the other text. Main
statement: the last entry of the last row is the least number of bytes to insert, delete or
exchange, one after the other, to get from one text to the other; so it is a distance, and the
names that are suggested are those within two edits.
-/

set_option autoImplicit false

namespace DefFlow.Text

inductive Edited : List UInt8 → List UInt8 → Prop
  | insert (l r : List UInt8) (y : UInt8) : Edited (l ++ r) (l ++ y :: r)
  | delete (l r : List UInt8) (x : UInt8) : Edited (l ++ x :: r) (l ++ r)
  | exchange (l r : List UInt8) (x y : UInt8) : Edited (l ++ x :: r) (l ++ y :: r)

/-- So many edits, one after the other, lead from one text to the other. -/
inductive Edits : Nat → List UInt8 → List UInt8 → Prop
  | done (a : List UInt8) : Edits 0 a a
  | step {n : Nat} {a b c : List UInt8} (h : Edits n a b) (he : Edited b c) : Edits (n + 1) a c

inductive Aligned : Nat → List UInt8 → List UInt8 → Prop
  | nil : Aligned 0 [] []
  | insert {n : Nat} {a b : List UInt8} (y : UInt8) (h : Aligned n a b) :
      Aligned (n + 1) a (b ++ [y])
  | delete {n : Nat} {a b : List UInt8} (x : UInt8) (h : Aligned n a b) :
      Aligned (n + 1) (a ++ [x]) b
  | pair {n : Nat} {a b : List UInt8} (x y : UInt8) (h : Aligned n a b) :
      Aligned (n + if x = y then 0 else 1) (a ++ [x]) (b ++ [y])

section

variable {a b c d p q : List UInt8} {x y : UInt8} {i j k m n : Nat}

/-! ## Edits -/

theorem Edited.symm (h : Edited a b) : Edited b a := by
  cases h with
  | insert l r y => exact .delete l r y
  | delete l r x => exact .insert l r x
  | exchange l r x y => exact .exchange l r y x

theorem Edited.append_right (h : Edited a b) (c : List UInt8) : Edited (a ++ c) (b ++ c) := by
  cases h with
  | insert l r y => simpa using Edited.insert l (r ++ c) y
  | delete l r x => simpa using Edited.delete l (r ++ c) x
  | exchange l r x y => simpa using Edited.exchange l (r ++ c) x y

namespace Edits

theorem trans (h : Edits m a b) (h' : Edits n b c) : Edits (m + n) a c := by
  induction h' with
  | done => exact h
  | step _ he ih => exact .step (ih h) he

theorem symm (h : Edits n a b) : Edits n b a := by
  induction h with
  | done a => exact .done a
  | @step n a b c _ he ih => exact Nat.add_comm n 1 ▸ (Edits.step (.done c) he.symm).trans ih

theorem append_right (h : Edits n a b) (c : List UInt8) : Edits n (a ++ c) (b ++ c) := by
  induction h with
  | done a => exact .done (a ++ c)
  | step _ he ih => exact .step ih (he.append_right c)

theorem eq_of_zero (h : Edits 0 a b) : a = b := by
  cases h
  rfl

end Edits

/-! ## Alignments -/

namespace Aligned

theorem insert_all (q : List UInt8) : Aligned q.length [] q := by
  induction q using List.reverseRecOn with
  | nil => exact .nil
  | append_singleton q y ih => simpa using ih.insert y

theorem delete_all (p : List UInt8) : Aligned p.length p [] := by
  induction p using List.reverseRecOn with
  | nil => exact .nil
  | append_singleton p x ih => simpa using ih.delete x

theorem refl (a : List UInt8) : Aligned 0 a a := by
  induction a using List.reverseRecOn with
  | nil => exact .nil
  | append_singleton a x ih => simpa using ih.pair x x

theorem length_left_le (h : Aligned n a b) : a.length ≤ n + b.length := by
  induction h with
  | nil => simp
  | insert y _ ih => simp; omega
  | delete x _ ih => simp; omega
  | pair x y _ ih => simp; omega

theorem length_right_le (h : Aligned n a b) : b.length ≤ n + a.length := by
  induction h with
  | nil => simp
  | insert y _ ih => simp; omega
  | delete x _ ih => simp; omega
  | pair x y _ ih => simp; omega

theorem append (h : Aligned m a b) (h' : Aligned n c d) : Aligned (m + n) (a ++ c) (b ++ d) := by
  induction h' with
  | nil => simpa using h
  | insert y _ ih => simpa [← Nat.add_assoc] using ih.insert y
  | delete x _ ih => simpa [← Nat.add_assoc] using ih.delete x
  | pair x y _ ih => simpa [← Nat.add_assoc] using ih.pair x y

/-- An alignment with a text in two parts is one of two alignments. -/
theorem cut (h : Aligned n a b) {l r : List UInt8} (hb : b = l ++ r) : ∃ a₁ a₂ m₁ m₂,
    a = a₁ ++ a₂ ∧ n = m₁ + m₂ ∧ Aligned m₁ a₁ l ∧ Aligned m₂ a₂ r := by
  induction h generalizing r with
  | nil =>
    obtain ⟨rfl, rfl⟩ := List.append_eq_nil_iff.mp hb.symm
    exact ⟨[], [], 0, 0, rfl, rfl, .nil, .nil⟩
  | @insert n a b y h ih =>
    rcases List.eq_nil_or_concat' r with rfl | ⟨r, z, rfl⟩
    · obtain rfl : b ++ [y] = l := hb.trans (List.append_nil l)
      exact ⟨a, [], n + 1, 0, (List.append_nil a).symm, rfl, h.insert y, .nil⟩
    · rw [← List.append_assoc, List.append_singleton_inj] at hb
      obtain ⟨rfl, rfl⟩ := hb
      obtain ⟨a₁, a₂, m₁, m₂, rfl, rfl, h₁, h₂⟩ := ih rfl
      exact ⟨a₁, a₂, m₁, m₂ + 1, rfl, rfl, h₁, h₂.insert y⟩
  | @delete n a b x h ih =>
    obtain ⟨a₁, a₂, m₁, m₂, rfl, rfl, h₁, h₂⟩ := ih hb
    exact ⟨a₁, a₂ ++ [x], m₁, m₂ + 1, by simp, rfl, h₁, h₂.delete x⟩
  | @pair n a b x y h ih =>
    rcases List.eq_nil_or_concat' r with rfl | ⟨r, z, rfl⟩
    · obtain rfl : b ++ [y] = l := hb.trans (List.append_nil l)
      exact ⟨a ++ [x], [], _, 0, (List.append_nil _).symm, rfl, h.pair x y, .nil⟩
    · rw [← List.append_assoc, List.append_singleton_inj] at hb
      obtain ⟨rfl, rfl⟩ := hb
      obtain ⟨a₁, a₂, m₁, m₂, rfl, rfl, h₁, h₂⟩ := ih rfl
      exact ⟨a₁, a₂ ++ [x], m₁, _, by simp, Nat.add_assoc _ _ _, h₁, h₂.pair x y⟩

/-- Two texts that end in a byte are aligned with that of the one left out, that of the other, or
neither. -/
theorem snoc_cases (h : Aligned n (p ++ [x]) (q ++ [y])) :
    (∃ m, n = m + 1 ∧ Aligned m p (q ++ [y])) ∨ (∃ m, n = m + 1 ∧ Aligned m (p ++ [x]) q) ∨
      ∃ m, n = m + (if x = y then 0 else 1) ∧ Aligned m p q := by
  generalize ha : p ++ [x] = a at h
  generalize hb : q ++ [y] = b at h
  cases h with
  | nil => simp at ha
  | insert z h =>
    obtain ⟨rfl, rfl⟩ := List.append_singleton_inj.mp hb
    exact .inr (.inl ⟨_, rfl, h⟩)
  | delete z h =>
    obtain ⟨rfl, rfl⟩ := List.append_singleton_inj.mp ha
    exact .inl ⟨_, rfl, h⟩
  | pair z w h =>
    obtain ⟨rfl, rfl⟩ := List.append_singleton_inj.mp ha
    obtain ⟨rfl, rfl⟩ := List.append_singleton_inj.mp hb
    exact .inr (.inr ⟨_, rfl, h⟩)

/-- What is aligned with one byte is aligned with any other one. -/
theorem exchange (h : Aligned m a [x]) (y : UInt8) : ∃ k ≤ m + 1, Aligned k a [y] := by
  rcases List.eq_nil_or_concat' a with rfl | ⟨a, z, rfl⟩
  · exact ⟨1, Nat.le_add_left 1 m, insert_all [y]⟩
  · have hlen := h.length_left_le
    refine ⟨_, ?_, (delete_all a).pair z y⟩
    simp only [List.length_append, List.length_singleton] at hlen
    split <;> omega

theorem edited (h : Aligned n a b) (he : Edited b c) : ∃ k ≤ n + 1, Aligned k a c := by
  cases he with
  | insert l r y =>
    obtain ⟨a₁, a₂, m₁, m₂, rfl, rfl, h₁, h₂⟩ := h.cut rfl
    refine ⟨_, Nat.le_refl _, ?_⟩
    simpa [Nat.add_right_comm] using (h₁.insert y).append h₂
  | delete l r x =>
    obtain ⟨a₁, a₂, m₁, m₂, rfl, rfl, h₁, h₂⟩ := h.cut rfl
    obtain ⟨a₂, a₃, m₂, m₃, rfl, rfl, h₂, h₃⟩ := h₂.cut (l := [x]) rfl
    have hlen := h₂.length_left_le
    refine ⟨_, ?_, h₁.append ((delete_all a₂).append h₃)⟩
    simp only [List.length_singleton] at hlen
    omega
  | exchange l r x y =>
    obtain ⟨a₁, a₂, m₁, m₂, rfl, rfl, h₁, h₂⟩ := h.cut rfl
    obtain ⟨a₂, a₃, m₂, m₃, rfl, rfl, h₂, h₃⟩ := h₂.cut (l := [x]) rfl
    obtain ⟨k, hk, h₂⟩ := h₂.exchange y
    exact ⟨_, by omega, h₁.append (h₂.append h₃)⟩

theorem edits (h : Aligned n a b) : Edits n a b := by
  induction h with
  | nil => exact .done []
  | @insert n a b y _ ih =>
    have he := Edited.insert b [] y
    rw [List.append_nil] at he
    exact ih.step he
  | @delete n a b x _ ih =>
    have he := Edited.delete a [] x
    rw [List.append_nil] at he
    exact Nat.add_comm n 1 ▸ (Edits.step (.done _) he).trans ih
  | @pair n a b x y _ ih =>
    have hx := ih.append_right [x]
    split
    · next he => exact he ▸ hx
    · exact hx.step (.exchange b [] x y)

end Aligned

theorem Edits.aligned (h : Edits n a b) : ∃ k ≤ n, Aligned k a b := by
  induction h with
  | done a => exact ⟨0, Nat.le_refl 0, .refl a⟩
  | step _ he ih =>
    obtain ⟨m, hm, h⟩ := ih
    obtain ⟨k, hk, h⟩ := h.edited he
    exact ⟨k, by omega, h⟩

/-! ## Rows -/

def Least (a b : List UInt8) (n : Nat) : Prop := IsLeast {k | Aligned k a b} n

theorem Least.edits (h : Least a b n) : IsLeast {k | Edits k a b} n := by
  refine ⟨h.1.edits, fun k hk => ?_⟩
  obtain ⟨m, hm, halign⟩ := Edits.aligned hk
  exact (h.2 halign).trans hm

theorem least_nil_left (q : List UInt8) : Least [] q q.length := by
  refine ⟨.insert_all q, fun k hk => ?_⟩
  simpa using hk.length_right_le

theorem least_nil_right (p : List UInt8) : Least p [] p.length := by
  refine ⟨.delete_all p, fun k hk => ?_⟩
  simpa using hk.length_left_le

theorem Least.snoc (hi : Least p (q ++ [y]) i) (hj : Least (p ++ [x]) q j) (hk : Least p q k) :
    Least (p ++ [x]) (q ++ [y]) (min (min (i + 1) (j + 1)) (k + if x = y then 0 else 1)) := by
  constructor
  · -- each of the three ways is an alignment
    have hdelete : Aligned (i + 1) (p ++ [x]) (q ++ [y]) := hi.1.delete x
    have hinsert : Aligned (j + 1) (p ++ [x]) (q ++ [y]) := hj.1.insert y
    exact min_rec' (Aligned · (p ++ [x]) (q ++ [y]))
      (min_rec' (Aligned · (p ++ [x]) (q ++ [y])) hdelete hinsert) (hk.1.pair x y)
  · intro n hn
    rcases hn.snoc_cases with ⟨m, rfl, h⟩ | ⟨m, rfl, h⟩ | ⟨m, rfl, h⟩
    · have := hi.2 h
      omega
    · have := hj.2 h
      omega
    · have := hk.2 h
      omega

def extensions (q : List UInt8) : List UInt8 → List (List UInt8)
  | [] => []
  | y :: ys => (q ++ [y]) :: extensions (q ++ [y]) ys

theorem getLast?_extensions (q ys : List UInt8) :
    (q :: extensions q ys).getLast? = some (q ++ ys) := by
  induction ys generalizing q with
  | nil => simp [extensions]
  | cons y ys ih =>
    rw [extensions, List.getLast?_cons_cons, ih, List.append_assoc]
    rfl

theorem rowRest_least {ys : List UInt8} {above : List Nat} {corner left : Nat}
    (hcorner : Least p q corner) (hleft : Least (p ++ [x]) q left)
    (habove : List.Forall₂ (Least p) (extensions q ys) above) :
    List.Forall₂ (Least (p ++ [x])) (extensions q ys) (rowRest x corner left ys above) := by
  induction ys generalizing q corner left above with
  | nil =>
    rw [extensions, rowRest]
    · exact .nil
    · nofun
  | cons y ys ih =>
    rw [extensions] at habove ⊢
    cases habove with
    | cons hi hrest =>
      have hentry := hi.snoc hleft hcorner (x := x)
      exact .cons hentry (ih hi hentry hrest)

def RowOf (ys p : List UInt8) (row : List Nat) : Prop :=
  List.Forall₂ (Least p) ([] :: extensions [] ys) row

theorem RowOf.next {ys : List UInt8} {row : List Nat} (h : RowOf ys p row) (x : UInt8) :
    RowOf ys (p ++ [x]) (nextRow ys row x) := by
  cases h with
  | cons hcorner habove =>
    have hleft := least_nil_right (p ++ [x])
    obtain rfl := hcorner.unique (least_nil_right p)
    rw [List.length_append, List.length_singleton] at hleft
    exact .cons hleft (rowRest_least hcorner hleft habove)

theorem RowOf.read {ys : List UInt8} {row : List Nat} (h : RowOf ys p row) (xs : List UInt8) :
    RowOf ys (p ++ xs) (xs.foldl (nextRow ys) row) := by
  induction xs generalizing p row with
  | nil => simpa using h
  | cons x xs ih => simpa using ih (h.next x)

theorem firstRow_least (q ys : List UInt8) :
    List.Forall₂ (Least []) (extensions q ys) (List.range' (q.length + 1) ys.length) := by
  induction ys generalizing q with
  | nil => exact .nil
  | cons y ys ih =>
    have hlen : (q ++ [y]).length = q.length + 1 := by simp
    have hrest := ih (q ++ [y])
    rw [hlen] at hrest
    exact .cons (hlen ▸ least_nil_left (q ++ [y])) hrest

theorem rowOf_first (ys : List UInt8) : RowOf ys [] (List.range (ys.length + 1)) := by
  rw [List.range_eq_range', List.range'_succ]
  exact .cons (least_nil_left []) (firstRow_least [] ys)

theorem RowOf.last {ys : List UInt8} {row : List Nat} (h : RowOf ys p row) :
    Least p ys (row.getLast?.getD 0) := by
  have hrev := List.forall₂_reverse_iff.mpr h
  have hlast := getLast?_extensions [] ys
  rw [List.getLast?_eq_head?_reverse, List.nil_append] at hlast
  rw [List.getLast?_eq_head?_reverse]
  generalize ([] :: extensions [] ys).reverse = starts at hrev hlast
  generalize row.reverse = entries at hrev ⊢
  cases hrev with
  | nil => cases hlast
  | cons hd _ =>
    cases hlast
    exact hd

theorem byteDistance_least (a b : List UInt8) : Least a b (byteDistance a b) :=
  ((rowOf_first b).read a).last

/-! ## A distance -/

theorem byteDistance_le_iff : byteDistance a b ≤ n ↔ ∃ k ≤ n, Edits k a b := by
  have hleast := (byteDistance_least a b).edits
  exact ⟨fun h => ⟨_, h, hleast.1⟩, fun ⟨k, hk, hedits⟩ => (hleast.2 hedits).trans hk⟩

theorem byteDistance_eq_zero : byteDistance a b = 0 ↔ a = b := by
  have hleast := (byteDistance_least a b).edits
  constructor
  · intro h
    exact Edits.eq_of_zero (h ▸ hleast.1)
  · rintro rfl
    exact Nat.le_zero.mp (hleast.2 (Edits.done a))

theorem byteDistance_comm (a b : List UInt8) : byteDistance a b = byteDistance b a :=
  Nat.le_antisymm ((byteDistance_least a b).edits.2 (byteDistance_least b a).edits.1.symm)
    ((byteDistance_least b a).edits.2 (byteDistance_least a b).edits.1.symm)

theorem byteDistance_triangle (a b c : List UInt8) :
    byteDistance a c ≤ byteDistance a b + byteDistance b c :=
  (byteDistance_least a c).edits.2
    ((byteDistance_least a b).edits.1.trans (byteDistance_least b c).edits.1)

def Within (n : Nat) (a b : List UInt8) : Prop := ∃ k ≤ n, Edits k a b

instance : Decidable (Within n a b) := decidable_of_iff (byteDistance a b ≤ n) byteDistance_le_iff

/-- The last entry of the last row is the least number of edits, which is a distance on texts. The
names that are suggested for another are, in their order, all those of more than one byte that
differ from it by at most two edits. -/
theorem byteDistance_counts_edits :
    (∀ a b : List UInt8, IsLeast {n | Edits n a b} (byteDistance a b)) ∧
    (∀ a b : List UInt8, byteDistance a b = 0 ↔ a = b) ∧
    (∀ a b : List UInt8, byteDistance a b = byteDistance b a) ∧
    (∀ a b c : List UInt8, byteDistance a c ≤ byteDistance a b + byteDistance b c) ∧
    ∀ (name : String) (candidates : List String), similarNames name candidates =
      candidates.filter fun c =>
        c ≠ name ∧ 1 < c.utf8ByteSize ∧ Within 2 (bytes name) (bytes c) := by
  refine ⟨fun a b => (byteDistance_least a b).edits, fun a b => byteDistance_eq_zero,
    byteDistance_comm, byteDistance_triangle, fun name candidates => ?_⟩
  rw [similarNames]
  refine List.filter_congr fun c _ => ?_
  have hwithin : decide (editDistance name c ≤ 2) = decide (Within 2 (bytes name) (bytes c)) :=
    decide_eq_decide.mpr byteDistance_le_iff
  rw [hwithin]
  simp only [Bool.decide_and, Bool.and_assoc]
  rw [Bool.and_comm (decide (Within 2 _ _))]

example : byteDistance [1, 2, 3, 4] [2, 3, 5, 4, 6] = 3 := by decide

end

end DefFlow.Text
