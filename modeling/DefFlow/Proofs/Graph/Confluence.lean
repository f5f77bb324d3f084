import DefFlow.Flow.Component
import Mathlib.Order.WellFounded
import Mathlib.Tactic.Common

/-!
# Where values meet

A block is opaque if it decides the value that leaves it; every other block passes
on what arrives at its top. In a graph whose cycles are entered through one block
only, a labelling that joins values only where at least two of them meet joins
nothing in vain: at least two opaque blocks, or the start, are seen from the top of
every join.
-/

set_option autoImplicit false

namespace DefFlow.Flow

/-- An order of the blocks in which an edge leads forward unless it leads back into
the loop region that it comes from. -/
structure Reducible (node : NodeId → Prop) (preds : NodeId → List NodeId) where
  rank : NodeId → Nat
  bound : Nat
  region : NodeId → NodeId → Prop
  mem : ∀ {x p}, node x → p ∈ preds x → node p
  bounded : ∀ {x}, node x → rank x < bound
  forward : ∀ {x}, node x → preds x ≠ [] → ∃ p ∈ preds x, rank p < rank x
  edge : ∀ {x p}, node x → p ∈ preds x → rank p < rank x ∨ region x p
  closed : ∀ {h x p}, node x → region h x → x ≠ h → p ∈ preds x → region h p
  reached : ∀ {h x}, node x → region h x → x ≠ h → preds x ≠ []
  above : ∀ {h x}, node x → region h x → x = h ∨ rank h < rank x

/-- What arrives at the top of a block: the value that leaves an opaque block, or
nothing, from a block without predecessors. -/
inductive Arrives (preds : NodeId → List NodeId) (opq : NodeId → Prop) :
    NodeId → Option NodeId → Prop
  | start {x : NodeId} (h : preds x = []) : Arrives preds opq x none
  | leaves {x p : NodeId} (h : p ∈ preds x) (ho : opq p) : Arrives preds opq x (some p)
  | passes {x p : NodeId} {s : Option NodeId} (h : p ∈ preds x) (ho : ¬ opq p)
      (hs : Arrives preds opq p s) : Arrives preds opq x s

def Departs (preds : NodeId → List NodeId) (opq : NodeId → Prop) (x : NodeId)
    (s : Option NodeId) : Prop :=
  (opq x ∧ s = some x) ∨ (¬ opq x ∧ Arrives preds opq x s)

inductive Sees (preds : NodeId → List NodeId) (opq : NodeId → Prop) (x : NodeId) : NodeId → Prop
  | refl : Sees preds opq x x
  | step {y p : NodeId} (h : Sees preds opq x y) (hp : p ∈ preds y) (ho : ¬ opq p) :
      Sees preds opq x p

/-- Different values meet at the top of a block: however many further blocks are taken as
opaque, more than one value arrives there. -/
def Meets (preds : NodeId → List NodeId) (opq : NodeId → Prop) (x : NodeId) : Prop :=
  ∀ wide : NodeId → Prop, (∀ {y}, opq y → wide y) → ∀ s, ∃ t, t ≠ s ∧ Arrives preds wide x t

section

variable {node : NodeId → Prop} {preds : NodeId → List NodeId} {opq : NodeId → Prop}

namespace Sees

variable {x y z : NodeId}

theorem trans (h : Sees preds opq x y) (h' : Sees preds opq y z) : Sees preds opq x z := by
  induction h' with
  | refl => exact h
  | step _ hp ho ih => exact ih.step hp ho

theorem arrives (h : Sees preds opq x y) {s : Option NodeId} (hs : Arrives preds opq y s) :
    Arrives preds opq x s := by
  induction h with
  | refl => exact hs
  | step _ hp ho ih => exact ih (.passes hp ho hs)

theorem eq_or_clear (h : Sees preds opq x y) : y = x ∨ ¬ opq y := by
  cases h with
  | refl => exact Or.inl rfl
  | step _ _ ho => exact Or.inr ho

theorem mono {wide : NodeId → Prop} (hw : ∀ {b}, opq b → wide b) (h : Sees preds wide x y) :
    Sees preds opq x y := by
  induction h with
  | refl => exact .refl
  | step _ hp ho ih => exact ih.step hp fun h => ho (hw h)

end Sees

theorem arrives_iff {x : NodeId} {s : Option NodeId} :
    Arrives preds opq x s ↔ (preds x = [] ∧ s = none) ∨ ∃ p ∈ preds x, Departs preds opq p s := by
  constructor
  · rintro (h | ⟨h, ho⟩ | ⟨h, ho, hs⟩)
    · exact Or.inl ⟨h, rfl⟩
    · exact Or.inr ⟨_, h, Or.inl ⟨ho, rfl⟩⟩
    · exact Or.inr ⟨_, h, Or.inr ⟨ho, hs⟩⟩
  · rintro (⟨h, rfl⟩ | ⟨p, h, ⟨ho, rfl⟩ | ⟨ho, hs⟩⟩)
    · exact .start h
    · exact .leaves h ho
    · exact .passes h ho hs

theorem Departs.arrives {x p : NodeId} {s : Option NodeId} (h : p ∈ preds x)
    (hs : Departs preds opq p s) : Arrives preds opq x s :=
  arrives_iff.mpr (Or.inr ⟨p, h, hs⟩)

theorem decides_of_arrives {x b : NodeId} (h : Arrives preds opq x (some b)) : opq b := by
  generalize ha : some b = a at h
  induction h with
  | start _ => cases ha
  | leaves _ ho => exact Option.some.inj ha ▸ ho
  | passes _ _ _ ih => exact ih ha

theorem decides_of_departs {x b : NodeId} (h : Departs preds opq x (some b)) : opq b := by
  rcases h with ⟨ho, hb⟩ | ⟨_, h⟩
  · cases hb
    exact ho
  · exact decides_of_arrives h

theorem Reducible.exists_arrives (G : Reducible node preds) {x : NodeId} (hx : node x) :
    ∃ s, Arrives preds opq x s := by
  generalize hn : G.rank x = n
  induction n using Nat.strongRecOn generalizing x with
  | _ n ih =>
    by_cases hp : preds x = []
    · exact ⟨none, .start hp⟩
    · obtain ⟨p, hm, hr⟩ := G.forward hx hp
      by_cases ho : opq p
      · exact ⟨some p, .leaves hm ho⟩
      · obtain ⟨s, hs⟩ := ih _ (hn ▸ hr) (G.mem hx hm) rfl
        exact ⟨s, .passes hm ho hs⟩

theorem Reducible.exists_departs (G : Reducible node preds) {x : NodeId} (hx : node x) :
    ∃ s, Departs preds opq x s := by
  by_cases ho : opq x
  · exact ⟨some x, Or.inl ⟨ho, rfl⟩⟩
  · obtain ⟨s, hs⟩ : ∃ s, Arrives preds opq x s := G.exists_arrives hx
    exact ⟨s, Or.inr ⟨ho, hs⟩⟩

theorem Reducible.exists_first (G : Reducible node preds) {Q : NodeId → Prop}
    (h : ∃ x, Q x) : ∃ a, Q a ∧ ∀ x, Q x → G.rank a ≤ G.rank x := by
  obtain ⟨a, ha, hmin⟩ := (measure G.rank).wf.has_min {x | Q x} h
  exact ⟨a, ha, fun x hx => Nat.le_of_not_lt (hmin x hx)⟩

theorem Reducible.exists_last (G : Reducible node preds) {Q : NodeId → Prop}
    (hn : ∀ {x}, Q x → node x) (h : ∃ x, Q x) : ∃ b, Q b ∧ ∀ x, Q x → G.rank x ≤ G.rank b := by
  obtain ⟨b, hb, hmax⟩ := (measure fun x => G.bound - G.rank x).wf.has_min {x | Q x} h
  refine ⟨b, hb, fun x hx => Nat.le_of_not_lt fun hlt => hmax x hx ?_⟩
  have := G.bounded (hn hx)
  show G.bound - G.rank x < G.bound - G.rank b
  omega

theorem arrives_of_mem {preds' : NodeId → List NodeId} (node : NodeId → Prop)
    (hclosed : ∀ {x p}, node x → p ∈ preds' x → node p)
    (hsame : ∀ {x p}, node x → (p ∈ preds' x ↔ p ∈ preds x)) {x : NodeId} {a : Option NodeId}
    (hx : node x) (h : Arrives preds' opq x a) : Arrives preds opq x a := by
  induction h with
  | start hnil =>
    refine .start (List.eq_nil_iff_forall_not_mem.mpr fun p hp => ?_)
    rw [← hsame hx, hnil] at hp
    cases hp
  | leaves hp ho => exact .leaves ((hsame hx).mp hp) ho
  | passes hp ho _ ih => exact .passes ((hsame hx).mp hp) ho (ih (hclosed hx hp))

end

/-! ## More blocks taken as opaque -/

section

variable {preds : NodeId → List NodeId} {wide narrow : NodeId → Prop} {x y : NodeId}
variable {a c : Option NodeId}

/-- Blocks that are opaque in the wider view only are seen through: beyond them lies what
arrives there. -/
theorem arrives_through (hw : ∀ {x}, narrow x → wide x) (h : Arrives preds wide x a)
    (ha : a = some y) (hy : ¬ narrow y) (hc : Arrives preds narrow y c) :
    Arrives preds narrow x c := by
  induction h with
  | start _ => cases ha
  | leaves hp _ =>
    cases ha
    exact .passes hp hy hc
  | passes hp hnot _ ih => exact .passes hp (fun hn => hnot (hw hn)) (ih ha)

theorem arrives_narrow (hw : ∀ {x}, narrow x → wide x) (h : Arrives preds wide x a)
    (ha : ∀ y, a = some y → narrow y) : Arrives preds narrow x a := by
  induction h with
  | start hp => exact .start hp
  | leaves hp _ => exact .leaves hp (ha _ rfl)
  | passes hp hnot _ ih => exact .passes hp (fun hn => hnot (hw hn)) (ih ha)

/-- What arrives still does in the wider view, or a block that hides it there is seen. -/
theorem arrives_wide (hw : ∀ {x}, narrow x → wide x) (h : Arrives preds narrow x a) :
    Arrives preds wide x a ∨ ∃ y, ¬ narrow y ∧ Arrives preds wide x (some y) := by
  induction h with
  | start hp => exact Or.inl (.start hp)
  | leaves hp ho => exact Or.inl (.leaves hp (hw ho))
  | @passes x p s hp hnot _ ih =>
    by_cases hwp : wide p
    · exact Or.inr ⟨p, hnot, .leaves hp hwp⟩
    · exact ih.imp (.passes hp hwp) fun ⟨y, hy, hs⟩ => ⟨y, hy, .passes hp hwp hs⟩

/-- If what arrives comes from a block that is opaque in the wider view only, or from none,
nothing comes along with what arrives there. -/
theorem arrives_none_of_source (hw : ∀ {x}, narrow x → wide x) (h : Arrives preds wide x a)
    (ha : ∀ c, a = some c → ¬ narrow c ∧ Arrives preds narrow c none) :
    Arrives preds narrow x none := by
  cases a with
  | none => exact arrives_narrow hw h fun y hy => nomatch hy
  | some c =>
    obtain ⟨hc, hnone⟩ := ha c rfl
    exact arrives_through hw h rfl hc hnone

theorem departs_narrow (hw : ∀ {x}, narrow x → wide x) (h : Departs preds wide x a)
    (ha : ∀ y, a = some y → narrow y) : Departs preds narrow x a := by
  rcases h with ⟨_, rfl⟩ | ⟨hnot, h⟩
  · exact Or.inl ⟨ha x rfl, rfl⟩
  · exact Or.inr ⟨fun hn => hnot (hw hn), arrives_narrow hw h ha⟩

theorem departs_through (hw : ∀ {x}, narrow x → wide x) (h : Departs preds wide x (some y))
    (hy : ¬ narrow y) (hc : Arrives preds narrow y c) : Departs preds narrow x c := by
  rcases h with ⟨_, he⟩ | ⟨hnot, h⟩
  · cases he
    exact Or.inr ⟨hy, hc⟩
  · exact Or.inr ⟨fun hn => hnot (hw hn), arrives_through hw h rfl hy hc⟩

theorem departs_none_of_source (hw : ∀ {x}, narrow x → wide x) (h : Departs preds wide x a)
    (ha : ∀ c, a = some c → ¬ narrow c ∧ Arrives preds narrow c none) :
    Departs preds narrow x none := by
  cases a with
  | none => exact departs_narrow hw h fun y hy => nomatch hy
  | some c =>
    obtain ⟨hc, hnone⟩ := ha c rfl
    exact departs_through hw h hc hnone

/-- If values meet at every block that is opaque in the wider view only, those that meet in
that view meet in the narrower one. -/
theorem Meets.of_wide (hm : ∀ {y}, wide y → ¬ narrow y → Meets preds narrow y)
    (h : Meets preds wide x) : Meets preds narrow x := by
  intro view hv s
  obtain ⟨t, hne, ht⟩ : ∃ t, t ≠ s ∧ Arrives preds (fun y => view y ∨ wide y) x t :=
    h _ (fun hy => Or.inr hy) s
  cases t with
  | none => exact ⟨none, hne, arrives_narrow (fun hy => Or.inl hy) ht fun y hy => nomatch hy⟩
  | some y =>
    by_cases hy : view y
    · exact ⟨some y, hne, arrives_narrow (fun hy => Or.inl hy) ht
        fun z hz => Option.some.inj hz ▸ hy⟩
    · have hwide : wide y := (decides_of_arrives ht).resolve_left hy
      obtain ⟨u, hne', hu⟩ := hm hwide (fun hn => hy (hv hn)) view hv s
      exact ⟨u, hne', arrives_through (fun hy => Or.inl hy) ht rfl hy hu⟩

end

/-- A labelling of what leaves the visited blocks. An opaque block and a join label
it by themselves, every other block passes the one label of its predecessors on. -/
structure Labelling (node : NodeId → Prop) (preds : NodeId → List NodeId)
    (opq joins visited : NodeId → Prop) where
  out : NodeId → Option NodeId
  node_of_visited : ∀ {x}, visited x → node x
  visit : ∀ {x p}, visited x → p ∈ preds x → opq p ∨ visited p
  join_visited : ∀ {x}, joins x → visited x
  join_clear : ∀ {x}, joins x → ¬ opq x
  opaque_out : ∀ {x}, opq x → out x = some x
  join_out : ∀ {x}, joins x → out x = some x
  start_out : ∀ {x}, visited x → ¬ opq x → ¬ joins x → preds x = [] → out x = none
  pass_out : ∀ {x p}, visited x → ¬ opq x → ¬ joins x → p ∈ preds x → out p = out x
  differ : ∀ {x}, joins x →
    ∃ p ∈ preds x, ∃ q ∈ preds x, out p ≠ out q ∧ out p ≠ some x ∧ out q ≠ some x

namespace Labelling

variable {node : NodeId → Prop} {preds : NodeId → List NodeId}
variable {opq joins visited : NodeId → Prop}

theorem rank_out_le (G : Reducible node preds) (L : Labelling node preds opq joins visited)
    {x y : NodeId} (hx : opq x ∨ visited x) (hy : L.out x = some y) : G.rank y ≤ G.rank x := by
  generalize hn : G.rank x = n
  induction n using Nat.strongRecOn generalizing x with
  | _ n ih =>
    by_cases ho : opq x
    · rw [L.opaque_out ho, Option.some.injEq] at hy
      exact Nat.le_of_eq (by rw [← hy, hn])
    have hv := hx.resolve_left ho
    by_cases hj : joins x
    · rw [L.join_out hj, Option.some.injEq] at hy
      exact Nat.le_of_eq (by rw [← hy, hn])
    by_cases hp : preds x = []
    · rw [L.start_out hv ho hj hp] at hy
      cases hy
    obtain ⟨p, hm, hr⟩ := G.forward (L.node_of_visited hv) hp
    rw [← L.pass_out hv ho hj hm] at hy
    have := ih _ (hn ▸ hr) (L.visit hv hm) hy rfl
    omega

/-- Inside the region of a join the labels name blocks of that region. -/
theorem out_in_region (G : Reducible node preds) (L : Labelling node preds opq joins visited)
    {h x : NodeId} (hh : joins h) (hx : opq x ∨ visited x) (hn : node x) (hr : G.region h x) :
    ∃ y, L.out x = some y ∧ G.region h y ∧ node y := by
  generalize hk : G.rank x = n
  induction n using Nat.strongRecOn generalizing x with
  | _ n ih =>
    by_cases ho : opq x
    · exact ⟨x, L.opaque_out ho, hr, hn⟩
    have hv := hx.resolve_left ho
    by_cases hj : joins x
    · exact ⟨x, L.join_out hj, hr, hn⟩
    have hne : x ≠ h := fun e => hj (e ▸ hh)
    obtain ⟨p, hm, hlt⟩ := G.forward hn (G.reached hn hr hne)
    rw [← L.pass_out hv ho hj hm]
    exact ih _ (hk ▸ hlt) (L.visit hv hm) (G.mem hn hm) (G.closed hn hr hne hm) rfl

structure Vain (L : Labelling node preds opq joins visited) (v : Option NodeId)
    (Q : NodeId → Prop) : Prop where
  join : ∀ {x}, Q x → joins x
  merges : ∀ {x p}, Q x → p ∈ preds x → L.out p = v ∨ ∃ y, Q y ∧ L.out p = some y

namespace Vain

variable {L : Labelling node preds opq joins visited} {v : Option NodeId} {Q : NodeId → Prop}
variable {x h p : NodeId}

theorem node_of (hq : L.Vain v Q) (hx : Q x) : node x :=
  L.node_of_visited (L.join_visited (hq.join hx))

theorem visit (hq : L.Vain v Q) (hx : Q x) (hp : p ∈ preds x) : opq p ∨ visited p :=
  L.visit (L.join_visited (hq.join hx)) hp

/-- The first of them gets the further value from in front. -/
theorem out_of_first (G : Reducible node preds) (hq : L.Vain v Q) (hx : Q x)
    (hmin : ∀ y, Q y → G.rank x ≤ G.rank y) (hp : p ∈ preds x) (hr : G.rank p < G.rank x) :
    L.out p = v := by
  rcases hq.merges hx hp with h | ⟨y, hy, h⟩
  · exact h
  · have := L.rank_out_le G (hq.visit hx hp) h
    have := hmin y hy
    omega

theorem rank_lt (G : Reducible node preds) (hq : L.Vain v Q) (hx : Q x) {y : NodeId}
    (hv : v = some y) : G.rank y < G.rank x := by
  obtain ⟨a, ha, hmin⟩ := G.exists_first ⟨x, hx⟩
  obtain ⟨q, hmem, -⟩ := L.differ (hq.join ha)
  obtain ⟨p, hp, hr⟩ := G.forward (hq.node_of ha) (List.ne_nil_of_mem hmem)
  have hout : L.out p = some y := (hq.out_of_first G ha hmin hp hr).trans hv
  have := L.rank_out_le G (hq.visit ha hp) hout
  have := hmin x hx
  omega

/-- What comes to one of them from the region of another names one of them in that region. -/
theorem out_in_region (G : Reducible node preds) (hq : L.Vain v Q) (hh : Q h) (hx : Q x)
    (hp : p ∈ preds x) (hr : G.region h p) :
    ∃ y, Q y ∧ L.out p = some y ∧ G.region h y := by
  obtain ⟨y, hy, hry, hny⟩ := L.out_in_region G (hq.join hh) (hq.visit hx hp)
    (G.mem (hq.node_of hx) hp) hr
  rcases hq.merges hx hp with hv | ⟨z, hz, hout⟩
  · have hlt : G.rank y < G.rank h := hq.rank_lt G hh (hv.symm.trans hy)
    rcases G.above hny hry with rfl | habove <;> omega
  · obtain rfl : y = z := Option.some.inj (hy.symm.trans hout)
    exact ⟨y, hz, hy, hry⟩

/-- If something other than itself comes to one of them from its own region, that region holds
another one. -/
theorem exists_other (G : Reducible node preds) (hq : L.Vain v Q) (hx : Q x) (hp : p ∈ preds x)
    (hr : G.region x p) (hne : L.out p ≠ some x) : ∃ y, Q y ∧ y ≠ x ∧ G.region x y := by
  obtain ⟨y, hy, hout, hry⟩ := hq.out_in_region G hx hx hp hr
  exact ⟨y, hy, fun h => hne (h ▸ hout), hry⟩

theorem exists_region (G : Reducible node preds) (hq : L.Vain v Q) (hx : Q x) :
    ∃ a, Q a ∧ ∃ y, Q y ∧ y ≠ a ∧ G.region a y := by
  obtain ⟨a, ha, hmin⟩ := G.exists_first ⟨x, hx⟩
  refine ⟨a, ha, ?_⟩
  obtain ⟨p, hp, q, hmem, hpq, hpa, hqa⟩ := L.differ (hq.join ha)
  rcases G.edge (hq.node_of ha) hp with h₁ | h₁
  · rcases G.edge (hq.node_of ha) hmem with h₂ | h₂
    · exact absurd ((hq.out_of_first G ha hmin hp h₁).trans
        (hq.out_of_first G ha hmin hmem h₂).symm) hpq
    · exact hq.exists_other G ha hmem h₂ hqa
  · exact hq.exists_other G ha hp h₁ hpa

theorem not_holds (G : Reducible node preds) (hq : L.Vain v Q) : ¬ Q x := by
  intro hx
  -- The last of them with another one in its region, and the first of the others there.
  obtain ⟨b, ⟨hb, hother⟩, hmax⟩ := G.exists_last (fun h => hq.node_of h.1)
    (hq.exists_region G hx)
  obtain ⟨c, ⟨hc, hcb, hrc⟩, hmin⟩ := G.exists_first hother
  have hlt : G.rank b < G.rank c := (G.above (hq.node_of hc) hrc).resolve_left hcb
  have hout : ∀ {p}, p ∈ preds c → L.out p = some b ∨ L.out p = some c := by
    intro p hp
    rcases G.edge (hq.node_of hc) hp with h | h
    · obtain ⟨y, hy, hout, hry⟩ := hq.out_in_region G hb hc hp
        (G.closed (hq.node_of hc) hrc hcb hp)
      by_cases hyb : y = b
      · exact Or.inl (hyb ▸ hout)
      · have := hmin y ⟨hy, hyb, hry⟩
        have := L.rank_out_le G (hq.visit hc hp) hout
        omega
    · refine Or.inr (by_contra fun hne => ?_)
      have := hmax c ⟨hc, hq.exists_other G hc hp h hne⟩
      omega
  obtain ⟨p, hp, q, hmem, hpq, hpc, hqc⟩ := L.differ (hq.join hc)
  exact hpq (((hout hp).resolve_right hpc).trans ((hout hmem).resolve_right hqc).symm)

end Vain

/-- What arrives at a visited block, with the joins opaque, is its label. -/
theorem out_eq_of_arrives (L : Labelling node preds opq joins visited) {x : NodeId}
    {s : Option NodeId} (hx : visited x) (ho : ¬ opq x) (hj : ¬ joins x)
    (h : Arrives preds (fun y => opq y ∨ joins y) x s) : L.out x = s := by
  induction h with
  | start hp => exact L.start_out hx ho hj hp
  | @leaves x p hp hop =>
    rw [← L.pass_out hx ho hj hp]
    rcases hop with h | h
    · exact L.opaque_out h
    · exact L.join_out h
  | @passes x p s hp hop _ ih =>
    rw [not_or] at hop
    rw [← L.pass_out hx ho hj hp]
    exact ih ((L.visit hx hp).resolve_left hop.1) hop.1 hop.2

theorem out_eq_of_departs (L : Labelling node preds opq joins visited) {x : NodeId}
    {s : Option NodeId} (hx : opq x ∨ visited x)
    (h : Departs preds (fun y => opq y ∨ joins y) x s) : L.out x = s := by
  rcases h with ⟨h | h, rfl⟩ | ⟨h, hs⟩
  · exact L.opaque_out h
  · exact L.join_out h
  · rw [not_or] at h
    exact L.out_eq_of_arrives (hx.resolve_left h.1) h.1 h.2 hs

theorem departs_out (G : Reducible node preds) (L : Labelling node preds opq joins visited)
    {x : NodeId} (hn : node x) (hx : opq x ∨ visited x) :
    Departs preds (fun y => opq y ∨ joins y) x (L.out x) := by
  obtain ⟨s, hs⟩ : ∃ s, Departs preds (fun y => opq y ∨ joins y) x s := G.exists_departs hn
  rwa [L.out_eq_of_departs hx hs]

/-- A block that sees a single value is labelled with what leaves there, however many
further blocks are taken as opaque. -/
theorem out_of_single (G : Reducible node preds) (L : Labelling node preds opq joins visited)
    {wide : NodeId → Prop} (hw : ∀ {y}, opq y → wide y) {s : Option NodeId} {x : NodeId}
    (hx : visited x) (hwx : ¬ wide x) (hall : ∀ t, Arrives preds wide x t → t = s) :
    L.out x = s.bind L.out := by
  let Q : NodeId → Prop := fun y => joins y ∧ ¬ wide y ∧ ∀ t, Arrives preds wide y t → t = s
  let v : Option NodeId := s.bind L.out
  -- A block that sees only `s` is labelled with its value, or with such a join.
  have seen : ∀ {y}, visited y → ¬ wide y → (∀ t, Arrives preds wide y t → t = s) →
      L.out y = v ∨ ∃ z, Q z ∧ L.out y = some z := by
    intro y
    generalize hk : G.rank y = n
    induction n using Nat.strongRecOn generalizing y with
    | _ n ih =>
      intro hv hy hall
      by_cases hj : joins y
      · exact Or.inr ⟨y, ⟨hj, hy, hall⟩, L.join_out hj⟩
      have ho : ¬ opq y := fun h => hy (hw h)
      by_cases hp : preds y = []
      · have hs := hall none (.start hp)
        exact Or.inl (by simp [v, ← hs, L.start_out hv ho hj hp])
      obtain ⟨p, hm, hr⟩ := G.forward (L.node_of_visited hv) hp
      rw [← L.pass_out hv ho hj hm]
      by_cases hwp : wide p
      · have hs := hall _ (.leaves hm hwp)
        exact Or.inl (by simp [v, ← hs])
      · exact ih _ (hk ▸ hr) rfl ((L.visit hv hm).resolve_left fun h => hwp (hw h)) hwp
          fun t ht => hall t (.passes hm hwp ht)
  have hvain : L.Vain v Q := by
    refine ⟨fun h => h.1, fun {y p} hy hp => ?_⟩
    by_cases hwp : wide p
    · have hs := hy.2.2 _ (.leaves hp hwp)
      exact Or.inl (by simp [v, ← hs])
    · exact seen ((L.visit (L.join_visited hy.1) hp).resolve_left fun h => hwp (hw h)) hwp
        fun t ht => hy.2.2 t (.passes hp hwp ht)
  exact (seen hx hwx hall).resolve_right fun ⟨z, hz, _⟩ => hvain.not_holds G hz

/-- Different values meet at a block whose predecessors have different labels. -/
theorem meets_of_ne (G : Reducible node preds) (L : Labelling node preds opq joins visited)
    {x : NodeId} (hx : ∀ p ∈ preds x, opq p ∨ visited p) {p q : NodeId} (hp : p ∈ preds x)
    (hq : q ∈ preds x) (hne : L.out p ≠ L.out q) : Meets preds opq x := by
  intro wide hw s
  by_contra hcon
  push Not at hcon
  have label : ∀ {r}, r ∈ preds x → L.out r = s.bind L.out := by
    intro r hr
    by_cases hwr : wide r
    · have hs : some r = s := by_contra fun h => hcon _ h (.leaves hr hwr)
      rw [← hs, Option.bind_some]
    · exact L.out_of_single G hw ((hx r hr).resolve_left fun h => hwr (hw h)) hwr
        fun t ht => by_contra fun h => hcon t h (.passes hr hwr ht)
  exact hne ((label hp).trans (label hq).symm)

theorem meets (G : Reducible node preds) (L : Labelling node preds opq joins visited)
    {x : NodeId} (hx : joins x) : Meets preds opq x := by
  obtain ⟨p, hp, q, hq, hne, -, -⟩ := L.differ hx
  exact L.meets_of_ne G (fun r hr => L.visit (L.join_visited hx) hr) hp hq hne

theorem arrives_of_single (G : Reducible node preds) (L : Labelling node preds opq joins visited)
    {wide : NodeId → Prop} (hw : ∀ {y}, opq y → wide y) {x : NodeId} {s : Option NodeId}
    (hall : ∀ t, Arrives preds wide x t → t = s) {t : Option NodeId} :
    Arrives preds (fun y => wide y ∨ joins y) x t ↔ Arrives preds wide x t := by
  have clear : ∀ {y p}, (∀ t, Arrives preds wide y t → t = s) → p ∈ preds y → ¬ wide p →
      (∀ t, Arrives preds wide p t → t = s) ∧ ¬ joins p := by
    intro y p hy hp hwp
    have h : ∀ t, Arrives preds wide p t → t = s := fun t ht => hy t (.passes hp hwp ht)
    refine ⟨h, fun hj => ?_⟩
    obtain ⟨t, hne, ht⟩ := L.meets G hj wide hw s
    exact hne (h t ht)
  constructor
  · intro h
    induction h with
    | start hp => exact .start hp
    | @leaves x p hp hop =>
      by_cases hwp : wide p
      · exact .leaves hp hwp
      · exact absurd (hop.resolve_left hwp) (clear hall hp hwp).2
    | @passes x p t hp hop _ ih =>
      rw [not_or] at hop
      exact .passes hp hop.1 (ih (clear hall hp hop.1).1)
  · intro h
    induction h with
    | start hp => exact .start hp
    | leaves hp hop => exact .leaves hp (Or.inl hop)
    | @passes x p t hp hop _ ih =>
      obtain ⟨h1, h2⟩ := clear hall hp hop
      exact .passes hp (by rw [not_or]; exact ⟨hop, h2⟩) (ih h1)

end Labelling

end DefFlow.Flow
