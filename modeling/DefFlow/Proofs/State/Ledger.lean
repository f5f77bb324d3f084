import DefFlow.Proofs.State.Code
import Mathlib.Data.List.Nodup
import Mathlib.Data.List.Pairwise

/-!
# The ledger of a variable

What a block does with a variable is a list of events: uses and definitions in the order in
which the instructions make them. The ledger of the events gives each use to the last
definition before it, or to what flows in. A timeline has its lists right if they are the
ledger of the events of its block.
-/

set_option autoImplicit false

namespace DefFlow.Flow

/-- A list is cut where a test that the front passes starts to fail. -/
theorem span_between {α : Type} {p : α → Bool} {l r : List α} (hl : ∀ a ∈ l, p a = true)
    (hr : ∀ a ∈ r, p a = false) : (l ++ r).takeWhile p = l ∧ (l ++ r).dropWhile p = r := by
  rw [List.takeWhile_append_of_pos hl, List.dropWhile_append_of_pos hl]
  cases r with
  | nil => exact ⟨List.append_nil l, rfl⟩
  | cons a r =>
    have ha : ¬ p a = true := by rw [hr a List.mem_cons_self]; nofun
    rw [List.takeWhile_cons_of_neg ha, List.dropWhile_cons_of_neg ha, List.append_nil]
    exact ⟨rfl, rfl⟩

inductive Event where
  | use (u : UseSite)
  | define (i : InstId)
  deriving DecidableEq, Repr

namespace Event

def use? : Event → Option UseSite
  | use u => some u
  | define _ => none

def define? : Event → Option InstId
  | use _ => none
  | define i => some i

def allows (p : UseSite → Bool) : Event → Bool
  | use u => p u
  | define _ => true

end Event

def usesIn (es : List Event) : List UseSite := es.filterMap Event.use?

def defsIn (es : List Event) : List InstId := es.filterMap Event.define?

structure Account where
  waiting : List UseSite
  locals : List Local
  deriving DecidableEq, Repr

namespace Account

def empty : Account := ⟨[], []⟩

def before : Event → Account → Account
  | .use u, a => ⟨u :: a.waiting, a.locals⟩
  | .define i, a => ⟨[], ⟨i, a.waiting⟩ :: a.locals⟩

def prepend (es : List Event) (a : Account) : Account := es.foldr before a

def uses (a : Account) : Option InstId → List UseSite
  | none => a.waiting
  | some i => ((a.locals.find? fun l => l.inst = i).map Local.uses).getD []

def change (a : Account) (holder : Option InstId) (g : List UseSite → List UseSite) : Account :=
  match holder with
  | none => ⟨g a.waiting, a.locals⟩
  | some i =>
    ⟨a.waiting, a.locals.map fun l => if l.inst = i then { l with uses := g l.uses } else l⟩

def restrict (k : InstId → Bool) (p : UseSite → Bool) (a : Account) : Account :=
  ⟨a.waiting.filter p, (a.locals.filter fun l => k l.inst).map fun l =>
    { l with uses := l.uses.filter p }⟩

def allUses (a : Account) : List UseSite := a.waiting ++ a.locals.flatMap Local.uses

end Account

def ledger (es : List Event) : Account := .prepend es .empty

def lastDef (es : List Event) : Option InstId := (defsIn es).getLast?

namespace Account

variable {A B : List Event} {a : Account} {i : InstId} {u : UseSite} {k : InstId → Bool}
  {p : UseSite → Bool} {g : List UseSite → List UseSite}

@[simp] theorem prepend_use (u : UseSite) (A : List Event) (a : Account) :
    prepend (.use u :: A) a = ⟨u :: (prepend A a).waiting, (prepend A a).locals⟩ := rfl

@[simp] theorem prepend_define (i : InstId) (A : List Event) (a : Account) :
    prepend (.define i :: A) a = ⟨[], ⟨i, (prepend A a).waiting⟩ :: (prepend A a).locals⟩ := rfl

theorem prepend_append (A B : List Event) (a : Account) :
    prepend (A ++ B) a = prepend A (prepend B a) := List.foldr_append

theorem prepend_uses (U : List UseSite) (a : Account) :
    prepend (U.map .use) a = ⟨U ++ a.waiting, a.locals⟩ := by
  induction U with
  | nil => rfl
  | cons u U ih => rw [List.map_cons, prepend_use, ih]; rfl

theorem ledger_append (A B : List Event) : ledger (A ++ B) = prepend A (ledger B) :=
  prepend_append A B .empty

theorem prepend_locals (A : List Event) (a : Account) :
    ∃ ls, (prepend A a).locals = ls ++ a.locals ∧ ls.map Local.inst = defsIn A ∧
      ∀ ls', prepend A ⟨a.waiting, ls'⟩ = ⟨(prepend A a).waiting, ls ++ ls'⟩ := by
  induction A with
  | nil => exact ⟨[], rfl, rfl, fun _ => rfl⟩
  | cons e A ih =>
    obtain ⟨ls, hls, hdefs, hrest⟩ := ih
    cases e with
    | use u =>
      refine ⟨ls, hls, hdefs, fun ls' => ?_⟩
      rw [prepend_use, prepend_use, hrest]
    | define i =>
      refine ⟨⟨i, (prepend A a).waiting⟩ :: ls, ?_, ?_, fun ls' => ?_⟩
      · rw [prepend_define, hls]
        rfl
      · rw [List.map_cons, hdefs]
        rfl
      · rw [prepend_define, prepend_define, hrest]
        rfl

theorem map_inst_prepend (A : List Event) (a : Account) :
    (prepend A a).locals.map Local.inst = defsIn A ++ a.locals.map Local.inst := by
  obtain ⟨ls, hls, hdefs, _⟩ := prepend_locals A a
  rw [hls, List.map_append, hdefs]

theorem allUses_prepend (A : List Event) (a : Account) :
    (prepend A a).allUses = usesIn A ++ a.allUses := by
  induction A with
  | nil => rfl
  | cons e A ih =>
    rw [allUses] at ih ⊢
    cases e with
    | use u => rw [prepend_use, List.cons_append, ih]; rfl
    | define i =>
      rw [prepend_define, List.nil_append, List.flatMap_cons, ih]
      rfl

/-! ## Changing what a definition holds -/

theorem exists_trail (A : List Event) :
    (∃ U : List UseSite, A = U.map .use) ∨
      ∃ (A' : List Event) (j : InstId) (U : List UseSite), A = A' ++ .define j :: U.map .use := by
  induction A with
  | nil => exact .inl ⟨[], rfl⟩
  | cons e A ih =>
    rcases ih with ⟨U, rfl⟩ | ⟨A', j, U, rfl⟩
    · cases e with
      | use u => exact .inl ⟨u :: U, rfl⟩
      | define j => exact .inr ⟨[], j, U, rfl⟩
    · exact .inr ⟨e :: A', j, U, rfl⟩

theorem defsIn_append (A B : List Event) : defsIn (A ++ B) = defsIn A ++ defsIn B :=
  List.filterMap_append

theorem usesIn_append (A B : List Event) : usesIn (A ++ B) = usesIn A ++ usesIn B :=
  List.filterMap_append

@[simp] theorem defsIn_uses (U : List UseSite) : defsIn (U.map .use) = [] := by
  induction U with
  | nil => rfl
  | cons u U ih => exact ih

@[simp] theorem usesIn_uses (U : List UseSite) : usesIn (U.map .use) = U := by
  induction U with
  | nil => rfl
  | cons u U ih => exact congrArg (u :: ·) ih

theorem lastDef_trail (A : List Event) (j : InstId) (U : List UseSite) :
    lastDef (A ++ .define j :: U.map .use) = some j := by
  have hdefs : defsIn (.define j :: U.map .use) = [j] := congrArg (j :: ·) (defsIn_uses U)
  rw [lastDef, defsIn_append, hdefs, List.getLast?_concat]

/-- A change at one definition passes over the events before it. -/
theorem change_prepend_of_not_mem (h : i ∉ defsIn A) :
    (prepend A a).change (some i) g = prepend A (a.change (some i) g) := by
  induction A with
  | nil => rfl
  | cons e A ih =>
    cases e with
    | use u =>
      have hA : i ∉ defsIn A := h
      rw [prepend_use, prepend_use, ← ih hA]
      rfl
    | define j =>
      obtain ⟨hne, hA⟩ := not_or.mp (mt List.mem_cons.mpr (show i ∉ j :: defsIn A from h))
      rw [prepend_define, prepend_define, ← ih hA]
      simp only [change, List.map_cons, if_neg (Ne.symm hne)]

theorem change_of_not_mem {holder : InstId} (h : holder ∉ a.locals.map Local.inst) :
    a.change (some holder) g = a := by
  have hsame : a.locals.map (fun l => if l.inst = holder then { l with uses := g l.uses } else l) =
      a.locals := by
    refine (List.map_congr_left fun l hl => ?_).trans (List.map_id a.locals)
    have hne : l.inst ≠ holder := fun he => h (he ▸ List.mem_map_of_mem hl)
    rw [if_neg hne]
    rfl
  rw [change, hsame]

/-- A change at the definition in force reaches the uses behind it. -/
theorem change_prepend {w : List UseSite} (hn : (defsIn A ++ a.locals.map Local.inst).Nodup)
    (hg : ∀ U, (∀ u ∈ U, Event.use u ∈ A) → g (U ++ a.waiting) = U ++ w) :
    (prepend A a).change (lastDef A) g = prepend A ⟨w, a.locals⟩ := by
  rcases exists_trail A with ⟨U, rfl⟩ | ⟨A', j, U, rfl⟩
  · rw [lastDef, defsIn_uses, prepend_uses, prepend_uses]
    exact congrArg (Account.mk · a.locals) (hg U fun u hu => List.mem_map_of_mem hu)
  · have hdefs : defsIn (.define j :: U.map .use) = [j] := congrArg (j :: ·) (defsIn_uses U)
    rw [defsIn_append, hdefs, List.append_assoc] at hn
    obtain ⟨_, hrest, hapart⟩ := List.nodup_append.mp hn
    have hj : j ∉ defsIn A' := fun hm => hapart j hm j List.mem_cons_self rfl
    have hj' := (List.nodup_cons.mp hrest).1
    have hU : g (U ++ a.waiting) = U ++ w := hg U fun u hu =>
      List.mem_append_right _ (List.mem_cons_of_mem _ (List.mem_map_of_mem hu))
    rw [lastDef_trail, prepend_append, change_prepend_of_not_mem hj, prepend_append, prepend_define,
      prepend_define, prepend_uses, prepend_uses, ← hU]
    have hsame := congrArg Account.locals (change_of_not_mem (g := g) hj')
    simp only [change, List.map_cons, if_true] at hsame ⊢
    rw [hsame]

theorem uses_prepend_define (h : i ∉ defsIn A) :
    (prepend (A ++ .define i :: B) a).uses (some i) = (prepend B a).waiting := by
  obtain ⟨ls, hls, hinst, _⟩ := prepend_locals A (prepend (.define i :: B) a)
  rw [prepend_append, uses, hls, List.find?_append, List.find?_eq_none.mpr, prepend_define]
  · simp
  · intro l hl
    have hne : l.inst ≠ i := fun he => h (hinst ▸ he ▸ List.mem_map_of_mem hl)
    simpa using hne

theorem uses_prepend (hn : (defsIn A).Nodup) :
    ∃ U, (∀ u ∈ U, Event.use u ∈ A) ∧ (prepend A a).uses (lastDef A) = U ++ a.waiting := by
  rcases exists_trail A with ⟨U, rfl⟩ | ⟨A', j, U, rfl⟩
  · refine ⟨U, fun u hu => List.mem_map_of_mem hu, ?_⟩
    rw [lastDef, defsIn_uses, prepend_uses]
    rfl
  · refine ⟨U, fun u hu =>
      List.mem_append_right _ (List.mem_cons_of_mem _ (List.mem_map_of_mem hu)), ?_⟩
    have hdefs : defsIn (.define j :: U.map .use) = [j] := congrArg (j :: ·) (defsIn_uses U)
    rw [defsIn_append, hdefs] at hn
    have hj : j ∉ defsIn A' := fun hm =>
      (List.nodup_append.mp hn).2.2 j hm j (List.mem_singleton_self j) rfl
    rw [lastDef_trail, uses_prepend_define hj, prepend_uses]

/-! ## Keeping a part -/

theorem restrict_prepend (hk : ∀ i ∈ defsIn A, k i = true) :
    restrict k p (prepend A a) = prepend (A.filter (Event.allows p)) (restrict k p a) := by
  induction A with
  | nil => rfl
  | cons e A ih =>
    cases e with
    | use u =>
      have ih := ih hk
      rw [prepend_use]
      by_cases hu : p u = true
      · rw [List.filter_cons_of_pos (show Event.allows p (.use u) = true from hu), prepend_use,
          ← ih]
        simp only [restrict, List.filter_cons_of_pos hu]
      · rw [List.filter_cons_of_neg (show ¬ Event.allows p (.use u) = true from hu), ← ih]
        simp only [restrict, List.filter_cons_of_neg hu]
    | define i =>
      have ih := ih fun j hj => hk j (List.mem_cons_of_mem _ hj)
      have hi : k i = true := hk i List.mem_cons_self
      rw [prepend_define, List.filter_cons_of_pos (show Event.allows p (.define i) = true from rfl),
        prepend_define, ← ih]
      simp only [restrict, List.filter_cons_of_pos (p := fun l : Local => k l.inst)
        (a := ⟨i, (prepend A a).waiting⟩) hi, List.map_cons, List.filter_nil]

theorem mem_usesIn : u ∈ usesIn A ↔ Event.use u ∈ A := by
  rw [usesIn, List.mem_filterMap]
  constructor
  · rintro ⟨e, he, hu⟩
    cases e with
    | use w => cases hu; exact he
    | define i => cases hu
  · exact fun h => ⟨_, h, rfl⟩

theorem map_inst_ledger (es : List Event) : (ledger es).locals.map Local.inst = defsIn es := by
  rw [ledger, map_inst_prepend, empty, List.map_nil, List.append_nil]

theorem allUses_ledger (es : List Event) : (ledger es).allUses = usesIn es := by
  rw [ledger, allUses_prepend]
  exact List.append_nil _

theorem uses_sublist (a : Account) (holder : Option InstId) :
    (a.uses holder).Sublist a.allUses := by
  cases holder with
  | none => exact List.sublist_append_left _ _
  | some i =>
    rw [uses]
    cases h : a.locals.find? fun l => l.inst = i with
    | none => exact List.nil_sublist _
    | some l =>
      have hl := List.mem_of_find?_eq_some h
      refine .trans ?_ (List.sublist_append_right _ _)
      rw [List.flatMap]
      exact List.sublist_flatten_of_mem (List.mem_map_of_mem hl)

/-- An account whose uses all fail the test keeps nothing. -/
theorem restrict_ledger (hk : ∀ i ∈ defsIn B, k i = false) (hp : ∀ u ∈ usesIn B, p u = false) :
    restrict k p (ledger B) = empty := by
  have hw : (ledger B).waiting.filter p = [] := by
    refine List.filter_eq_nil_iff.mpr fun u hu => ?_
    rw [hp u (allUses_ledger B ▸ (uses_sublist (ledger B) none).subset hu)]
    nofun
  have hl : ((ledger B).locals.filter fun l => k l.inst) = [] := by
    refine List.filter_eq_nil_iff.mpr fun l hm => ?_
    rw [hk l.inst (map_inst_ledger B ▸ List.mem_map_of_mem hm)]
    nofun
  rw [restrict, hw, hl]
  rfl

theorem restrict_front (hA : ∀ i ∈ defsIn A, k i = true) (hB : ∀ i ∈ defsIn B, k i = false)
    (hA' : ∀ u ∈ usesIn A, p u = true) (hB' : ∀ u ∈ usesIn B, p u = false) :
    restrict k p (ledger (A ++ B)) = ledger A := by
  rw [ledger_append, restrict_prepend hA, restrict_ledger hB hB', List.filter_eq_self.mpr]
  · rfl
  · intro e he
    cases e with
    | use u => exact hA' u (mem_usesIn.mpr he)
    | define i => rfl

theorem locals_back (hA : ∀ i ∈ defsIn A, k i = false) (hB : ∀ i ∈ defsIn B, k i = true) :
    (ledger (A ++ B)).locals.filter (fun l => k l.inst) = (ledger B).locals := by
  obtain ⟨ls, hls, hinst, _⟩ := prepend_locals A (ledger B)
  rw [ledger_append, hls, List.filter_append, List.filter_eq_nil_iff.mpr, List.filter_eq_self.mpr,
    List.nil_append]
  · exact fun l hl => hB l.inst (map_inst_ledger B ▸ List.mem_map_of_mem hl)
  · intro l hl
    rw [hA l.inst (hinst ▸ List.mem_map_of_mem hl)]
    nofun

/-- The uses behind a cut that are held before it wait behind it. -/
theorem waiting_back (hA : ∀ i ∈ defsIn A, k i = true) (hB : ∀ i ∈ defsIn B, k i = false)
    (hA' : ∀ u ∈ usesIn A, p u = false) (hB' : ∀ u ∈ usesIn B, p u = true) :
    ((ledger (A ++ B)).waiting ++
      ((ledger (A ++ B)).locals.filter fun l => k l.inst).flatMap Local.uses).filter p =
        (ledger B).waiting := by
  obtain ⟨ls, hls, hinst, hrest⟩ := prepend_locals A (ledger B)
  have hformed : (ledger (A ++ B)).locals.filter (fun l => k l.inst) = ls := by
    rw [ledger_append, hls, List.filter_append, List.filter_eq_self.mpr, List.filter_eq_nil_iff.mpr,
      List.append_nil]
    · intro l hl
      rw [hB l.inst (map_inst_ledger B ▸ List.mem_map_of_mem hl)]
      nofun
    · exact fun l hl => hA l.inst (hinst ▸ List.mem_map_of_mem hl)
  -- Without the definitions behind the cut, what is held is used before it or waits behind it.
  have hall := allUses_prepend A ⟨(ledger B).waiting, []⟩
  rw [hrest, List.append_nil, allUses, allUses, List.flatMap_nil, List.append_nil] at hall
  rw [hformed, ledger_append]
  rw [hall, List.filter_append, List.filter_eq_nil_iff.mpr, List.nil_append,
    List.filter_eq_self.mpr]
  · intro u hu
    exact hB' u (allUses_ledger B ▸ (uses_sublist (ledger B) none).subset hu)
  · intro u hu
    rw [hA' u hu]
    nofun

/-! ## Who holds a use -/

theorem exists_local (hu : u ∈ a.uses (some i)) : ∃ l ∈ a.locals, l.inst = i ∧ u ∈ l.uses := by
  rw [uses] at hu
  cases hf : a.locals.find? fun l => l.inst = i with
  | none =>
    rw [hf] at hu
    cases hu
  | some l =>
    rw [hf] at hu
    exact ⟨l, List.mem_of_find?_eq_some hf, by simpa using List.find?_some hf, hu⟩

theorem holder_unique {h h' : Option InstId} (hn : a.allUses.Nodup)
    (hu : u ∈ a.uses h) (hu' : u ∈ a.uses h') : h = h' := by
  obtain ⟨_, hflat, hapart⟩ := List.nodup_append.mp hn
  have hnone : ∀ {i}, u ∈ a.waiting → u ∉ a.uses (some i) := fun hw hm => by
    obtain ⟨l, hl, _, hul⟩ := exists_local hm
    exact hapart u hw u (List.mem_flatMap.mpr ⟨l, hl, hul⟩) rfl
  cases h with
  | none =>
    cases h' with
    | none => rfl
    | some j => exact absurd hu' (hnone hu)
  | some i =>
    cases h' with
    | none => exact absurd hu (hnone hu')
    | some j =>
      obtain ⟨l, hl, rfl, hul⟩ := exists_local hu
      obtain ⟨l', hl', rfl, hul'⟩ := exists_local hu'
      by_contra hne
      have hpair := (List.nodup_flatMap.mp hflat).2
      have : Std.Symm (Function.onFun List.Disjoint Local.uses) :=
        ⟨fun _ _ h _ hm hm' => h hm' hm⟩
      exact hpair.forall hl hl' (fun he => hne (by rw [he])) hul hul'

/-- The definition that holds a use is the first one that lists it. -/
theorem find_holder {holder : Option InstId} (hn : a.allUses.Nodup)
    (hi : (a.locals.map Local.inst).Nodup) (hu : u ∈ a.uses holder) :
    (a.locals.find? fun l => l.uses.contains u).map Local.inst = holder := by
  have huses : ∀ l ∈ a.locals, a.uses (some l.inst) = l.uses := by
    intro l hl
    rw [uses]
    cases hf : a.locals.find? fun x => x.inst = l.inst with
    | none => simpa using List.find?_eq_none.mp hf l hl
    | some x =>
      have hinst : x.inst = l.inst := by simpa using List.find?_some hf
      rw [List.inj_on_of_nodup_map hi (List.mem_of_find?_eq_some hf) hl hinst]
      rfl
  cases hf : a.locals.find? fun l => l.uses.contains u with
  | some l =>
    have hul : u ∈ l.uses := by simpa using List.find?_some hf
    rw [← huses l (List.mem_of_find?_eq_some hf)] at hul
    exact holder_unique hn hul hu
  | none =>
    cases holder with
    | none => rfl
    | some i =>
      obtain ⟨l, hl, _, hul⟩ := exists_local hu
      exact absurd (List.contains_iff_mem.mpr hul) (List.find?_eq_none.mp hf l hl)

end Account

/-! ## The events of a block -/

def Timeline.account (x : Timeline) : Account := ⟨x.waiting, x.locals⟩

namespace Func

open Account

def usesOn (f : Func) (v : VarId) (i : InstId) : List UseSite :=
  ((f.usesOf i).filter fun e => e.2 = v).map Prod.fst

def eventsOf (f : Func) (v : VarId) (i : InstId) : List Event :=
  (f.usesOn v i).map .use ++ if f.defines v i then [.define i] else []

def events (f : Func) (b : NodeId) (v : VarId) : List Event := (f.code b).flatMap (f.eventsOf v)

def account (f : Func) (b : NodeId) (v : VarId) : Account := ⟨f.waiting b v, f.held b v⟩

def Books (f : Func) (L : NodeId → VarId → List Event) : Prop :=
  ∀ b v, f.account b v = ledger (L b v)

variable {f f' : Func} {b : NodeId} {v : VarId} {i : InstId} {u : UseSite} {l : List InstId}

theorem account_of_some {x : Timeline} (h : f.timeline? b v = some x) :
    f.account b v = x.account := by
  rw [account, waiting, held, h]
  rfl

theorem account_of_none (h : f.timeline? b v = none) : f.account b v = .empty := by
  rw [account, waiting, held, h]
  rfl

theorem defines_congr (hd : (f'.inst i).dest = (f.inst i).dest) (v : VarId) :
    f'.defines v i = f.defines v i := by
  rw [defines, defines, hd]

theorem eventsOf_congr (ho : (f'.inst i).operands = (f.inst i).operands)
    (hd : (f'.inst i).dest = (f.inst i).dest) (v : VarId) : f'.eventsOf v i = f.eventsOf v i := by
  rw [eventsOf, eventsOf, usesOn, usesOn, usesOf, usesOf, ho, defines_congr hd]

theorem mem_usesOf {e : UseSite × VarId} : e ∈ f.usesOf i ↔
    e.1.inst = i ∧ (f.inst i).operands[e.1.slot]? = some (.use e.2) := by
  obtain ⟨⟨j, slot⟩, v⟩ := e
  rw [usesOf, List.mem_filterMap]
  constructor
  · rintro ⟨⟨o, n⟩, hm, he⟩
    cases o with
    | constant c => cases he
    | use w =>
      cases he
      exact ⟨rfl, List.mem_zipIdx_iff_getElem?.mp hm⟩
  · rintro ⟨rfl, ho⟩
    exact ⟨(.use v, slot), List.mem_zipIdx_iff_getElem?.mpr ho, rfl⟩

theorem usesIn_eventsOf (f : Func) (v : VarId) (i : InstId) :
    usesIn (f.eventsOf v i) = f.usesOn v i := by
  rw [eventsOf, usesIn_append, usesIn_uses]
  split <;> exact List.append_nil _

theorem defsIn_eventsOf (f : Func) (v : VarId) (i : InstId) :
    defsIn (f.eventsOf v i) = if f.defines v i then [i] else [] := by
  rw [eventsOf, defsIn_append, defsIn_uses]
  split <;> rfl

theorem defsIn_flatMap (f : Func) (v : VarId) (l : List InstId) :
    defsIn (l.flatMap (f.eventsOf v)) = l.filter (f.defines v) := by
  induction l with
  | nil => rfl
  | cons i l ih =>
    rw [List.flatMap_cons, defsIn_append, defsIn_eventsOf, ih, List.filter_cons]
    split <;> rfl

theorem usesIn_flatMap (f : Func) (v : VarId) (l : List InstId) :
    usesIn (l.flatMap (f.eventsOf v)) = l.flatMap (f.usesOn v) := by
  rw [usesIn, List.filterMap_flatMap]
  exact List.flatMap_congr fun i _ => usesIn_eventsOf f v i

theorem mem_usesOn : u ∈ f.usesOn v i ↔
    u.inst = i ∧ (f.inst i).operands[u.slot]? = some (.use v) := by
  rw [usesOn, List.mem_map]
  constructor
  · rintro ⟨e, he, rfl⟩
    obtain ⟨hm, hv⟩ := List.mem_filter.mp he
    rw [mem_usesOf, of_decide_eq_true hv] at hm
    exact hm
  · intro h
    exact ⟨(u, v), List.mem_filter.mpr ⟨mem_usesOf.mpr h, decide_eq_true rfl⟩, rfl⟩

theorem mem_usesIn_flatMap : u ∈ usesIn (l.flatMap (f.eventsOf v)) ↔
    u.inst ∈ l ∧ (f.inst u.inst).operands[u.slot]? = some (.use v) := by
  rw [usesIn_flatMap, List.mem_flatMap]
  constructor
  · rintro ⟨i, hi, hu⟩
    obtain ⟨rfl, ho⟩ := mem_usesOn.mp hu
    exact ⟨hi, ho⟩
  · rintro ⟨hi, ho⟩
    exact ⟨u.inst, hi, mem_usesOn.mpr ⟨rfl, ho⟩⟩

/-! ## The order of uses -/

theorem siteBefore_asymm {u w : UseSite} (h : f.siteBefore u w = true) :
    f.siteBefore w u = false := by
  rw [siteBefore] at h ⊢
  split at h
  · next he =>
    rw [if_pos he.symm, decide_eq_false_iff_not]
    have := of_decide_eq_true h
    omega
  · next he =>
    rw [if_neg (Ne.symm he), decide_eq_false_iff_not]
    have := of_decide_eq_true h
    omega

theorem siteBefore_of_lt {u w : UseSite} (h : f.indexOf u.inst < f.indexOf w.inst) :
    f.siteBefore u w = true := by
  rw [siteBefore, if_neg (Nat.ne_of_lt h)]
  exact decide_eq_true h

theorem pairwise_usesIn (h : l.Pairwise fun i j => f.indexOf i < f.indexOf j) (v : VarId) :
    (usesIn (l.flatMap (f.eventsOf v))).Pairwise fun u w => f.siteBefore u w = true := by
  rw [usesIn_flatMap, List.pairwise_flatMap]
  constructor
  · intro i _
    have hslots : (f.usesOf i).Pairwise fun e e' => e.1.slot < e'.1.slot := by
      rw [usesOf, List.pairwise_filterMap]
      have hidx : (f.inst i).operands.zipIdx.Pairwise fun x y => x.2 < y.2 := by
        rw [← List.pairwise_map (f := Prod.snd) (R := (· < ·)), List.zipIdx_map_snd]
        exact List.pairwise_lt_range'
      refine hidx.imp fun {x y} hxy e he e' he' => ?_
      obtain ⟨ox, nx⟩ := x
      obtain ⟨oy, ny⟩ := y
      cases ox with
      | constant c => cases he
      | use w =>
        cases oy with
        | constant c => cases he'
        | use w' =>
          cases he
          cases he'
          exact hxy
    rw [usesOn, List.pairwise_map]
    refine (hslots.sublist List.filter_sublist).imp_of_mem fun {e e'} he he' hlt => ?_
    have hi := (mem_usesOf.mp (List.mem_filter.mp he).1).1
    have hi' := (mem_usesOf.mp (List.mem_filter.mp he').1).1
    rw [siteBefore, if_pos (by rw [hi, hi'])]
    exact decide_eq_true hlt
  · refine h.imp fun {i j} hij u hu w hw => ?_
    rw [← (mem_usesOn.mp hu).1, ← (mem_usesOn.mp hw).1] at hij
    exact siteBefore_of_lt hij

theorem Scheduled.pairwise_code (h : f.Scheduled) (b : NodeId) :
    (f.code b).Pairwise fun i j => f.indexOf i < f.indexOf j := by
  rw [List.pairwise_iff_getElem]
  intro m n hm hn hmn
  rw [h.indexOf (List.getElem?_eq_getElem hm), h.indexOf (List.getElem?_eq_getElem hn)]
  exact hmn

/-- A use is added between those before and those behind it. -/
theorem insertSite_between {U W : List UseSite} (hU : ∀ w ∈ U, f.siteBefore u w = false)
    (hW : ∀ w ∈ W, f.siteBefore u w = true) : f.insertSite u (U ++ W) = U ++ u :: W := by
  obtain ⟨htake, hdrop⟩ := span_between (p := fun w => !f.siteBefore u w)
    (fun w hw => by rw [hU w hw]; rfl) fun w hw => by rw [hW w hw]; rfl
  rw [insertSite, htake, hdrop]

/-- Uses that are in order are added one behind the other. -/
theorem foldl_insertSite {U : List UseSite} : ∀ {W : List UseSite},
    (W ++ U).Pairwise (fun u w => f.siteBefore u w = true) →
    U.foldl (fun us u => f.insertSite u us) W = W ++ U := by
  induction U with
  | nil => exact fun _ => (List.append_nil _).symm
  | cons u U ih =>
    intro W h
    have hu : ∀ w ∈ W, f.siteBefore u w = false := fun w hw =>
      siteBefore_asymm ((List.pairwise_append.mp h).2.2 w hw u List.mem_cons_self)
    have hins := insertSite_between (W := []) hu fun w hw => by cases hw
    rw [List.append_nil] at hins
    rw [List.foldl_cons, hins, ih (by rw [List.append_assoc]; exact h), List.append_assoc]
    rfl

/-- The definition that is in force at a place of its block. -/
theorem lastBefore_prepend {A : List Event} {a : Account} {n : Nat}
    (hA : ∀ i ∈ defsIn A, f.indexOf i < n) (ha : ∀ i ∈ a.locals.map Local.inst, n ≤ f.indexOf i) :
    f.lastBefore (prepend A a).locals n = lastDef A := by
  obtain ⟨ls, hls, hinst, _⟩ := prepend_locals A a
  obtain ⟨htake, _⟩ := span_between (p := fun l : Local => decide (f.indexOf l.inst < n))
    (fun l hl => decide_eq_true (hA l.inst (hinst ▸ List.mem_map_of_mem hl)))
    fun l hl => decide_eq_false (Nat.not_lt.mpr (ha l.inst (List.mem_map_of_mem hl)))
  rw [lastBefore, hls, htake, ← List.getLast?_map, hinst, lastDef]

end Func
end DefFlow.Flow
