import DefFlow.Proofs.State.Code
import DefFlow.Proofs.State.Trees

/-!
# Reaching definitions

A definition reaches a position if a path leads from right behind it to the position
without passing another definition of the variable. Seen from the position, either a
definition in its own block is the only one that reaches it, or what reaches it is
what leaves the blocks that define the variable and are seen from the top of its own.

A trail leads from the entry along edges to the top of a block and runs the code of the blocks
that it leaves. A variable arrives without a definition exactly if some trail runs none of its
definitions, and with one exactly if some trail runs one.
-/

set_option autoImplicit false

namespace DefFlow.Flow.Func

def Quiet (f : Func) (v : VarId) (b : NodeId) (i j : Nat) : Prop :=
  ∀ k, i ≤ k → k < j → ∀ x, (f.code b)[k]? = some x → f.defines v x = false

inductive Path (f : Func) (v : VarId) : NodeId × Nat → NodeId × Nat → Prop
  | within {b : NodeId} {i j : Nat} (h : i ≤ j) (hj : j ≤ (f.code b).length)
      (q : f.Quiet v b i j) : Path f v (b, i) (b, j)
  | along {s : NodeId × Nat} {b c : NodeId} {j : Nat} (h : Path f v s (b, (f.code b).length))
      (hc : c ∈ f.succs b) (hj : j ≤ (f.code c).length) (q : f.Quiet v c 0 j) : Path f v s (c, j)

/-- What reaches a position of `b`: a definition of `v`, or nothing from the entry. -/
def Reaches (f : Func) (v : VarId) (b : NodeId) (position : Nat) : Option InstId → Prop
  | some i => ∃ c ∈ f.blocks, ∃ k, (f.code c)[k]? = some i ∧ f.defines v i = true ∧
      f.Path v (c, k + 1) (b, position)
  | none => ∃ e, f.entry = some e ∧ f.Path v (e, 0) (b, position)

def Defining (f : Func) (v : VarId) (b : NodeId) : Prop := f.locals b v ≠ []

def lastDef (f : Func) (v : VarId) (b : NodeId) : Option InstId := (f.locals b v).getLast?

variable {f : Func} {v : VarId} {b c : NodeId}

/-- A block decides what leaves it by a definition or by a join. -/
theorem Tables.decides_iff (h : f.Tables) :
    f.Decides v b ↔ f.Defining v b ∨ f.joinNodes b v ≠ [] := by
  rw [Decides, h.explicit?_eq, Defining]
  split
  · next hnil => simp [hnil.1, hnil.2]
  · next hne =>
    rw [not_and_or] at hne
    refine iff_of_true ?_ hne
    cases hid : f.timelineId? b v with
    | some t => rfl
    | none => exact absurd ⟨locals_of_none hid, joinNodes_of_none hid⟩ (not_and_or.mpr hne)

theorem Scheduled.quiet_iff (h : f.Scheduled) :
    f.Quiet v b 0 (f.code b).length ↔ ¬ f.Defining v b := by
  rw [Defining, not_not, h.locals, ← List.take_length (l := f.code b), filter_take_eq_nil_iff,
    List.take_length]
  simp [Quiet]

theorem Scheduled.latestDefBefore?_eq_none (h : f.Scheduled) {n : Nat} :
    f.latestDefBefore? b n v = none ↔ f.Quiet v b 0 n := by
  rw [h.latestDefBefore?, List.getLast?_eq_none_iff, filter_take_eq_nil_iff]
  simp [Quiet]

theorem Scheduled.latestDefBefore?_eq_some (h : f.Scheduled) {n : Nat} {i : InstId} :
    f.latestDefBefore? b n v = some i ↔
      ∃ k, k < n ∧ (f.code b)[k]? = some i ∧ f.defines v i = true ∧ f.Quiet v b (k + 1) n := by
  rw [h.latestDefBefore?, getLast?_filter_take]
  simp only [Quiet, Nat.succ_le_iff]

theorem Scheduled.lastDef_eq_some (h : f.Scheduled) {i : InstId} :
    f.lastDef v b = some i ↔ ∃ k, (f.code b)[k]? = some i ∧ f.defines v i = true ∧
      f.Quiet v b (k + 1) (f.code b).length := by
  have hfull : f.lastDef v b =
      (((f.code b).take (f.code b).length).filter (f.defines v)).getLast? := by
    rw [lastDef, h.locals, List.take_length]
  rw [hfull, getLast?_filter_take]
  simp only [Quiet, Nat.succ_le_iff]
  constructor
  · rintro ⟨k, _, hk⟩
    exact ⟨k, hk⟩
  · rintro ⟨k, hk⟩
    exact ⟨k, (List.getElem?_eq_some_iff.mp hk.1).1, hk⟩

theorem Scheduled.block_of_lastDef (h : f.Scheduled) {i : InstId} (hi : f.lastDef v b = some i) :
    (f.inst i).block = some b := by
  obtain ⟨k, hk, -⟩ := h.lastDef_eq_some.mp hi
  obtain ⟨x, hx, hxb, -⟩ := h.place hk
  rw [Func.inst, hx]
  exact hxb

theorem lastDef_isSome (h : f.Defining v b) : ∃ i, f.lastDef v b = some i := by
  rw [lastDef, List.getLast?_eq_some_getLast h]
  exact ⟨_, rfl⟩

theorem arrives_mem (hf : f.Forest) {opq : NodeId → Prop} {a : Option NodeId}
    (hb : b ∈ f.blocks) (h : Arrives f.preds opq b a) :
    ∀ c, a = some c → c ∈ f.blocks ∧ opq c := by
  induction h with
  | start _ => intro c hc; cases hc
  | leaves hp ho =>
    intro c hc
    cases hc
    exact ⟨hf.pred_mem hb hp, ho⟩
  | passes hp _ _ ih => exact ih (hf.pred_mem hb hp)

theorem departs_mem (hf : f.Forest) {opq : NodeId → Prop} (hb : b ∈ f.blocks)
    (h : Departs f.preds opq b (some c)) : c ∈ f.blocks := by
  rcases h with ⟨-, hc⟩ | ⟨-, harr⟩
  · cases hc
    exact hb
  · exact (arrives_mem hf hb harr c rfl).1

/-! ## From a definition -/

theorem arrives_of_path (hs : f.Scheduled) (hf : f.Forest) {k n : Nat} {x y : NodeId × Nat}
    (hx : x = (c, k)) (hy : y = (b, n)) (hc : c ∈ f.blocks) (hdef : f.Defining v c)
    (h : f.Path v x y) : b ∈ f.blocks ∧
      ((b = c ∧ k ≤ n ∧ f.Quiet v c k n) ∨
        (f.Quiet v b 0 n ∧ f.Quiet v c k (f.code c).length ∧ k ≤ (f.code c).length ∧
          Arrives f.preds (f.Defining v) b (some c))) := by
  induction h generalizing b n with
  | within hij _ q =>
    cases hx
    cases hy
    exact ⟨hc, Or.inl ⟨rfl, hij, q⟩⟩
  | along _ hsucc _ q ih =>
    cases hy
    obtain ⟨hb, ih⟩ := ih hx rfl
    have hmem := hf.succ_mem hb hsucc
    have hpred := (hf.mem_preds_iff_mem_succs hb hmem).mpr hsucc
    refine ⟨hmem, Or.inr ⟨q, ?_⟩⟩
    rcases ih with ⟨rfl, hle, hq⟩ | ⟨hqb, hqc, hle, harr⟩
    · exact ⟨hq, hle, .leaves hpred hdef⟩
    · exact ⟨hqc, hle, .passes hpred (hs.quiet_iff.mp hqb) harr⟩

theorem path_of_arrives (hs : f.Scheduled) (hf : f.Forest) {k : Nat} {a : Option NodeId}
    (hb : b ∈ f.blocks) (hk : k ≤ (f.code c).length) (hq : f.Quiet v c k (f.code c).length)
    (h : Arrives f.preds (f.Defining v) b a) (ha : a = some c) {n : Nat}
    (hn : n ≤ (f.code b).length) (hqb : f.Quiet v b 0 n) : f.Path v (c, k) (b, n) := by
  induction h generalizing n with
  | start _ => cases ha
  | leaves hp _ =>
    cases ha
    have hpb := hf.pred_mem hb hp
    exact .along (.within hk (Nat.le_refl _) hq) ((hf.mem_preds_iff_mem_succs hpb hb).mp hp) hn hqb
  | passes hp hnot _ ih =>
    have hpb := hf.pred_mem hb hp
    exact .along (ih hpb ha (Nat.le_refl _) (hs.quiet_iff.mpr hnot))
      ((hf.mem_preds_iff_mem_succs hpb hb).mp hp) hn hqb

/-! ## From the entry -/

theorem arrives_of_entry_path (hs : f.Scheduled) (hf : f.Forest) (he : f.Enters) {n : Nat}
    {x y : NodeId × Nat} (hx : x = (c, 0)) (hy : y = (b, n)) (hc : f.entry = some c)
    (h : f.Path v x y) :
    b ∈ f.blocks ∧ f.Quiet v b 0 n ∧ Arrives f.preds (f.Defining v) b none := by
  induction h generalizing b n with
  | within _ _ q =>
    cases hx
    cases hy
    exact ⟨Component.mem_blocks_of_entry hc, q, .start (he _ hc)⟩
  | along _ hsucc _ q ih =>
    cases hy
    obtain ⟨hb, hqb, harr⟩ := ih hx rfl
    have hmem := hf.succ_mem hb hsucc
    have hpred := (hf.mem_preds_iff_mem_succs hb hmem).mpr hsucc
    exact ⟨hmem, q, .passes hpred (hs.quiet_iff.mp hqb) harr⟩

theorem entry_path_of_arrives (hs : f.Scheduled) (hf : f.Forest) {a : Option NodeId}
    (hb : b ∈ f.blocks) (h : Arrives f.preds (f.Defining v) b a) (ha : a = none) {n : Nat}
    (hn : n ≤ (f.code b).length) (hqb : f.Quiet v b 0 n) :
    ∃ e, f.entry = some e ∧ f.Path v (e, 0) (b, n) := by
  induction h generalizing n with
  | @start x hp =>
    rcases hf.eq_entry_or_forward hb with he | ⟨p, hm, _⟩
    · exact ⟨x, he, .within (Nat.zero_le _) hn hqb⟩
    · rw [hp] at hm
      cases hm
  | leaves _ _ => cases ha
  | passes hp hnot _ ih =>
    have hpb := hf.pred_mem hb hp
    obtain ⟨e, he, hpath⟩ := ih hpb ha (Nat.le_refl _) (hs.quiet_iff.mpr hnot)
    exact ⟨e, he, .along hpath ((hf.mem_preds_iff_mem_succs hpb hb).mp hp) hn hqb⟩

/-! ## What reaches a position -/

/-- A definition before the position in its own block hides everything else. -/
theorem reaches_of_latest (hs : f.Scheduled) (hf : f.Forest) (he : f.Enters) {n : Nat}
    (hb : b ∈ f.blocks) (hn : n ≤ (f.code b).length) {i : InstId}
    (hi : f.latestDefBefore? b n v = some i) (d : Option InstId) :
    f.Reaches v b n d ↔ d = some i := by
  have hloud : ¬ f.Quiet v b 0 n := by
    rw [← hs.latestDefBefore?_eq_none, hi]
    simp
  obtain ⟨k, hk, hki, hdef, hq⟩ := hs.latestDefBefore?_eq_some.mp hi
  constructor
  · cases d with
    | none =>
      rintro ⟨e, hent, hpath⟩
      exact absurd (arrives_of_entry_path hs hf he rfl rfl hent hpath).2.1 hloud
    | some j =>
      rintro ⟨c, hc, m, hmj, hdj, hpath⟩
      have hdc : f.Defining v c := by
        rw [Defining, hs.locals]
        exact List.ne_nil_of_mem (List.mem_filter.mpr ⟨List.mem_of_getElem? hmj, hdj⟩)
      rcases (arrives_of_path hs hf rfl rfl hc hdc hpath).2 with ⟨rfl, hle, hqc⟩ | ⟨hqb, _⟩
      · rw [← hi, eq_comm, hs.latestDefBefore?_eq_some]
        exact ⟨m, hle, hmj, hdj, hqc⟩
      · exact absurd hqb hloud
  · rintro rfl
    exact ⟨b, hb, k, hki, hdef, .within hk hn hq⟩

/-- What reaches a position that no definition of its own block precedes arrives at the top. -/
theorem arrives_of_reaches (hs : f.Scheduled) (hf : f.Forest) {n : Nat}
    (hi : f.latestDefBefore? b n v = none) {i : InstId} (h : f.Reaches v b n (some i)) :
    ∃ c, f.lastDef v c = some i ∧ Arrives f.preds (f.Defining v) b (some c) := by
  obtain ⟨c, hc, m, hmi, hdi, hpath⟩ := h
  have hdc : f.Defining v c := by
    rw [Defining, hs.locals]
    exact List.ne_nil_of_mem (List.mem_filter.mpr ⟨List.mem_of_getElem? hmi, hdi⟩)
  rcases (arrives_of_path hs hf rfl rfl hc hdc hpath).2 with ⟨rfl, hle, _⟩ | ⟨_, hqc, _, harr⟩
  · rw [hs.latestDefBefore?_eq_none.mp hi m (Nat.zero_le _) hle i hmi] at hdi
    cases hdi
  · exact ⟨c, hs.lastDef_eq_some.mpr ⟨m, hmi, hdi, hqc⟩, harr⟩

theorem reaches_of_quiet (hs : f.Scheduled) (hf : f.Forest) (he : f.Enters) {n : Nat}
    (hb : b ∈ f.blocks) (hn : n ≤ (f.code b).length)
    (hi : f.latestDefBefore? b n v = none) (d : Option InstId) :
    f.Reaches v b n d ↔
      ∃ a, Arrives f.preds (f.Defining v) b a ∧ d = a.bind (f.lastDef v) := by
  have hq := hs.latestDefBefore?_eq_none.mp hi
  constructor
  · cases d with
    | none =>
      rintro ⟨e, hent, hpath⟩
      exact ⟨none, (arrives_of_entry_path hs hf he rfl rfl hent hpath).2.2, rfl⟩
    | some j =>
      intro hreach
      obtain ⟨c, hlast, harr⟩ := arrives_of_reaches hs hf hi hreach
      exact ⟨some c, harr, hlast.symm⟩
  · rintro ⟨a, harr, rfl⟩
    cases a with
    | none => exact entry_path_of_arrives hs hf hb harr rfl hn hq
    | some c =>
      have hmem := arrives_mem hf hb harr c rfl
      obtain ⟨i, hci⟩ := lastDef_isSome hmem.2
      obtain ⟨k, hk, hdef, hqc⟩ := hs.lastDef_eq_some.mp hci
      rw [Option.bind_some, hci]
      have hlt := (List.getElem?_eq_some_iff.mp hk).1
      exact ⟨c, hmem.1, k, hk, hdef, path_of_arrives hs hf hb hlt hqc harr rfl hn hq⟩

theorem reaches_end_iff (hs : f.Scheduled) (hf : f.Forest) (he : f.Enters) (hb : b ∈ f.blocks)
    (d : Option InstId) : f.Reaches v b (f.code b).length d ↔
      ∃ a, Departs f.preds (f.Defining v) b a ∧ d = a.bind (f.lastDef v) := by
  have hlatest : f.latestDefBefore? b (f.code b).length v = f.lastDef v b := by
    rw [hs.latestDefBefore?, List.take_length, lastDef, hs.locals]
  by_cases hd : f.Defining v b
  · obtain ⟨i, hi⟩ := lastDef_isSome hd
    rw [reaches_of_latest hs hf he hb (Nat.le_refl _) (hlatest.trans hi)]
    constructor
    · rintro rfl
      exact ⟨some b, Or.inl ⟨hd, rfl⟩, hi.symm⟩
    · rintro ⟨a, ⟨-, rfl⟩ | ⟨hnot, -⟩, rfl⟩
      · exact hi
      · exact absurd hd hnot
  · have hnone := hs.latestDefBefore?_eq_none.mpr (hs.quiet_iff.mpr hd)
    rw [reaches_of_quiet hs hf he hb (Nat.le_refl _) hnone]
    constructor
    · rintro ⟨a, ha, rfl⟩
      exact ⟨a, Or.inr ⟨hd, ha⟩, rfl⟩
    · rintro ⟨a, ⟨hdef, -⟩ | ⟨-, ha⟩, rfl⟩
      · exact absurd hdef hd
      · exact ⟨a, ha, rfl⟩

/-! ## Trails -/

inductive Trail (f : Func) : NodeId → List InstId → Prop
  | entry {e : NodeId} (h : f.entry = some e) : Trail f e []
  | along {b c : NodeId} {is : List InstId} (h : Trail f b is) (hc : c ∈ f.succs b) :
      Trail f c (is ++ f.code b)

def Free (f : Func) (v : VarId) (is : List InstId) : Prop := ∀ i ∈ is, f.defines v i = false

section

variable {f : Func} {v : VarId} {b : NodeId} {is js : List InstId}

theorem free_append : f.Free v (is ++ js) ↔ f.Free v is ∧ f.Free v js := List.forall_mem_append

theorem free_iff_filter : f.Free v is ↔ is.filter (f.defines v) = [] := by
  rw [List.filter_eq_nil_iff]
  simp [Free]

theorem Scheduled.free_code (h : f.Scheduled) : f.Free v (f.code b) ↔ ¬ f.Defining v b := by
  rw [Defining, not_not, h.locals, free_iff_filter]

theorem free_take {n : Nat} : f.Free v ((f.code b).take n) ↔ f.Quiet v b 0 n := by
  rw [free_iff_filter, filter_take_eq_nil_iff]
  exact ⟨fun h k _ => h k, fun h k => h k (Nat.zero_le k)⟩

theorem Trail.mem_blocks (hf : f.Forest) (h : f.Trail b is) : b ∈ f.blocks := by
  induction h with
  | entry he => exact Component.mem_blocks_of_entry he
  | along _ hc ih => exact hf.succ_mem ih hc

theorem Forest.exists_trail (hf : f.Forest) : ∀ {b : NodeId}, b ∈ f.blocks → ∃ is,
    f.Trail b is := by
  intro b hb
  -- The blocks come in an order in which each but the entry has a predecessor before it.
  induction hn : f.blocks.idxOf b using Nat.strong_induction_on generalizing b with
  | _ n ih =>
    rcases hf.eq_entry_or_forward hb with he | ⟨p, hp, hlt⟩
    · exact ⟨[], .entry he⟩
    · have hpm := hf.pred_mem hb hp
      obtain ⟨is, his⟩ := ih _ (hn ▸ hlt) hpm rfl
      exact ⟨_, his.along ((hf.mem_preds_iff_mem_succs hpm hb).mp hp)⟩

theorem Trail.arrives (hs : f.Scheduled) (hf : f.Forest) (he : f.Enters) (v : VarId)
    (h : f.Trail b is) :
    ∃ a, Arrives f.preds (f.Defining v) b a ∧ (a = none ↔ f.Free v is) := by
  induction h with
  | entry h => exact ⟨none, .start (he _ h), fun _ => nofun, fun _ => rfl⟩
  | @along b c is h hc ih =>
    have hb := h.mem_blocks hf
    have hp := (hf.mem_preds_iff_mem_succs hb (hf.succ_mem hb hc)).mpr hc
    obtain ⟨a, ha, hfree⟩ := ih
    by_cases hd : f.Defining v b
    · refine ⟨some b, .leaves hp hd, nofun, fun hall => ?_⟩
      exact absurd hd (hs.free_code.mp (free_append.mp hall).2)
    · refine ⟨a, .passes hp hd ha, ?_⟩
      rw [free_append, hfree, and_iff_left (hs.free_code.mpr hd)]

theorem exists_trail_of_arrives (hs : f.Scheduled) (hf : f.Forest) {a : Option NodeId}
    (h : Arrives f.preds (f.Defining v) b a) (hb : b ∈ f.blocks) :
    ∃ is, f.Trail b is ∧ (a = none ↔ f.Free v is) := by
  induction h with
  | start hnone =>
    rcases hf.eq_entry_or_forward hb with he | ⟨p, hp, -⟩
    · exact ⟨[], .entry he, fun _ => nofun, fun _ => rfl⟩
    · rw [hnone] at hp
      cases hp
  | leaves hp hd =>
    have hpm := hf.pred_mem hb hp
    obtain ⟨is, his⟩ := hf.exists_trail hpm
    refine ⟨_, his.along ((hf.mem_preds_iff_mem_succs hpm hb).mp hp), nofun, fun hall => ?_⟩
    exact absurd hd (hs.free_code.mp (free_append.mp hall).2)
  | passes hp hd _ ih =>
    have hpm := hf.pred_mem hb hp
    obtain ⟨is, his, hfree⟩ := ih hpm
    refine ⟨_, his.along ((hf.mem_preds_iff_mem_succs hpm hb).mp hp), ?_⟩
    rw [free_append, hfree, and_iff_left (hs.free_code.mpr hd)]

/-- No definition arrives exactly if every trail is free of them. -/
theorem forall_arrives_iff (hs : f.Scheduled) (hf : f.Forest) (he : f.Enters)
    (hb : b ∈ f.blocks) : (∀ a, Arrives f.preds (f.Defining v) b a → a = none) ↔
      ∀ is, f.Trail b is → f.Free v is := by
  constructor
  · intro h is his
    obtain ⟨a, ha, hfree⟩ := his.arrives hs hf he v
    exact hfree.mp (h a ha)
  · intro h a ha
    obtain ⟨is, his, hfree⟩ := exists_trail_of_arrives hs hf ha hb
    exact hfree.mpr (h is his)

theorem arrives_none_iff (hs : f.Scheduled) (hf : f.Forest) (he : f.Enters) (hb : b ∈ f.blocks) :
    Arrives f.preds (f.Defining v) b none ↔ ∃ is, f.Trail b is ∧ f.Free v is := by
  constructor
  · intro h
    obtain ⟨is, his, hfree⟩ := exists_trail_of_arrives hs hf h hb
    exact ⟨is, his, hfree.mp rfl⟩
  · rintro ⟨is, his, hfree⟩
    obtain ⟨a, ha, hiff⟩ := his.arrives hs hf he v
    rwa [hiff.mpr hfree] at ha

theorem arrives_some_iff (hs : f.Scheduled) (hf : f.Forest) (he : f.Enters) (hb : b ∈ f.blocks) :
    (∃ c, Arrives f.preds (f.Defining v) b (some c)) ↔ ∃ is, f.Trail b is ∧ ¬ f.Free v is := by
  constructor
  · rintro ⟨c, h⟩
    obtain ⟨is, his, hfree⟩ := exists_trail_of_arrives hs hf h hb
    exact ⟨is, his, fun hall => nomatch hfree.mpr hall⟩
  · rintro ⟨is, his, hfree⟩
    obtain ⟨a, ha, hiff⟩ := his.arrives hs hf he v
    cases a with
    | none => exact absurd (hiff.mp rfl) hfree
    | some c => exact ⟨c, ha⟩

end

end DefFlow.Flow.Func
