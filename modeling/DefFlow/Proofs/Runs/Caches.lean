import DefFlow.Proofs.Edits.Blind
import DefFlow.Proofs.Runs.Age
import DefFlow.Proofs.Runs.Repetition
import DefFlow.Proofs.Tree.Leaves

/-!
# Nothing stale

A function remembers the answers given since the last change, and its structures remember their
leaves. Main statement: whatever has been done, whoever asks is told what is found by asking afresh:
the leaves of the component as it is now, and the timeline and the definition that a new search of
the present function finds, for a block of any tree. A function that is reached builds a join only
where different sites meet, so what it remembers is what the paths give.
-/

set_option autoImplicit false

namespace DefFlow.Flow

open Func Component

section

variable {f g k : Func} {m : LeafRecords} {c : NodeId} {d : Component} {b : ComponentRef}
  {v : Variable} {q : Question} {r r' : Resolution}

/-! ## Leaves -/

inductive Passes (f : Func) (m : LeafRecords) : Func → LeafRecords → Prop
  | start : Passes f m f m
  | age {g k : Func} {m' : LeafRecords} (h : Passes f m g m') (ha : g.Ages k) : Passes f m k m'
  | look {g : Func} {m' : LeafRecords} {c : NodeId} {d : Component} (h : Passes f m g m')
      (hn : (idsAll g.trees).Nodup) (hd : g.find? c = some d) :
      Passes f m g ((d.recallLeaves g.generation).run m').2

theorem Passes.right {m' : LeafRecords} (h : Passes f m g m') (hm : m.Right f.trees f.generation) :
    m'.Right g.trees g.generation := by
  induction h with
  | start => exact hm
  | age _ ha ih => exact ih.older ha
  | look _ hn hd ih => exact (recallLeaves_find? hn hd _ ih).2

/-- A function, and what its structures remember of their leaves, after a run of requests that have
been granted and of questions for leaves. Granting a request may take such questions as well. -/
inductive Recorded : Func → LeafRecords → Prop
  | new (handle : Nat) (name : String) : Recorded (.new handle name) []
  | look {f : Func} {m : LeafRecords} {c : NodeId} {d : Component} (h : Recorded f m)
      (hd : f.find? c = some d) : Recorded f ((d.recallLeaves f.generation).run m).2
  | grant {f g : Func} {m m' : LeafRecords} {req : Request} (h : Recorded f m)
      (hr : req.grant f = some g) (hp : Passes f m g m') : Recorded g m'

theorem Recorded.reached (h : Recorded f m) : Reached f := by
  induction h with
  | new handle name => exact .new handle name
  | look _ _ ih => exact ih
  | grant _ hr _ ih => exact ih.step hr

theorem Recorded.right (h : Recorded f m) : m.Right f.trees f.generation := by
  induction h with
  | new => exact fun hm => nomatch hm
  | look h hd ih => exact (recallLeaves_find? h.reached.wellFormed.forest.nodup hd _ ih).2
  | grant _ _ hp ih => exact hp.right ih

theorem Request.serve_of_grant {req : Request} (h : req.grant f = some g) : req.serve f = g := by
  rw [Request.serve, Edit.outcome_ok (Request.run_of_grant h)]

theorem Recorded.step {req : Request} (h : Recorded f m) (hr : req.grant f = some g) :
    Recorded g m :=
  h.grant hr (.age .start (Request.serve_of_grant hr ▸ req.ages f))

theorem Recorded.of_reached (h : Reached f) : Recorded f [] := by
  induction h with
  | new handle name => exact .new handle name
  | step _ hr ih => exact ih.step hr

theorem Recorded.requests {rs : List Request} (h : Recorded f m)
    (hrs : rs.foldlM Request.grant f = some g) : Recorded g m := by
  induction rs generalizing f with
  | nil =>
    cases hrs
    exact h
  | cons req rs ih =>
    rw [List.foldlM_cons] at hrs
    obtain ⟨k, hr, hrs⟩ := Option.bind_eq_some_iff.mp hrs
    exact ih (h.step hr) hrs

/-! ## Answers -/

/-- Two answers that name the same timeline, denote the same definition, and name the same join if
it has not been built. -/
structure Concur (f : Func) (r : Resolution) (g : Func) (r' : Resolution) : Prop where
  timeline : r'.timeline? = r.timeline?
  reaching : Edit.reachingOf g r' = Edit.reachingOf f r
  join : ∀ k, r' = .join k ↔ r = .join k

def Func.Afresh (f : Func) (x : Edit Resolution) : Prop :=
  ∃ r g r' g', x f = .ok r g ∧ x { f with memo := [] } = .ok r' g' ∧ Concur g r g' r'

theorem Func.Tells.ne_join {v : VarId} {b : NodeId} (h : f.Tells v b r) (k : NodeId) :
    r ≠ .join k := by
  rintro rfl
  exact h.names

/-- A block that sees a join, and is told so, has that join built. -/
theorem Func.Tells.built {v : VarId} {b j : NodeId} (h : f.Tells v b r) (ht : f.Tables)
    (hview : f.view v b = .join j) : f.joined? j v ≠ none := by
  have hreads := h.reads ht
  rw [hview] at hreads
  obtain ⟨t, hj, -⟩ := hreads
  rw [hj]
  exact nofun

/-- Answers from before and after joins have been built. Where none may be built, none has been. -/
theorem Weaves.concur (hw : Weaves f g) (hf : f.WellFormed)
    (hview : g.view q.var q.block = f.view q.var q.block)
    (hjoined : (q.probe || f.frozen) = true → ∀ j, g.joined? j q.var = f.joined? j q.var)
    (hr : f.Meets q r) (hr' : g.Meets q r') : Concur f r g r' := by
  rcases hr with hr | ⟨hq, j, rfl, hsees, hnone⟩ <;>
    rcases hr' with hr' | ⟨-, j', rfl, hsees', hnone'⟩
  · obtain ⟨htimeline, hreach, -⟩ := hw.repeats hf hview hr hr'
    exact ⟨htimeline, hreach, fun k => iff_of_false (hr'.ne_join k) (hr.ne_join k)⟩
  · -- the join was there already
    obtain ⟨t, hj⟩ := Option.ne_none_iff_exists'.mp (hr.built hf.linked.tables (hview ▸ hsees'))
    rw [hw.joined? hf.linked.tables hw.linked.tables (fun h => hw.joinNodes_ne_nil hf.linked h) hj]
      at hnone'
    cases hnone'
  · refine absurd ?_ (hr'.built hw.linked.tables (hview.trans hsees))
    rw [hjoined hq, hnone]
  · cases hsees.symm.trans (hview.symm.trans hsees')
    exact ⟨rfl, rfl, fun _ => Iff.rfl⟩

/-- A new answer leaves what the block of its question sees, and where no joins may be built it
leaves the joins. -/
theorem Func.Consistent.answer_anew (h : f.Consistent) (hb : (f.nodes.get? q.block).isSome)
    (hp : f.hasParent q.block = true) (hm : f.memo.lookup q = none) :
    ∃ s g, Edit.answer q f = .ok s g ∧ g.view q.var q.block = f.view q.var q.block ∧
      ((q.probe || f.frozen) = true → ∀ j, g.joined? j q.var = f.joined? j q.var) := by
  have hask : f.resolvable q.block = .ok () := by rw [resolvable, if_pos hp]
  cases hq : q.probe || f.frozen with
  | true =>
    obtain ⟨s, hs, -⟩ := h.solve_anywhere hb q.var
    exact ⟨s, _, Edit.answer_of_solve hask hq hm hs.solved, by rw [view_memo], fun _ _ => rfl⟩
  | false =>
    obtain ⟨b, v, probe⟩ := q
    obtain ⟨rfl, hu⟩ := Bool.or_eq_false_iff.mp hq
    have ht := h.linked.tables
    obtain ⟨root, rest, hperm, hbr⟩ := exists_root ((h.stocked.stored b).mpr hb)
    obtain ⟨s, created, g, hsol, hfine, hbuilt, hrun⟩ :=
      Flow.stackAt_anew h.forest ht hu hperm hbr hask hm
    refine ⟨_, _, hrun, ?_, fun h => absurd h Bool.false_ne_true⟩
    rw [view_memo]
    exact (hsol.tells_beside h.forest hperm ht hbr hfine hbuilt (c := created)).1

theorem Func.MemoCorrect.forget (h : f.MemoCorrect) : Weaves f { f with memo := [] } where
  toRelinks := .forget h.linked
  nodes hi := ⟨_, hi, rfl, rfl⟩
  edged he := he
  retells _ _ := retells_of_nil rfl

theorem Func.MemoCorrect.answered (h : f.MemoCorrect) (hb : (f.nodes.get? q.block).isSome)
    (hp : f.hasParent q.block = true) {s : Stack} (hrun : Edit.answer q f = .ok s g) :
    Weaves f g ∧ ∃ r, s.resolution g = .ok r ∧ g.Meets q r := by
  have hw := (answer_weaves h.linked hb hrun).1
  have hg := hw.memoCorrect h
  refine ⟨hw, hg.retells (memo_of_answer hrun) ?_ ?_⟩
  · rw [hw.toSameGraph.trees]
    exact (h.stocked.stored q.block).mpr hb
  · rw [hw.toSameGraph.hasParent]
    exact hp

/-- From memory or not, an answer is what it would be if nothing were remembered. -/
theorem Func.MemoCorrect.answer_afresh (h : f.MemoCorrect) (hb : (f.nodes.get? q.block).isSome)
    (hp : f.hasParent q.block = true) :
    ∃ s g r s' g' r', Edit.answer q f = .ok s g ∧ s.resolution g = .ok r ∧
      Edit.answer q { f with memo := [] } = .ok s' g' ∧ s'.resolution g' = .ok r' ∧
      Concur g r g' r' := by
  cases hm : f.memo.lookup q with
  | none =>
    obtain ⟨s, g, hrun, r, hr⟩ := h.answer_ok hb hp
    obtain ⟨g', hrun', hup⟩ := answer_blind hm hrun
    obtain ⟨m, rfl⟩ : ∃ m, g' = { g with memo := m } := ⟨_, hup⟩
    exact ⟨s, g, r, s, _, r, hrun, hr, hrun', (sameView_memo g m).resolution hr, rfl, rfl,
      fun _ => Iff.rfl⟩
  | some s =>
    have hask : f.resolvable q.block = .ok () := by rw [resolvable, if_pos hp]
    obtain ⟨r, hr, hmeets⟩ := h.retells hm ((h.stocked.stored q.block).mpr hb) hp
    have hforget := h.forget.memoCorrect h
    obtain ⟨s', g', hrun', hview, hjoined⟩ := hforget.answer_anew hb hp rfl
    obtain ⟨hw, r', hr', hmeets'⟩ := hforget.answered hb hp hrun'
    exact ⟨s, f, r, s', g', r', Edit.answer_of_memo hask hm, hr, hrun', hr',
        (h.forget.trans hw).concur
      h.toWellFormed (hview.trans (by rw [view_memo])) hjoined hmeets hmeets'⟩

/-! ## Where joins are built -/

theorem Func.Path.memo {v : VarId} {p p' : NodeId × Nat} (h : f.Path v p p')
    (m : List (Question × Stack)) : ({ f with memo := m } : Func).Path v p p' := by
  induction h with
  | within h hj q => exact .within h hj q
  | along _ hc hj q ih => exact .along ih hc hj q

theorem reaches_memo (f : Func) (m : List (Question × Stack)) {v : VarId} {b : NodeId} {n : Nat}
    {d : Option InstId} : ({ f with memo := m } : Func).Reaches v b n d ↔ f.Reaches v b n d := by
  cases d with
  | none => exact ⟨fun ⟨e, he, h⟩ => ⟨e, he, h.memo f.memo⟩, fun ⟨e, he, h⟩ => ⟨e, he, h.memo m⟩⟩
  | some i =>
    exact ⟨fun ⟨c, hc, k, hk, hd, h⟩ => ⟨c, hc, k, hk, hd, h.memo f.memo⟩,
      fun ⟨c, hc, k, hk, hd, h⟩ => ⟨c, hc, k, hk, hd, h.memo m⟩⟩

theorem JoinsWhereMet.remember {v : VarId} {b : NodeId} {s : Stack} {m m' : List (Question × Stack)}
    (h : JoinsWhereMet v b s { f with memo := m } { g with memo := m' }) :
    JoinsWhereMet v b s f g where
  new_node := h.new_node
  meets c hc := by
    obtain ⟨⟨d, e, hne, hd, he⟩, hpreds⟩ := h.meets c hc
    exact ⟨⟨d, e, hne, (reaches_memo f m).mp hd, (reaches_memo f m).mp he⟩, hpreds⟩
  single d hd := by
    obtain ⟨hincoming, htimelines, hnodes, hr⟩ := h.single d fun e he =>
      hd e ((reaches_memo f m).mp he)
    exact ⟨hincoming, htimelines, hnodes, (sameView_memo _ g.memo).resolution hr⟩

theorem Func.MemoCorrect.answerable (h : f.MemoCorrect) (he : f.Enters) (hm : f.memo = []) :
    f.Answerable where
  forest := h.forest
  enters := he
  tables := h.linked.tables
  scheduled := h.scheduled
  memo := fun hs => by
    rw [hm] at hs
    cases hs

theorem siteAnswer_cases (f : Func) (v : VarId) (d : Option InstId) :
    f.siteAnswer v d = .undefined ∨ ∃ t, f.siteAnswer v d = .timeline t := by
  cases d with
  | none => exact .inl rfl
  | some i =>
    rw [siteAnswer]
    split
    · exact .inr ⟨_, rfl⟩
    · exact .inl rfl

/-- As long as a variable has no nodes an answer that is remembered names no join. -/
theorem Func.Meets.eq_siteAnswer {q : Question} {d : Option InstId} (hm : f.Meets q r)
    (ht : f.Tables) (hnone : ∀ c, f.joinNodes c q.var = []) (hr : r' = f.siteAnswer q.var d)
    (h : Concur f r g r') : r = r' := by
  have hcases := siteAnswer_cases f q.var d
  rw [← hr] at hcases
  cases r with
  | undefined =>
    rcases hcases with rfl | ⟨t, rfl⟩
    · rfl
    · cases h.timeline
  | timeline t =>
    rcases hcases with rfl | ⟨t', rfl⟩
    · cases h.timeline
    · rw [Option.some.inj h.timeline]
  | top t =>
    rcases hm with ⟨-, c, hc⟩ | ⟨-, k, hk, -⟩
    · rw [ht.joined?_eq_none.mpr (hnone c)] at hc
      cases hc
    · cases hk
  | join k =>
    have hk := (h.join k).mpr rfl
    rcases hcases with rfl | ⟨t, rfl⟩ <;> cases hk

/-- A function that is reached builds no more than is needed, whatever it remembers. -/
theorem Reached.builds_where_sites_meet (h : Reached f) (he : f.Enters) {ref : ComponentRef}
    {x : Variable} (hown : ref.owner = f.handle ∧ x.owner = f.handle) (hb : ref.id ∈ f.blocks)
    (hnone : ∀ c, f.joinNodes c x.id = []) :
    ∃ s f', Edit.resolveStack ref x f = .ok s f' ∧ JoinsWhereMet x.id ref.id s f f' := by
  have ht := h.memoCorrect
  have hp := ht.forest.hasParent hb
  have hstored : (f.nodes.get? ref.id).isSome := (ht.stocked.stored ref.id).mp (Forest.mem_trees hb)
  have hblank : ({ f with memo := [] } : Func).Answerable :=
      (ht.forget.memoCorrect ht).answerable he rfl
  obtain ⟨s₀, g₀, hrun₀, hjoins⟩ := hblank.stackAt_joins hb hnone
  suffices key : ∃ s f', Edit.stackAt ref.id x.id f = .ok s f' ∧
      JoinsWhereMet x.id ref.id s f f' by
    obtain ⟨s, f', hrun, hs⟩ := key
    exact ⟨s, f', resolveStack_of_stackAt hown hrun, hs⟩
  cases hm : f.memo.lookup ⟨ref.id, x.id, false⟩ with
  | none =>
    obtain ⟨s, g, hrun, -⟩ := ht.answer_ok (q := ⟨ref.id, x.id, false⟩) hstored hp
    obtain ⟨g', hrun', hup⟩ := answer_blind hm hrun
    obtain ⟨m, rfl⟩ : ∃ m, g' = { g with memo := m } := ⟨_, hup⟩
    cases hrun'.symm.trans hrun₀
    exact ⟨_, g, hrun, hjoins.remember⟩
  | some s =>
    have hrun := Edit.stackAt_of_memo (by rw [resolvable, if_pos hp]) hm
    refine ⟨s, f, hrun, fun n hn => .inl hn, fun c hc => absurd (hnone c) hc, fun d hd => ?_⟩
    refine ⟨rfl, rfl, rfl, ?_⟩
    obtain ⟨s₁, g, r, s₂, g', r', hs₁, hr, hs₂, hr', hsame⟩ := ht.answer_afresh
      (q := ⟨ref.id, x.id, false⟩) hstored hp
    cases hs₁.symm.trans hrun
    cases hs₂.symm.trans hrun₀
    obtain ⟨-, -, -, hsite⟩ := hjoins.single d fun e he => hd e ((reaches_memo f []).mp he)
    obtain ⟨-, r₁, hr₁, hmeets⟩ := ht.answered (q := ⟨ref.id, x.id, false⟩) hstored hp hrun
    cases hr₁.symm.trans hr
    have heq := Except.ok.inj (hr'.symm.trans hsite)
    rw [hr, hmeets.eq_siteAnswer ht.linked.tables hnone heq hsame, heq]
    rfl

theorem resolve_of_answer {s : Stack} (hown : b.owner = f.handle) (hvar : v.owner = f.handle)
    (hrun : Edit.answer ⟨b.id, v.id, false⟩ f = .ok s g) (hr : s.resolution g = .ok r) :
    Edit.resolve b v f = .ok r g := by
  rw [resolve_eq hown hvar]
  exact resolveAt_of_stackAt hrun hr

theorem reprobe_of_answer {s : Stack} (hown : b.owner = f.handle) (hvar : v.owner = f.handle)
    (hrun : Edit.answer ⟨b.id, v.id, true⟩ f = .ok s g) (hr : s.resolution g = .ok r) :
    Edit.reprobe b v f = .ok r g := by
  rw [Edit.reprobe, Edit.bind_eq (ownQuery_eq hown hvar), Edit.bind_eq hrun]
  exact Edit.ask_eq hr

/-- After any run every component is answered for by its leaves as they are now, and every
question about a block with a parent is answered as if nothing were remembered. -/
theorem nothing_stale (h : Recorded f m) :
    (∀ {c d}, f.find? c = some d → ((d.recallLeaves f.generation).run m).1 = d.leaves) ∧
    ∀ {b : ComponentRef} {v : Variable}, f.hasBlock b.id = true → f.hasParent b.id = true →
      b.owner = f.handle → v.owner = f.handle →
      f.Afresh (Edit.resolve b v) ∧ f.Afresh (Edit.reprobe b v) := by
  have ht := h.reached.memoCorrect
  refine ⟨fun hd => (recallLeaves_find? ht.forest.nodup hd _ h.right).1,
    fun {b v} hb hp hown hvar => ⟨?_, ?_⟩⟩
  · obtain ⟨s, g, r, s', g', r', hrun, hr, hrun', hr', hsame⟩ :=
      ht.answer_afresh (q := ⟨b.id, v.id, false⟩) hb hp
    exact ⟨r, g, r', g', resolve_of_answer hown hvar hrun hr,
      resolve_of_answer hown hvar hrun' hr', hsame⟩
  · obtain ⟨s, g, r, s', g', r', hrun, hr, hrun', hr', hsame⟩ :=
      ht.answer_afresh (q := ⟨b.id, v.id, true⟩) hb hp
    exact ⟨r, g, r', g', reprobe_of_answer hown hvar hrun hr,
      reprobe_of_answer hown hvar hrun' hr', hsame⟩

def forkBefore : List Request :=
  [.addVariable "x" (.int 64), .newBlock "left", .newBlock "right",
    .newFork none [⟨0, 3, .block, "left"⟩, ⟨0, 4, .block, "right"⟩], .newBlock "join",
    .appendElement 2 ⟨0, 6, .fork, ""⟩, .appendElement 2 ⟨0, 7, .block, "join"⟩,
    .appendInst 3 .undef (some ⟨0, 1, "x", .int 64, 0⟩) [],
    .appendInst 4 .undef (some ⟨0, 1, "x", .int 64, 0⟩) []]

def lastBehind : List Request :=
  [.newBlock "last", .appendElement 2 ⟨0, 8, .block, "last"⟩,
    .resolve ⟨0, 7, .block, "join"⟩ ⟨0, 1, "x", .int 64, 0⟩]

theorem forkBefore_not_stale : ∃ f m, Recorded f m ∧ m = [(2, (7, [7]))] ∧
    (f.memo.lookup ⟨7, 1, false⟩).isSome = true ∧
    (∃ d, f.find? 2 = some d ∧ ((d.recallLeaves f.generation).run m).1 = [8]) ∧
    f.Afresh (Edit.resolve ⟨0, 7, .block, "join"⟩ ⟨0, 1, "x", .int 64, 0⟩) ∧
    f.Afresh (Edit.reprobe ⟨0, 7, .block, "join"⟩ ⟨0, 1, "x", .int 64, 0⟩) := by
  obtain ⟨f, hf, hpass⟩ := Reached.exists_of_requests 0 "f" forkBefore
    (fun f : Func => (f.find? 2).any fun d : Component =>
      decide (((d.recallLeaves f.generation).run []).2 = [(2, (7, [7]))]) &&
      (lastBehind.foldlM Request.grant f).any fun g : Func =>
        decide (g.hasBlock 7 = true ∧ g.hasParent 7 = true ∧ g.handle = 0 ∧
          (g.memo.lookup ⟨7, 1, false⟩).isSome = true) &&
        (g.find? 2).any fun d : Component => decide (d.leaves = [8]))
    (by decide +kernel)
  obtain ⟨d, hd, hpass⟩ := (Option.any_eq_true _ _).mp hpass
  rw [Bool.and_eq_true, decide_eq_true_eq] at hpass
  obtain ⟨hrecords, hpass⟩ := hpass
  obtain ⟨g, hg, hpass⟩ := (Option.any_eq_true _ _).mp hpass
  rw [Bool.and_eq_true, decide_eq_true_eq] at hpass
  obtain ⟨⟨hb, hp, hown, hmemo⟩, hleaves⟩ := hpass
  obtain ⟨e, he, hleaves⟩ := (Option.any_eq_true _ _).mp hleaves
  have hlook := (((Recorded.of_reached hf).look hd).requests hg)
  rw [hrecords] at hlook
  obtain ⟨hnow, hafresh⟩ := nothing_stale hlook
  exact ⟨g, _, hlook, rfl, hmemo, ⟨e, he, (hnow he).trans (of_decide_eq_true hleaves)⟩,
    hafresh (b := ⟨0, 7, .block, "join"⟩) (v := ⟨0, 1, "x", .int 64, 0⟩) hb hp hown.symm hown.symm⟩

end

end DefFlow.Flow
