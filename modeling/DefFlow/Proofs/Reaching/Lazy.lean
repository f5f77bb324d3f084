import DefFlow.Proofs.Resolution.Needed
import DefFlow.Proofs.Runs.Calls

/-!
# Resolutions are lazy

Main statement: a resolution builds joins only where different definitions of the variable
meet, or a definition and none. Where a single one arrives it builds nothing and answers
with the timeline of that definition.
-/

set_option autoImplicit false

namespace DefFlow.Flow

open Func

section

variable {f f' : Func} {v : VarId} {b : NodeId} {s : Stack}

namespace Func

/-- The answers given since the last change are right; in a frozen function they may stand
for joins that have not been built. -/
def Recalls (f : Func) : Prop :=
  ∀ {b v s}, f.memo.lookup ⟨b, v, false⟩ = some s → b ∈ f.blocks →
    (∃ r, s.resolution f = .ok r ∧ f.Shows v b r) ∨ (f.frozen = true ∧ f.solve b v = .ok s)

/-- A function, frozen or not, whose questions a search answers. Nothing leads to its entry. -/
structure Answerable (f : Func) : Prop where
  forest : f.Forest
  enters : f.Enters
  tables : f.Tables
  scheduled : f.Scheduled
  memo : f.Recalls

theorem Sound.answerable (h : f.Sound) : f.Answerable where
  forest := h.nodesFresh.searchable.forest
  enters := h.nodesFresh.searchable.enters
  tables := h.nodesFresh.searchable.tables
  scheduled := h.scheduled
  memo := fun hm hb => Or.inl (h.nodesFresh.searchable.memo hm hb)

def siteTimeline? (f : Func) (v : VarId) (i : InstId) : Option TimelineId :=
  (f.inst i).block.bind fun b => f.timelineId? b v

/-- What an answer is if only the site `d` reaches the place of the question. -/
def siteAnswer (f : Func) (v : VarId) : Option InstId → Resolution
  | none => .undefined
  | some i => match f.siteTimeline? v i with
    | some t => .timeline t
    | none => .undefined

namespace Answerable

theorem reaches_top_iff (h : f.Answerable) (hb : b ∈ f.blocks) (d : Option InstId) :
    f.Reaches v b 0 d ↔ ∃ a, Arrives f.preds (f.Defining v) b a ∧ d = a.bind (f.lastDef v) := by
  refine reaches_of_quiet h.scheduled h.forest h.enters hb (Nat.zero_le _) ?_ d
  rw [h.scheduled.latestDefBefore?]
  rfl

/-- Values from different blocks come from different sites. -/
theorem site_injective (h : f.Answerable) {a c : Option NodeId}
    (ha : ∀ x, a = some x → f.Defining v x)
    (hc : ∀ x, c = some x → f.Defining v x) (he : a.bind (f.lastDef v) = c.bind (f.lastDef v)) :
    a = c := by
  cases a with
  | none =>
    cases c with
    | none => rfl
    | some y =>
      obtain ⟨i, hi⟩ := lastDef_isSome (hc y rfl)
      rw [Option.bind_some, hi] at he
      cases he
  | some x =>
    obtain ⟨i, hi⟩ := lastDef_isSome (ha x rfl)
    rw [Option.bind_some, hi] at he
    cases c with
    | none => cases he
    | some y =>
      have hx := h.scheduled.block_of_lastDef hi
      rw [h.scheduled.block_of_lastDef he.symm] at hx
      rw [Option.some.inj hx]

/-- Where a single site reaches the top of a block a single value arrives. -/
theorem arrives_of_single (h : f.Answerable) (hb : b ∈ f.blocks) {d : Option InstId}
    (hd : ∀ e, f.Reaches v b 0 e → e = d) :
    ∃ a, a.bind (f.lastDef v) = d ∧ ∀ c, Arrives f.preds (f.Defining v) b c → c = a := by
  obtain ⟨a, ha⟩ : ∃ a, Arrives f.preds (f.Defining v) b a :=
    (h.forest.graph h.enters).exists_arrives hb
  have site : ∀ {c}, Arrives f.preds (f.Defining v) b c → c.bind (f.lastDef v) = d :=
    fun hc => hd _ ((h.reaches_top_iff hb _).mpr ⟨_, hc, rfl⟩)
  refine ⟨a, site ha, fun c hc => ?_⟩
  exact h.site_injective (fun _ hx => decides_of_arrives (hx ▸ hc))
    (fun _ hx => decides_of_arrives (hx ▸ ha)) ((site hc).trans (site ha).symm)

/-- Different sites reach the top of a block where values meet. -/
theorem sites_of_meets (h : f.Answerable) (hb : b ∈ f.blocks) (hm : f.Needed v b) :
    ∃ d e, d ≠ e ∧ f.Reaches v b 0 d ∧ f.Reaches v b 0 e := by
  obtain ⟨a, ha⟩ : ∃ a, Arrives f.preds (f.Defining v) b a :=
    (h.forest.graph h.enters).exists_arrives hb
  obtain ⟨c, hne, hc⟩ := hm _ (fun hy => hy) a
  refine ⟨_, _, fun he => hne ?_, (h.reaches_top_iff hb _).mpr ⟨c, hc, rfl⟩,
    (h.reaches_top_iff hb _).mpr ⟨a, ha, rfl⟩⟩
  exact h.site_injective (fun _ hx => decides_of_arrives (hx ▸ hc))
    (fun _ hx => decides_of_arrives (hx ▸ ha)) he

end Answerable

/-- As long as a variable has no nodes its definitions alone decide it. -/
theorem Tables.decides_of_unjoined (h : f.Tables) (hnone : ∀ c, f.joinNodes c v = []) :
    f.Decides v = f.Defining v := by
  funext c
  simp [h.decides_iff, hnone c]

end Func

theorem Built.nothing (ht : f.Tables) (hs : s.surviving = []) : Built v s s.surviving f f where
  tables := ht
  extended := .refl f
  forgets := Or.inl rfl
  feeds := by simp [hs]
  aimed := by simp [hs]

/-- A node that was not there before belongs to a join of the variable. -/
theorem Built.new_node {js : List NodeId} (ht : f.Tables) (h : Built v s js f f')
    {n : IncomingId} (hn : (f'.incoming.get? n).isSome) :
    (f.incoming.get? n).isSome ∨ ∃ c, n ∈ f'.joinNodes c v := by
  obtain ⟨i, hi⟩ := Option.isSome_iff_exists.mp hn
  obtain ⟨x, hx, hmem⟩ := h.tables.node hi
  have hjn := h.tables.joinNodes_eq (h.tables.listed hx)
  rw [timelineAt_of_get? hx] at hjn
  rw [← hjn] at hmem
  by_cases hv : x.var = v
  · exact Or.inr ⟨x.block, hv ▸ hmem⟩
  · rw [h.extended.joinNodes_other fun hc => hv hc.1] at hmem
    obtain ⟨_, j, _, hj, _⟩ := ht.get?_of_mem hmem
    exact Or.inl (by rw [hj]; rfl)

namespace Solution

theorem surviving_of_single (G : f.Graph) (ht : f.Tables) (h : Solution f v b s)
    {a : Option NodeId} (ha : ∀ c, Arrives f.preds (f.Decides v) b c → c = a) :
    s.surviving = [] := by
  refine List.eq_nil_iff_forall_not_mem.mpr fun j hj => ?_
  have hseen := h.search.seen (h.phi_of_surviving hj)
  rw [h.leaf_eq] at hseen
  obtain ⟨t, hne, harr⟩ := h.meets G (Solution.placed ht) hj _ (fun hy => hy) a
  exact hne (ha t (hseen.arrives harr))

end Solution

/-- What a resolution does in a function of either kind: an answer is repeated, or found
without building in a frozen function, or its joins are built. -/
theorem stackAt_cases (h : f.Answerable) (hb : b ∈ f.blocks) (v : VarId) :
    ∃ s f', Edit.stackAt b v f = .ok s f' ∧
      ((f' = f ∧ ∃ r, s.resolution f = .ok r ∧ f.Shows v b r) ∨
        (Solution f v b s ∧ ∃ m, f' = { f with memo := m }) ∨
        ∃ s₀ f₁ c m, Solution f v b s₀ ∧ Built v s₀ s₀.surviving f f₁ ∧
          s = { s₀ with created := c } ∧ f' = { f₁ with memo := m } ∧
          (s₀.surviving = [] → f₁ = f)) := by
  have G := h.forest.graph h.enters
  have hres : f.resolvable b = .ok () := by rw [Func.resolvable, if_pos (h.forest.hasParent hb)]
  obtain ⟨s, hs, hsol⟩ := solve_ok (v := v) G hb
  cases hm : f.memo.lookup ⟨b, v, false⟩ with
  | some s' =>
    refine ⟨s', f, Edit.stackAt_of_memo hres hm, ?_⟩
    rcases h.memo hm hb with hr | ⟨-, hs'⟩
    · exact Or.inl ⟨rfl, hr⟩
    · rw [hs] at hs'
      cases hs'
      exact Or.inr (Or.inl ⟨hsol, f.memo, rfl⟩)
  | none =>
    rcases Bool.eq_false_or_eq_true f.frozen with hfr | hfr
    · exact ⟨s, _, Edit.stackAt_of_solve hres hfr hm hs, Or.inr (Or.inl ⟨hsol, _, rfl⟩)⟩
    · obtain ⟨c, f₁, hrun, hbuilt⟩ := hsol.buildJoins_ok h.forest h.tables
      refine ⟨_, _, Edit.stackAt_of_build hres hfr hm hs hrun,
        Or.inr (Or.inr ⟨s, f₁, c, _, hsol, hbuilt, rfl, rfl, fun hnil => ?_⟩)⟩
      rw [Edit.buildJoins, hnil] at hrun
      exact (Edit.pure_ok hrun).2

/-- The answer where a single site reaches, as long as no join exists. -/
theorem Func.Answerable.answer_of_single (h : f.Answerable) (hnone : ∀ c, f.joinNodes c v = [])
    {a : Option NodeId} (ha : ∀ c, Arrives f.preds (f.Decides v) b c → c = a) {r : Resolution}
        (hr : f.Shows v b r) :
    r = f.siteAnswer v (a.bind (f.lastDef v)) := by
  have hunjoined : ∀ c, f.joined? c v = none := fun c => by
    rw [h.tables.joined?_eq, if_pos (hnone c)]
  have single : ∀ {c}, f.Only v b c → a = c := by
    intro c honly
    exact (ha c ((honly c).mpr rfl)).symm
  cases r with
  | undefined =>
    rw [single hr.2]
    rfl
  | timeline t =>
    obtain ⟨-, c, hc, honly⟩ := hr
    have hd : f.Defining v c := by
      rw [← h.tables.decides_of_unjoined hnone, Decides, hc]
      rfl
    obtain ⟨i, hi⟩ := lastDef_isSome hd
    rw [single honly, Option.bind_some, hi, siteAnswer, siteTimeline?,
        h.scheduled.block_of_lastDef hi,
      Option.bind_some, timelineId?_of_explicit? hc]
  | top t =>
    rcases hr with hj | ⟨-, c, hj, -⟩
    · rw [hunjoined b] at hj
      cases hj
    · rw [hunjoined c] at hj
      cases hj
  | join _ => exact hr.elim

/-- A resolution of a variable without nodes has built no more than is needed: nodes only where
two different sites reach, one for each predecessor, and nothing where a single site reaches. -/
structure JoinsWhereMet (v : VarId) (b : NodeId) (s : Stack) (f f' : Func) : Prop where
  new_node : ∀ n, (f'.incoming.get? n).isSome →
    (f.incoming.get? n).isSome ∨ ∃ c, n ∈ f'.joinNodes c v
  meets : ∀ c, f'.joinNodes c v ≠ [] →
    (∃ d e, d ≠ e ∧ f.Reaches v c 0 d ∧ f.Reaches v c 0 e) ∧
    (f'.joinNodes c v).map (fun n => (f'.incomingAt n).pred) = f.preds c
  single : ∀ d, (∀ e, f.Reaches v b 0 e → e = d) →
    f'.incoming = f.incoming ∧ f'.timelines = f.timelines ∧ f'.nodes = f.nodes ∧
      s.resolution f' = .ok (f.siteAnswer v d)

theorem Func.Answerable.stackAt_joins (h : f.Answerable) (hb : b ∈ f.blocks)
    (hnone : ∀ c, f.joinNodes c v = []) :
    ∃ s f', Edit.stackAt b v f = .ok s f' ∧ JoinsWhereMet v b s f f' := by
  have G := h.forest.graph h.enters
  have hdec := h.tables.decides_of_unjoined hnone
  obtain ⟨s, f', hrun, hcases⟩ := stackAt_cases h hb v
  refine ⟨s, f', hrun, ?_⟩
  -- Where a single site reaches, what is said of the function as it is now is the answer.
  have answer : ∀ {d r}, (∀ e, f.Reaches v b 0 e → e = d) → f.Shows v b r →
      r = f.siteAnswer v d := by
    intro d r hd hr
    obtain ⟨a, rfl, ha⟩ := h.arrives_of_single hb hd
    exact h.answer_of_single hnone (hdec ▸ ha) hr
  have found : ∀ {s₀ c d}, (∀ e, f.Reaches v b 0 e → e = d) → Solution f v b s₀ →
      s₀.surviving = [] ∧
        ({ s₀ with created := c } : Stack).resolution f = .ok (f.siteAnswer v d) := by
    intro s₀ c d hd hsol
    obtain ⟨a, -, ha⟩ := h.arrives_of_single hb hd
    have hnil := hsol.surviving_of_single G h.tables (hdec ▸ ha)
    obtain ⟨r, hr, hsh⟩ := hsol.shows G h.tables hb (Built.nothing h.tables hnil) (c := c)
    exact ⟨hnil, by rw [hr, answer hd hsh]⟩
  rcases hcases with
    ⟨rfl, r, hr, hsh⟩ | ⟨hsol, m, rfl⟩ | ⟨s₀, f₁, c, m, hsol, hbuilt, rfl, rfl, hsame⟩
  · exact ⟨fun n hn => Or.inl hn, fun c hc => absurd (hnone c) hc,
      fun d hd => ⟨rfl, rfl, rfl, by rw [hr, answer hd hsh]⟩⟩
  · exact ⟨fun n hn => Or.inl hn, fun c hc => absurd (hnone c) hc,
      fun d hd => ⟨rfl, rfl, rfl, (sameView_memo f m).resolution (found hd hsol).2⟩⟩
  · refine ⟨fun n hn => hbuilt.new_node h.tables hn, fun c hc => ?_, ?_⟩
    · have hin : c ∈ s₀.surviving := by
        by_contra hnot
        exact hc ((hbuilt.extended.joinNodes_other fun hj => hnot hj.2).trans (hnone c))
      have hblock := (hsol.search.block (hsol.phi_of_surviving hin)).block
      have hmeets := hsol.meets G (Solution.placed h.tables) hin
      rw [hdec] at hmeets
      refine ⟨h.sites_of_meets hblock hmeets, ?_⟩
      have hfeeds := congrArg (List.map Prod.fst) (hbuilt.feeds c hin)
      have hlen := (hsol.values_of_mem (hsol.phi_of_surviving hin)).length_eq
      rw [hsol.frame_preds hin, List.map_map, feeds, List.map_map] at hfeeds
      exact hfeeds.trans (List.map_fst_zip hlen.le)
    · intro d hd
      obtain ⟨hnil, hr⟩ := found hd hsol (c := c)
      obtain rfl := hsame hnil
      exact ⟨rfl, rfl, rfl, (sameView_memo _ m).resolution hr⟩

theorem resolveStack_of_stackAt {ref : ComponentRef} {x : Variable}
    (hown : ref.owner = f.handle ∧ x.owner = f.handle)
    (hrun : Edit.stackAt ref.id x.id f = .ok s f') : Edit.resolveStack ref x f = .ok s f' := by
  rw [Edit.resolveStack, Edit.ownQuery, bind_assoc, Edit.bind_eq Edit.get_eq,
    Edit.bind_eq (Edit.require_eq (by simpa using hown) _ _)]
  exact hrun

/-- A resolution of a variable that has no nodes yet gives nodes only to blocks that two
different sites reach, one for each predecessor in order. If a single site reaches the
block of the question it makes nothing and names the timeline of that site. -/
theorem resolveStack_builds_where_sites_meet (h : f.Answerable) {ref : ComponentRef} {x : Variable}
    (hown : ref.owner = f.handle ∧ x.owner = f.handle) (hb : ref.id ∈ f.blocks)
    (hnone : ∀ c, f.joinNodes c x.id = []) :
    ∃ s f', Edit.resolveStack ref x f = .ok s f' ∧
      (∀ n, (f'.incoming.get? n).isSome → (f.incoming.get? n).isSome ∨
        ∃ c, n ∈ f'.joinNodes c x.id) ∧
      (∀ c, f'.joinNodes c x.id ≠ [] →
        (∃ d e, d ≠ e ∧ f.Reaches x.id c 0 d ∧ f.Reaches x.id c 0 e) ∧
        (f'.joinNodes c x.id).map (fun n => (f'.incomingAt n).pred) = f.preds c) ∧
      ∀ d, (∀ e, f.Reaches x.id ref.id 0 e → e = d) →
        f'.incoming = f.incoming ∧ f'.timelines = f.timelines ∧ f'.nodes = f.nodes ∧
          s.resolution f' = .ok (f.siteAnswer x.id d) := by
  obtain ⟨s, f', hrun, hjoins⟩ := h.stackAt_joins hb hnone
  exact ⟨s, f', resolveStack_of_stackAt hown hrun, hjoins.new_node, hjoins.meets,
    hjoins.single⟩

/-- With a definition in one branch of a fork, joins are built where it meets the other
branch, and nowhere else. -/
theorem resolveStack_builds_behind_fork : ∃ i g s g',
    Edit.appendInst 5 .undef (some ⟨0, 1, "x", .bool, 0⟩) [] diamond = .ok i g ∧
    Edit.resolveStack ⟨0, 7, .block, "end"⟩ ⟨0, 1, "x", .bool, 0⟩ g = .ok s g' ∧
    ∀ c, g'.joinNodes c 1 ≠ [] →
      (∃ d e, d ≠ e ∧ g.Reaches 1 c 0 d ∧ g.Reaches 1 c 0 e) ∧
      (g'.joinNodes c 1).map (fun n => (g'.incomingAt n).pred) = g.preds c := by
  obtain ⟨i, g, happend, hnodes⟩ : ∃ i g,
    Edit.appendInst 5 .undef (some ⟨0, 1, "x", .bool, 0⟩) [] diamond = .ok i g ∧
      g.incoming = .empty := ⟨_, _, rfl, rfl⟩
  have hin : 5 ∈ diamond.blocks := by decide
  obtain ⟨hsound, hsame⟩ := appendInst_ok diamond_unjoined.sound hin happend
  have hnone : ∀ c, g.joinNodes c 1 = [] := fun c =>
    hsound.nodesFresh.searchable.tables.joinNodes_of_no_nodes
        (fun n => by rw [hnodes, Arena.get?_empty]) c 1
  obtain ⟨s, g', hrun, -, hbuilt, -⟩ := @resolveStack_builds_where_sites_meet _ hsound.answerable
    ⟨0, 7, .block, "end"⟩ ⟨0, 1, "x", .bool, 0⟩
    ⟨hsame.handle.symm, hsame.handle.symm⟩ (hsame.blocks ▸ by decide) hnone
  exact ⟨i, g, s, g', happend, hrun, hbuilt⟩

end

end DefFlow.Flow
