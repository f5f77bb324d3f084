import DefFlow.Proofs.Resolution.Needed

/-!
# Functions with the same joins

Two functions that differ only in the numbers of their timelines and nodes give the same
answers, and their joins take the same values from the same blocks.
-/

set_option autoImplicit false

namespace DefFlow.Flow

open Func

inductive Sight where
  | nothing
  | definition (i : InstId)
  | join (b : NodeId)
  /-- A join that has not been built. -/
  | unbuilt (b : NodeId)
  deriving DecidableEq, Repr

namespace Func

def sightOf (f : Func) : Reaching → Sight
  | .undefined => .nothing
  | .defined i => .definition i
  | .join t => .join (f.timelineAt t).block

def sight (f : Func) : Resolution → Sight
  | .join b => .unbuilt b
  | r => f.sightOf (Edit.reachingOf f r)

def sightFrom (f : Func) (v : VarId) : Option NodeId → Sight
  | none => .nothing
  | some c => match f.lastDef v c with
    | some i => .definition i
    | none => .join c

def sightBehind (f : Func) (v : VarId) (a : Option NodeId) : Sight :=
  match a with
  | none => .nothing
  | some c => if (f.explicit? c v).isSome then f.sightFrom v a else .unbuilt c

/-- The nodes of a join, each with its predecessor and the block that its value comes from. -/
def feedBlocks (f : Func) (b : NodeId) (v : VarId) : List (NodeId × Option NodeId) :=
  (f.feeds b v).map fun e => (e.1, e.2.map fun t => (f.timelineAt t).block)

end Func

section

variable {f g : Func} {v : VarId} {b : NodeId} {s : Stack}

namespace Func

theorem Tables.sightOf_leaving (h : f.Tables) {c : NodeId} {t : TimelineId}
    (ht : f.timelineId? c v = some t) :
    f.sightOf (Edit.leaving f t) = f.sightFrom v (some c) := by
  by_cases hd : f.Defining v c
  · obtain ⟨i, hi, hl⟩ := h.leaving_of_defining ht hd
    rw [hl, sightFrom, hi]
    rfl
  · have hnone : f.lastDef v c = none := by
      rw [Func.lastDef, not_not.mp hd]
      rfl
    rw [h.leaving_of_not_defining ht hd, sightFrom, hnone, sightOf, h.block_eq ht]

theorem Tables.joinNodes_of_joined? (h : f.Tables) {t : TimelineId} (hj : f.joined? b v = some t) :
    f.joinNodes b v ≠ [] ∧ f.timelineId? b v = some t := by
  rw [h.joined?_eq] at hj
  split at hj
  · cases hj
  · next hne => exact ⟨hne, hj⟩

theorem Tables.joined?_eq_none (h : f.Tables) : f.joined? b v = none ↔ f.joinNodes b v = [] := by
  constructor
  · intro hn
    by_contra hne
    obtain ⟨t, ht⟩ := timelineId?_of_joinNodes hne
    rw [h.joined?_eq, if_neg hne, ht] at hn
    cases hn
  · intro hn
    rw [h.joined?_eq, if_pos hn]

theorem Tables.sight_of_shows (ht : f.Tables) {r : Resolution} (h : f.Shows v b r) :
    (f.joinNodes b v ≠ [] ∧ f.sight r = .join b) ∨
      (f.joinNodes b v = [] ∧ ∃ a, f.Only v b a ∧ f.sight r = f.sightFrom v a) := by
  cases r with
  | undefined => exact Or.inr ⟨ht.joined?_eq_none.mp h.1, none, h.2, rfl⟩
  | timeline t =>
    obtain ⟨hn, c, hc, honly⟩ := h
    exact Or.inr ⟨ht.joined?_eq_none.mp hn, some c, honly,
      ht.sightOf_leaving (timelineId?_of_explicit? hc)⟩
  | top t =>
    rcases h with hj | ⟨hn, c, hj, hl, honly⟩
    · obtain ⟨hne, hid⟩ := ht.joinNodes_of_joined? hj
      refine Or.inl ⟨hne, ?_⟩
      show Sight.join (f.timelineAt t).block = _
      rw [ht.block_eq hid]
    · obtain ⟨-, hid⟩ := ht.joinNodes_of_joined? hj
      refine Or.inr ⟨ht.joined?_eq_none.mp hn, some c, honly, ?_⟩
      have hnone : f.lastDef v c = none := by
        rw [Func.lastDef, hl]
        rfl
      show Sight.join (f.timelineAt t).block = _
      rw [ht.block_eq hid, sightFrom, hnone]
  | join _ => exact h.elim

end Func

/-- The timeline that a resolution names belongs to its variable. -/
theorem Solution.var_of_timeline (G : f.Graph) (ht : f.Tables) (hl : b ∈ f.blocks)
    (h : Solution f v b s) {r : Resolution} (hr : s.resolution f = .ok r) {t : TimelineId}
    (hrt : r.timeline? = some t) : (f.timelineAt t).var = v := by
  have hcanon := h.readable.canon f s.root
  rw [h.rep_root G (Solution.placed ht) hl] at hcanon
  rw [Stack.resolution, resolutionOf_eq hcanon, h.var_eq] at hr
  cases hr
  have joined : ∀ {k}, (f.meaning v (.join k)).timeline? = some t → (f.timelineAt t).var = v := by
    intro k hk
    rw [meaning] at hk
    cases hj : f.joined? k v with
    | none =>
      rw [hj] at hk
      cases hk
    | some u =>
      rw [hj] at hk
      cases hk
      exact ht.var_eq (ht.joinNodes_of_joined? hj).2
  rcases h.root_cases G (Solution.placed ht) hl with ⟨hroot, -⟩ | ⟨-, -, hg, -⟩
  · rw [hroot] at hrt
    exact joined hrt
  · cases hr : s.root with
    | undefined =>
      rw [hr] at hrt
      cases hrt
    | timeline u =>
      rw [hr] at hrt hg
      cases hrt
      obtain ⟨c, -, hc⟩ := hg
      exact ht.var_eq (timelineId?_of_explicit? hc)
    | pending _ =>
      rw [hr] at hg
      exact hg.elim
    | join k =>
      rw [hr] at hrt
      exact joined hrt

theorem Solution.sight (G : f.Graph) (ht : f.Tables) (hl : b ∈ f.blocks)
    (h : Solution f v b s) : ∃ r, s.resolution f = .ok r ∧
      ((f.joinNodes b v ≠ [] ∧ f.sight r = .join b) ∨
        (f.joinNodes b v = [] ∧ b ∈ s.surviving ∧ f.sight r = .unbuilt b) ∨
        (f.joinNodes b v = [] ∧ b ∉ s.surviving ∧
          ∃ a, (∀ c, Arrives f.preds (s.Decided f v) b c ↔ c = a) ∧
            f.sight r = f.sightBehind v a)) := by
  have hcanon : s.canon f s.root = .ok s.root := by
    have hroot := h.readable.canon f s.root
    rwa [h.rep_root G (Solution.placed ht) hl] at hroot
  refine ⟨_, resolutionOf_eq hcanon, ?_⟩
  rw [h.var_eq]
  rcases h.root_cases G (Solution.placed ht) hl with ⟨hroot, hj⟩ | ⟨hun, hns, hg, harr⟩
  · rw [hroot, meaning]
    cases hjo : f.joined? b v with
    | some t =>
      obtain ⟨hne, hid⟩ := ht.joinNodes_of_joined? hjo
      refine Or.inl ⟨hne, ?_⟩
      show Sight.join (f.timelineAt t).block = _
      rw [ht.block_eq hid]
    | none =>
      rw [hjo] at hj
      exact Or.inr (Or.inl ⟨ht.joined?_eq_none.mp hjo, hj.resolve_left (by simp), rfl⟩)
  · refine Or.inr (Or.inr ⟨ht.joined?_eq_none.mp hun, hns, f.source s.root, harr, ?_⟩)
    cases hr : s.root with
    | undefined => rfl
    | timeline t =>
      rw [hr] at hg
      obtain ⟨c, -, hc⟩ := hg
      have hid := timelineId?_of_explicit? hc
      rw [source, ht.block_eq hid, sightBehind, hc]
      exact ht.sightOf_leaving hid
    | pending _ =>
      rw [hr] at hg
      exact hg.elim
    | join k =>
      rw [hr] at hg
      have hk : f.joined? k v = none := joined?_of_explicit? hg.2
      rw [source, sightBehind, hg.2, meaning, hk]
      rfl

/-- The joins that a resolution leaves are the needed ones that its block sees and that have
not been built. -/
theorem Solution.surviving_iff (h : f.NodesFresh) (hthrift : f.Thrifty) (hb : b ∈ f.blocks)
    (hs : Solution f v b s) {j : NodeId} : j ∈ s.surviving ↔
      f.joinNodes j v = [] ∧ f.Needed v j ∧ Sees f.preds (f.Defining v) b j := by
  have hw := h.searchable
  obtain ⟨G⟩ := hw.graph
  constructor
  · intro hj
    have hopens := hs.search.block (hs.phi_of_surviving hj)
    have hseen := hs.search.seen (hs.phi_of_surviving hj)
    rw [hs.leaf_eq] at hseen
    exact ⟨hw.tables.joined?_eq_none.mp hopens.unjoined,
      hthrift.needed hw.tables (hs.meets G (Solution.placed hw.tables) hj),
      hseen.mono h.defining_decides⟩
  · rintro ⟨hnil, hn, hsees⟩
    -- The needed joins are there once those of the resolution have been built.
    obtain ⟨c, f', -, hbuilt⟩ := hs.buildJoins_ok hw.forest hw.tables
    obtain ⟨r, -, hsh⟩ := hs.shows G hw.tables hb hbuilt (c := c)
    have hr := hs.refines hw hbuilt
    have hk := hbuilt.extended.keeps
    have hw' : ({ f' with memo := [] } : Func).Searchable := {
      forest := (hk.forest hw.forest).memo []
      enters := hk.enters hw.enters
      tables := tables_memo hbuilt.tables []
      unfrozen := hk.frozen.trans hw.unfrozen
      memo := remembers_of_nil rfl }
    have hjoin : f'.joinNodes j v ≠ [] := by
      refine (h.refines hw' (hr.memo [])).joinNodes_of_needed (hk.blocks ▸ hb)
        (hbuilt.tables.answered hsh) ?_ ((hr.memo []).needed.mpr hn)
      rw [(hr.memo []).defining, (hr.memo []).keeps.preds]
      exact hsees
    by_contra hnot
    exact hjoin ((hbuilt.extended.joinNodes_other fun hc => hnot hc.2).trans hnil)

/-! ## Functions that are alike -/

structure Akin (f g : Func) : Prop extends SameEdges f g where
  locals : ∀ b v, g.locals b v = f.locals b v
  waiting : ∀ b v, g.waiting b v = f.waiting b v
  joined : ∀ b v, g.joinNodes b v = [] ↔ f.joinNodes b v = []

namespace Akin

theorem defining (h : Akin f g) : g.Defining v = f.Defining v := by
  funext c
  rw [Defining, Defining, h.locals]

theorem lastDef (h : Akin f g) : g.lastDef v = f.lastDef v := by
  funext c
  rw [Func.lastDef, Func.lastDef, h.locals]

theorem decides (h : Akin f g) (hf : f.Tables) (hg : g.Tables) :
    g.Decides v = f.Decides v := by
  funext c
  rw [hf.decides_iff, hg.decides_iff, h.defining, ne_eq, ne_eq, h.joined]

theorem sightFrom (h : Akin f g) (a : Option NodeId) : g.sightFrom v a = f.sightFrom v a := by
  cases a with
  | none => rfl
  | some c => rw [Func.sightFrom, Func.sightFrom, h.lastDef]

theorem sightBehind (h : Akin f g) (hf : f.Tables) (hg : g.Tables) (a : Option NodeId) :
    g.sightBehind v a = f.sightBehind v a := by
  cases a with
  | none => rfl
  | some c =>
    have hd := congrFun (h.decides hf hg (v := v)) c
    simp only [Func.sightBehind, h.sightFrom]
    exact if_congr (iff_of_eq hd) rfl rfl

theorem needed_iff (h : Akin f g) (hf : f.Forest) (hg : g.Forest) (hb : b ∈ f.blocks) :
    g.Needed v b ↔ f.Needed v b := by
  rw [Needed, Needed, h.defining]
  exact h.meets_iff hf hg hb

/-- Akin functions find the same joins missing and answer alike without building them. -/
theorem sight_of_solution (h : Akin f g) (hf : f.NodesFresh) (hg : g.NodesFresh) (hft : f.Thrifty)
    (hgt : g.Thrifty) (hb : b ∈ f.blocks) {s s' : Stack} (hs : Solution f v b s)
    (hs' : Solution g v b s') : ∃ r r', s.resolution f = .ok r ∧ s'.resolution g = .ok r' ∧
      g.sight r' = f.sight r := by
  have hff := hf.searchable.forest
  have hgf := hg.searchable.forest
  obtain ⟨G⟩ := hf.searchable.graph
  obtain ⟨G'⟩ := hg.searchable.graph
  have hb' : b ∈ g.blocks := h.blocks ▸ hb
  have hsur : ∀ {j}, j ∈ s'.surviving ↔ j ∈ s.surviving := by
    intro j
    rw [hs.surviving_iff hf hft hb, hs'.surviving_iff hg hgt hb', h.joined, h.defining,
      h.sees_iff hff hgf hb]
    refine and_congr_right fun _ => and_congr_left fun hsees => ?_
    exact h.needed_iff hff hgf (h.sees hff hb ((h.sees_iff hff hgf hb).mpr hsees)).1
  have hdec : s'.Decided g v = s.Decided f v := by
    funext c
    rw [Stack.Decided, Stack.Decided, h.decides hf.searchable.tables hg.searchable.tables, hsur]
  obtain ⟨r, hr, hcases⟩ := hs.sight G hf.searchable.tables hb
  obtain ⟨r', hr', hcases'⟩ := hs'.sight G' hg.searchable.tables hb'
  refine ⟨r, r', hr, hr', ?_⟩
  simp only [ne_eq, h.joined, hsur, hdec, h.arrives_iff hff hgf hb,
    h.sightBehind hf.searchable.tables hg.searchable.tables] at hcases'
  rcases hcases with ⟨hj, he⟩ | ⟨hj, hin, he⟩ | ⟨hj, hout, a, ha, he⟩
  · rcases hcases' with ⟨-, he'⟩ | ⟨hj', -⟩ | ⟨hj', -⟩
    · rw [he, he']
    · exact absurd hj' hj
    · exact absurd hj' hj
  · rcases hcases' with ⟨hj', -⟩ | ⟨-, -, he'⟩ | ⟨-, hout', -⟩
    · exact absurd hj hj'
    · rw [he, he']
    · exact absurd hin hout'
  · rcases hcases' with ⟨hj', -⟩ | ⟨-, hin', -⟩ | ⟨-, -, a', ha', he'⟩
    · exact absurd hj hj'
    · exact absurd hin' hout
    · rw [he, he', (ha a').mp ((ha' a').mpr rfl)]

end Akin

structure Alike (f g : Func) : Prop where
  keeps : Keeps f g
  held : ∀ b v, g.held b v = f.held b v
  waiting : ∀ b v, g.waiting b v = f.waiting b v
  joined : ∀ b v, g.joinNodes b v = [] ↔ f.joinNodes b v = []

namespace Alike

theorem akin (h : Alike f g) : Akin f g where
  blocks := h.keeps.blocks
  preds _ := congrFun h.keeps.preds _
  locals b v := locals_of_held (h.held b v)
  waiting := h.waiting
  joined := h.joined

theorem sightFrom (h : Alike f g) (a : Option NodeId) : g.sightFrom v a = f.sightFrom v a :=
  h.akin.sightFrom a

theorem only (h : Alike f g) (hf : f.Tables) (hg : g.Tables) {a : Option NodeId} :
    g.Only v b a ↔ f.Only v b a := by
  rw [Only, Only, h.akin.decides hf hg, h.keeps.preds]

theorem sight_of_shows (h : Alike f g) (hf : f.Tables) (hg : g.Tables) {r r' : Resolution}
    (hr : f.Shows v b r) (hr' : g.Shows v b r') : g.sight r' = f.sight r := by
  have hj := h.joined b v
  rcases hf.sight_of_shows hr with ⟨hne, he⟩ | ⟨hn, a, ha, he⟩
  · rcases hg.sight_of_shows hr' with ⟨-, he'⟩ | ⟨hn', -⟩
    · rw [he, he']
    · exact absurd (hj.mp hn') hne
  · rcases hg.sight_of_shows hr' with ⟨hne', -⟩ | ⟨-, a', ha', he'⟩
    · exact absurd (hj.mpr hn) hne'
    · have : a' = a := (ha a').mp ((h.only hf hg).mp ha' a' |>.mpr rfl)
      rw [he, he', h.sightFrom, this]

/-- Alike functions find the same joins missing and answer alike without building them. -/
theorem sight_of_solution (h : Alike f g) (hf : f.NodesFresh) (hg : g.NodesFresh) (hft : f.Thrifty)
    (hgt : g.Thrifty) (hb : b ∈ f.blocks) {s s' : Stack} (hs : Solution f v b s)
    (hs' : Solution g v b s') : ∃ r r', s.resolution f = .ok r ∧ s'.resolution g = .ok r' ∧
      g.sight r' = f.sight r :=
  h.akin.sight_of_solution hf hg hft hgt hb hs hs'

end Alike

/-! ## Where the values of joins come from -/

/-- The value of a node comes from the block that decides what leaves its predecessor. -/
theorem Func.NodesFresh.departs_target (h : f.NodesFresh) {e : NodeId × Option TimelineId}
    (he : e ∈ f.feeds b v) :
    Departs f.preds (f.Decides v) e.1 (e.2.map fun t => (f.timelineAt t).block) := by
  obtain ⟨G⟩ := h.searchable.graph
  obtain ⟨a, ha⟩ : ∃ a, Departs f.preds (f.Decides v) e.1 a := G.exists_departs (h.pred_mem he)
  have hT := h.fresh e he a ha
  cases a with
  | none =>
    rw [hT]
    exact ha
  | some c =>
    obtain ⟨t, ht⟩ := Option.isSome_iff_exists.mp (decides_of_departs ha)
    rw [Option.bind_some, ht] at hT
    rw [hT, Option.map_some, h.searchable.tables.block_eq (timelineId?_of_explicit? ht)]
    exact ha

def Func.Ordered (f : Func) : Prop :=
  ∀ {b v}, f.joinNodes b v ≠ [] → (f.feeds b v).map Prod.fst = f.preds b

theorem Refines.ordered {f' : Func} (h : Refines f f') (ht : f.Tables) (ho : f.Ordered) :
    f'.Ordered := by
  intro b v hb
  rw [h.keeps.preds]
  rcases h.joins b v with heq | hnew
  · rw [h.feeds_of_joinNodes ht heq]
    exact ho (heq ▸ hb)
  · exact hnew.preds

/-- The joins of akin functions take the same values from the same predecessors. -/
theorem Akin.feedBlocks (h : Akin f g) (hf : f.NodesFresh) (hg : g.NodesFresh) (hfo : f.Ordered)
    (hgo : g.Ordered) : g.feedBlocks b v = f.feedBlocks b v := by
  by_cases hn : f.joinNodes b v = []
  · rw [Func.feedBlocks, Func.feedBlocks, feeds_eq_nil_iff.mpr hn,
      feeds_eq_nil_iff.mpr ((h.joined b v).mpr hn)]
    rfl
  have hff := hf.searchable.forest
  have hgf := hg.searchable.forest
  have hb : b ∈ f.blocks := hf.inside hn
  have hfst : (g.feeds b v).map Prod.fst = (f.feeds b v).map Prod.fst := by
    rw [hfo hn, hgo fun hn' => hn ((h.joined b v).mp hn'), h.preds hb]
  have hlen : (g.feeds b v).length = (f.feeds b v).length := by
    simpa using congrArg List.length hfst
  refine List.ext_getElem (by simp [Func.feedBlocks, hlen]) fun k hk hk' => ?_
  simp only [Func.feedBlocks, List.length_map] at hk hk'
  simp only [Func.feedBlocks, List.getElem_map]
  have hpred : ((g.feeds b v)[k]).1 = ((f.feeds b v)[k]).1 := by
    have := List.getElem_of_eq hfst (by simpa using hk)
    simpa using this
  have hd := hf.departs_target (List.getElem_mem hk')
  have hd' := hg.departs_target (List.getElem_mem hk)
  rw [h.decides hf.searchable.tables hg.searchable.tables, hpred,
    h.departs_iff hff hgf (hf.pred_mem (List.getElem_mem hk'))] at hd'
  have hfresh := hf.fresh _ (List.getElem_mem hk')
  rw [hpred, hfresh.unique hf.searchable.tables hd' hd]

theorem Alike.feedBlocks (h : Alike f g) (hf : f.NodesFresh) (hg : g.NodesFresh) (hfo : f.Ordered)
    (hgo : g.Ordered) : g.feedBlocks b v = f.feedBlocks b v :=
  h.akin.feedBlocks hf hg hfo hgo

end

end DefFlow.Flow
