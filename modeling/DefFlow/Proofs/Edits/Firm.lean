import DefFlow.Proofs.Edits.Keep
import DefFlow.Proofs.Resolution.Roots
import DefFlow.Proofs.Tree.Straight

/-!
# Nodes with a value behind them

A node is loose if the timeline that it is bound to decides nothing. A question that has to be
searched builds nodes for edges only, binds none of them loosely, and is answered by a timeline
that decides its value. This holds in every tree, whatever else has been removed.
-/

set_option autoImplicit false

namespace DefFlow.Flow

open Func Component

def Func.Loose (f : Func) (n : IncomingId) (t : TimelineId) : Prop :=
  ∃ i, f.incoming.get? n = some i ∧ i.target = some t ∧ (f.timelineAt t).explicit = false

def Func.Firm (f : Func) (T : Option TimelineId) : Prop :=
  ∀ t, T = some t → (f.timelineAt t).explicit = true

structure Firms (f f' : Func) : Prop where
  node : ∀ {n i}, f.incoming.get? n = some i → f'.incoming.get? n = some i
  explicit : ∀ {t}, (f.timelineAt t).explicit = true → (f'.timelineAt t).explicit = true
  size : f.incoming.size ≤ f'.incoming.size
  fresh : ∀ {n i}, f'.incoming.get? n = some i → f.incoming.get? n = none → f.incoming.size < n
  edge : ∀ {n i}, f'.incoming.get? n = some i → f.incoming.get? n = none →
    i.pred ∈ f.preds (f'.timelineAt i.owner).block
  firm : ∀ {n i}, f'.incoming.get? n = some i → f.incoming.get? n = none → f'.Firm i.target

section

variable {f f' : Func} {root : Component} {rest : List Component} {s : Stack} {b : NodeId}
  {v : VarId} {t : TimelineId} {n : IncomingId}

theorem live_of_explicit (h : (f.timelineAt t).explicit = true) :
    ∃ x, f.timelines.get? t = some x := by
  cases hx : f.timelines.get? t with
  | some x => exact ⟨x, rfl⟩
  | none =>
    rw [timelineAt, hx] at h
    cases h

theorem explicit_of_explicit? (h : f.explicit? b v = some t) :
    (f.timelineAt t).explicit = true :=
  (Option.filter_eq_some_iff.mp h).2

theorem explicit?_of_explicit (hid : f.timelineId? b v = some t)
    (h : (f.timelineAt t).explicit = true) : f.explicit? b v = some t :=
  Option.filter_eq_some_iff.mpr ⟨hid, h⟩

theorem explicit_of_joined? (h : f.joined? b v = some t) : (f.timelineAt t).explicit = true := by
  have hne := (Option.filter_eq_some_iff.mp h).2
  rw [Timeline.explicit, Timeline.isEmpty]
  simp only [Bool.not_eq_true'] at hne
  rw [hne]
  rfl

/-! ## What a search has built -/

theorem Func.Tables.mem_joinNodes (ht : f.Tables) {i : Incoming} (hi : f.incoming.get? n = some i) :
    n ∈ f.joinNodes (f.timelineAt i.owner).block (f.timelineAt i.owner).var := by
  obtain ⟨x, hx, hn⟩ := ht.node hi
  rw [timelineAt_of_get? hx, ht.joinNodes_eq (ht.listed hx), timelineAt_of_get? hx]
  exact hn

theorem Extended.explicit {J : NodeId → Prop} (h : Extended v J f f') (ht : f.Tables)
    (ht' : f'.Tables) (hexp : (f.timelineAt t).explicit = true) :
    (f'.timelineAt t).explicit = true := by
  obtain ⟨x, hx⟩ := live_of_explicit hexp
  exact explicit_of_explicit? (h.explicit?_of_some ht ht'
    (explicit?_of_explicit (ht.listed hx) hexp))

namespace Solution

/-- Whatever a settled value binds a node to decides its value. -/
theorem firm_aim (h : Solution (f.rooted root rest) v b s) (ht : f.Tables)
    (hb : Built v s s.surviving f f') {r : Reach} (hr : Grounded (f.rooted root rest) v s r) :
    f'.Firm (f'.aim v r) := by
  intro t ha
  cases r with
  | undefined => cases ha
  | pending _ => cases ha
  | timeline u =>
    cases ha
    obtain ⟨c, -, hc⟩ := hr
    exact hb.extended.explicit ht hb.tables (explicit_of_explicit? (f := f) hc)
  | join k =>
    refine explicit_of_joined? (b := k) (v := v) ?_
    rw [hb.tables.joined?_eq, if_neg (h.joinNodes_ne_nil hb hr.1)]
    exact ha

/-- The joins of a search have nodes for edges, and none of them is loose. -/
theorem firms (h : Solution (f.rooted root rest) v b s) (hf : (f.rooted root rest).Forest)
    (ht : f.Tables) (hp : (f.rooted root rest).preds = f.preds)
    (hb : Built v s s.surviving f f') : Firms f f' := by
  -- A new node belongs to a join of the search, and is one of its paths.
  have path : ∀ {n i}, f'.incoming.get? n = some i → f.incoming.get? n = none →
      f.incoming.size < n ∧ ∃ j ∈ s.surviving, (f'.timelineAt i.owner).block = j ∧
        ∃ e ∈ (s.frame j).preds.zip (s.frame j).values,
          e.1 = i.pred ∧ f'.aim v (s.rep e.2) = i.target := by
    intro n i hi hn
    have hmem := hb.tables.mem_joinNodes hi
    obtain ⟨l, hl, hnew, hJ⟩ := hb.extended.joinNodes (f'.timelineAt i.owner).block
      (f'.timelineAt i.owner).var
    have hml : n ∈ l := by
      rw [hl] at hmem
      refine (List.mem_append.mp hmem).resolve_left fun hold => ?_
      obtain ⟨-, k, -, hk, -⟩ := ht.get?_of_mem hold
      rw [hn] at hk
      cases hk
    obtain ⟨hv, hj⟩ := hJ (List.ne_nil_of_mem hml)
    refine ⟨hnew n hml, _, hj, rfl, ?_⟩
    have hfeed := List.mem_map_of_mem (f := fun n => ((f'.incomingAt n).pred,
      (f'.incomingAt n).target)) hmem
    rw [← feeds, hv, hb.feeds _ hj, List.mem_map, incomingAt_of_get? hi] at hfeed
    obtain ⟨e, he, heq⟩ := hfeed
    obtain ⟨he₁, he₂⟩ := Prod.mk.inj heq
    exact ⟨e, he, he₁, he₂⟩
  refine ⟨hb.extended.node, hb.extended.explicit ht hb.tables, hb.extended.size,
    fun hi hn => (path hi hn).1, fun hi hn => ?_, fun hi hn => ?_⟩
  · obtain ⟨-, j, hj, hblock, e, he, hpred, -⟩ := path hi hn
    rw [hblock, ← hpred, ← hp, ← h.frame_preds hj]
    exact (List.of_mem_zip he).1
  · obtain ⟨-, j, hj, -, e, he, -, haim⟩ := path hi hn
    obtain ⟨p, hpm, hc⟩ := forall₂_right (h.values_of_mem (h.phi_of_surviving hj))
      (List.of_mem_zip he).2
    have hblock := (h.search.block (h.phi_of_surviving hj)).block
    rw [← haim]
    exact h.firm_aim ht hb (h.search.grounded_carried hf.net (hf.net.mem hblock hpm) hc)

theorem firm_resolution (h : Solution (f.rooted root rest) v b s)
    (hf : (f.rooted root rest).Forest) (ht : f.Tables) (hl : b ∈ root.blocks)
    (hb : Built v s s.surviving f f') {c : List IncomingId} {r : Resolution}
    (hr : ({ s with created := c } : Stack).resolution f' = .ok r) : f'.Firm r.timeline? := by
  have hcanon := h.canon_root hf.net (tables_rooted ht) hl f' c
  rw [Stack.resolution, resolutionOf_eq hcanon, Except.ok.injEq] at hr
  subst hr
  show f'.Firm (f'.meaning s.var s.root).timeline?
  intro t hmeans
  cases hroot : s.root with
  | undefined =>
    rw [hroot] at hmeans
    cases hmeans
  | pending _ =>
    rw [hroot] at hmeans
    cases hmeans
  | timeline u =>
    rw [hroot] at hmeans
    cases hmeans
    have hg : Grounded (f.rooted root rest) v s s.root := by
      rcases h.root_out hf.net (placed (tables_rooted ht)) hl with ⟨hr, -⟩ | ⟨-, -, hg, -⟩
      · rw [hroot] at hr
        cases hr
      · exact hg
    rw [hroot] at hg
    exact h.firm_aim ht hb hg t rfl
  | join k =>
    rw [hroot, meaning] at hmeans
    cases hj : f'.joined? k s.var with
    | none =>
      rw [hj] at hmeans
      cases hmeans
    | some u =>
      rw [hj] at hmeans
      cases hmeans
      exact explicit_of_joined? hj

end Solution

/-! ## Asking -/

/-- A question that nothing is remembered of is answered by a timeline that decides its value. -/
theorem Func.Consistent.stackAt_firms (h : f.Consistent) (hu : f.frozen = false)
    (hb : (f.nodes.get? b).isSome) (hp : f.hasParent b = true)
        (hm : f.memo.lookup ⟨b, v, false⟩ = none) :
    ∃ s f', Edit.stackAt b v f = .ok s f' ∧ Firms f f' ∧
      (∀ e ∈ f'.memo, e.1 = ⟨b, v, false⟩ ∨ e ∈ f.memo) ∧
      ∃ r, s.resolution f' = .ok r ∧ f'.Firm r.timeline? := by
  have ht := h.linked.tables
  have hask : f.resolvable b = .ok () := by rw [resolvable, if_pos hp]
  obtain ⟨root, rest, hperm, hbr⟩ := exists_root ((h.stocked.stored b).mpr hb)
  have hforest := forest_rooted h.forest hperm
  have hpreds := preds_rooted h.forest.nodup hperm
  obtain ⟨s, hs, hsol, -⟩ := solve_ends hforest.net hbr v
  rw [solve_congr (f := f) hpreds (fun _ _ => rfl) (fun _ _ => rfl) rfl rfl b v] at hs
  obtain ⟨c, f₁, hbuild, hbuilt⟩ := hsol.buildJoins_beside (g := f) hforest (tables_rooted ht) ht
    rfl rfl rfl
  have hfirms := hsol.firms hforest ht hpreds hbuilt
  have hcanon := hsol.canon_root hforest.net (tables_rooted ht) hbr f₁ c
  have hres := resolutionOf_eq hcanon
  have hmemo := sameView_memo f₁ ((⟨b, v, false⟩, { s with created := c }) :: f₁.memo)
  refine ⟨_, _, Edit.stackAt_of_build hask hu hm hs hbuild,
    ⟨hfirms.node, hfirms.explicit, hfirms.size, hfirms.fresh, hfirms.edge, hfirms.firm⟩,
    fun e he => ?_, _, hmemo.resolution hres, hsol.firm_resolution hforest ht hbr hbuilt hres⟩
  rcases List.mem_cons.mp he with rfl | he
  · exact Or.inl rfl
  · rcases hbuilt.forgets with rfl | hnil
    · exact Or.inr he
    · rw [hnil] at he
      cases he

/-! ## Blocks without a parent -/

/-- The path to a component lies in the tree that it is part of. -/
theorem Func.Forest.path_eq (hf : f.Forest) {c : Component} (hc : c ∈ f.trees) {x : NodeId}
    (hx : x ∈ c.ids) : f.path x = (c.pathIn x).getD [] := by
  have hone : f.trees.Pairwise fun c d => c.pathIn x = none ∨ d.pathIn x = none := by
    refine (pairwise_disjoint hf.nodup).imp fun {c d} hdis => ?_
    by_cases hc : x ∈ c.ids
    · exact Or.inr (pathIn_of_not_mem fun hd => hdis hc hd)
    · exact Or.inl (pathIn_of_not_mem hc)
  obtain ⟨l, r, hlr⟩ := List.append_of_mem hc
  have hperm : f.trees.Perm (c :: (l ++ r)) := hlr ▸ List.perm_middle
  obtain ⟨p, hp, -⟩ := pathIn_of_mem c hx
  rw [path, findSome?_perm hperm hone, List.findSome?_cons, hp]

theorem Func.Forest.hasParent_detached (hf : f.Forest) {c : Component} (hc : c ∈ f.detached) :
    f.hasParent c.id = false := by
  have hpath := hf.path_eq (List.mem_cons_of_mem _ hc) (id_mem_ids c)
  rw [pathIn_self] at hpath
  have hne : f.body.id ≠ c.id := fun he =>
    (List.pairwise_cons.mp (pairwise_disjoint hf.nodup)).1 c hc (id_mem_ids f.body)
      (he ▸ id_mem_ids c)
  rw [Func.hasParent, parent?, hpath]
  simp [isBody, hne]

theorem Func.Forest.hasParent_iff (hf : f.Forest) {i : NodeId} (hi : i ∈ idsAll f.trees) :
    f.hasParent i = true ↔ i ∉ f.detached.map Component.id := by
  constructor
  · intro hp hm
    obtain ⟨c, hc, rfl⟩ := List.mem_map.mp hm
    rw [hf.hasParent_detached hc] at hp
    cases hp
  · intro hout
    obtain ⟨c, hc, hic⟩ := mem_idsAll.mp hi
    obtain ⟨l, hl, hid⟩ := pathIn_of_mem c hic
    have hpath := hf.path_eq hc hic
    rw [hl, Option.getD_some] at hpath
    rw [Func.hasParent, parent?, hpath]
    cases l with
    | cons p ps => rfl
    | nil =>
      rcases List.mem_cons.mp hc with rfl | hc
      · simp [isBody, hid rfl, hf.held]
      · exact absurd (List.mem_map.mpr ⟨c, hc, hid rfl⟩) hout

theorem Func.Forest.hasParent_eq_false (hf : f.Forest) (hb : b ∈ blocksAll f.trees) :
    f.hasParent b = false ↔ .block b ∈ f.detached := by
  refine ⟨fun hp => ?_, hf.hasParent_detached⟩
  obtain ⟨c, hc, hbc⟩ := mem_blocksAll.mp hb
  obtain ⟨l, hl, hid⟩ := pathIn_of_mem c (mem_ids_of_mem_blocks hbc)
  have hpath := hf.path_eq hc (mem_ids_of_mem_blocks hbc)
  rw [hl, Option.getD_some] at hpath
  have hnil : l = [] := by
    cases l with
    | nil => rfl
    | cons p ps =>
      rw [Func.hasParent, parent?, hpath] at hp
      cases hp
  have hshells := not_mem_shells ((PartOf.nodup ⟨c, hc, .here⟩ hf.nodup)) hbc
  rw [← hid hnil] at hshells
  have hblock : c = .block b := by
    cases c with
    | block i => exact congrArg _ (hid hnil)
    | _ => exact absurd (by rw [shells]; exact List.mem_cons_self) hshells
  subst hblock
  refine (List.mem_cons.mp hc).resolve_left fun hbody => ?_
  rw [Func.hasParent, parent?, hpath, hnil] at hp
  simp [isBody, ← hbody, hf.held, Component.id] at hp

theorem Func.Forest.alone (hf : f.Forest) (hb : b ∈ blocksAll f.trees)
    (hp : f.hasParent b = false) : ∃ rest, (.block b :: rest).Perm f.trees := by
  obtain ⟨l, r, hlr⟩ := List.append_of_mem ((hf.hasParent_eq_false hb).mp hp)
  refine ⟨f.body :: (l ++ r), ?_⟩
  rw [trees, hlr]
  exact (@List.perm_middle _ _ (f.body :: l) r).symm

theorem Func.Forest.preds_of_alone (hf : f.Forest) (hb : b ∈ blocksAll f.trees)
    (hp : f.hasParent b = false) : f.preds b = [] := by
  obtain ⟨rest, hperm⟩ := hf.alone hb hp
  rw [← preds_rooted hf.nodup hperm, preds, trees, rooted, List.findSome?_cons, predsIn, if_pos rfl]
  rfl

/-- Control goes from a block with a parent only, and to a block of a tree. -/
theorem Func.Forest.mem_of_succ (hf : f.Forest) (hb : b ∈ blocksAll f.trees) {s : NodeId}
    (hs : s ∈ f.succs b) : f.hasParent b = true ∧ s ∈ blocksAll f.trees := by
  constructor
  · by_contra hp
    obtain ⟨rest, hperm⟩ := hf.alone hb (Bool.not_eq_true _ ▸ hp)
    rw [← succs_rooted hf.nodup hperm, succs, trees, rooted, List.findSome?_cons, succsIn,
      if_pos rfl] at hs
    cases hs
  · obtain ⟨root, rest, hperm, hbr⟩ := exists_root hb
    rw [← succs_rooted hf.nodup hperm] at hs
    have hm := (forest_rooted hf hperm).succ_mem hbr hs
    exact (blocksAll_perm hperm).mem_iff.mp (List.mem_append_left _ hm)

end

end DefFlow.Flow
