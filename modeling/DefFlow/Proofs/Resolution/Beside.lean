import DefFlow.Proofs.Resolution.Roots
import DefFlow.Proofs.Resolution.Sight

/-!
# Questions beside the body

A block that stands in a tree beside the body is asked about as any other, and its joins are built
in its own tree. Main statements: whichever tree the joins of a search belong to, building them
leaves what the blocks of the body see, and the answer shows what the block of the question sees.
-/

set_option autoImplicit false

namespace DefFlow.Flow

open Func Component

section

variable {f f' : Func} {root : Component} {rest : List Component} {v w : VarId} {leaf b c : NodeId}
  {s : Stack}

theorem rooted_body (h : f.bodyHeld = true) : f.rooted f.body f.detached = f := by
  rw [Func.rooted, ← h]

namespace Solution

variable (h : Solution (f.rooted root rest) v leaf s) (hf : f.Forest)
  (hp : (root :: rest).Perm f.trees) (ht : f.Tables)
  (hfine : Finest (f.rooted root rest) v (s.Visited (f.rooted root rest) v)
    (s.out (f.rooted root rest) v)) (hb : Built v s s.surviving f f')

include h hf hp ht hfine hb

/-- Building joins in any tree changes no origin in the body. -/
theorem origin_beside (w : VarId) {x : NodeId} (hx : x ∈ f.blocks) :
    f'.origin w x = f.origin w x := by
  have hk := hb.extended.keeps
  refine origin_eq hf.net (hk.forest hf).net (placed ht) (placed hb.tables) hk.blocks hk.preds
    (fun {y} hd => ?_) (fun {y} hd => ?_) hx
  · rw [Decides, Option.isSome_iff_exists] at hd ⊢
    obtain ⟨t, he⟩ := hd
    exact ⟨t, hb.extended.explicit?_of_some ht hb.tables he⟩
  · by_cases hj : w = v ∧ y ∈ s.surviving
    · obtain ⟨rfl, hj⟩ := hj
      have ho := h.origin_surviving (forest_rooted hf hp).net (tables_rooted ht) hfine hj
      rw [origin_rooted hf.nodup hp] at ho
      exact Or.inr ho
    · left
      rwa [Decides, hb.extended.explicit? ht hb.tables (hb.extended.joinNodes_other hj)] at hd

/-- Building joins in any tree leaves what the blocks of the body see. -/
theorem view_beside (w : VarId) (hx : b ∈ f.blocks) : f'.view w b = f.view w b := by
  have hk := hb.extended.keeps
  by_cases hj : w = v ∧ b ∈ s.surviving
  · obtain ⟨rfl, hj⟩ := hj
    obtain ⟨p, hpm, q, hqm, hne⟩ :=
      h.origins_differ (forest_rooted hf hp).net (tables_rooted ht) hfine hj
    rw [preds_rooted hf.nodup hp] at hpm hqm
    rw [origin_rooted hf.nodup hp] at hne
    rw [view_of_differ hpm hqm hne, view_of_nodes (h.joinNodes_ne_nil hb hj)]
  · refine view_congr Function.injective_id rfl (by rw [hb.extended.joinNodes_other hj]) ?_
      fun p _ => sightFrom_congr (fun c => hb.extended.locals c w) _
    rw [hk.preds]
    exact List.forall₂_same.mpr fun p hpm =>
      h.origin_beside hf hp ht hfine hb w (hf.pred_mem hx hpm)

end Solution

theorem Built.rooted {js : List NodeId} (h : Built v s js f f') :
    Built v s js (f.rooted root rest) (f'.rooted root rest) where
  tables := tables_rooted h.tables
  extended :=
    have hk := h.extended.keeps
    { h.extended with
      keeps := ⟨⟨hk.handle, rfl, rfl, rfl, hk.frozen, hk.size, hk.stored⟩,
          hk.name, hk.vars, hk.args,
        hk.returns, hk.insts, hk.label, hk.instructions, hk.phiCount⟩ }
  forgets := h.forgets.imp (fun he => by rw [he]) id
  feeds := h.feeds
  aimed := h.aimed

namespace Solution

variable (h : Solution (f.rooted root rest) v leaf s) (hf : f.Forest)
  (hp : (root :: rest).Perm f.trees) (ht : f.Tables) (hl : leaf ∈ root.blocks)
  (hfine : Finest (f.rooted root rest) v (s.Visited (f.rooted root rest) v)
    (s.out (f.rooted root rest) v))

include h hf hp ht hl hfine

/-- The joins at the ends of a search in any tree show what its block sees, and building them
leaves that. -/
theorem tells_beside (hb : Built v s s.surviving f f') {c : List IncomingId} :
    f'.view v leaf = f.view v leaf ∧
      ∃ r, ({ s with created := c } : Stack).resolution f' = .ok r ∧ f'.Tells v leaf r := by
  have hk := hb.extended.keeps
  have hn' : (idsAll f'.trees).Nodup := hk.trees ▸ hf.nodup
  have hp' : (root :: rest).Perm f'.trees := hk.trees ▸ hp
  have hb' : Built v s s.surviving (f.rooted root rest) (f'.rooted root rest) := hb.rooted
  obtain ⟨r, hr, htells⟩ := h.tells (forest_rooted hf hp) (tables_rooted ht) hl hfine hb' (c := c)
  have hsame := h.view_built (forest_rooted hf hp) (tables_rooted ht) hfine hb' v hl
  rw [view_rooted hf.nodup hp, view_rooted hn' hp'] at hsame
  refine ⟨hsame, r, hr, ?_, htells.names⟩
  rw [← view_rooted hn' hp']
  exact htells.sight

/-- A search in any tree shows what its block sees, or ends at a join that is not there. -/
theorem tells_or_unbuilt_beside :
    ∃ r, s.resolution f = .ok r ∧
      (f.Tells v leaf r ∨ ∃ k, r = .join k ∧ f.view v leaf = .join k ∧ f.joined? k v = none) := by
  obtain ⟨r, hr, hcases⟩ := h.tells_or_unbuilt (forest_rooted hf hp) (tables_rooted ht) hl hfine
  rw [view_rooted hf.nodup hp] at hcases
  refine ⟨r, hr, hcases.imp_left fun htells => ⟨?_, htells.names⟩⟩
  rw [← view_rooted hf.nodup hp]
  exact htells.sight

end Solution

/-- A question that nothing is remembered of is searched in the tree of its block, and the joins
that are left are built. -/
theorem stackAt_anew (hf : f.Forest) (ht : f.Tables) (hu : f.frozen = false)
    (hp : (root :: rest).Perm f.trees) (hb : b ∈ root.blocks) (hres : f.resolvable b = .ok ())
    (hm : f.memo.lookup ⟨b, v, false⟩ = none) :
    ∃ s c f₁, Solution (f.rooted root rest) v b s ∧
      Finest (f.rooted root rest) v (s.Visited (f.rooted root rest) v)
        (s.out (f.rooted root rest) v) ∧
      Built v s s.surviving f f₁ ∧ Edit.stackAt b v f = .ok { s with created := c }
        { f₁ with memo := (⟨b, v, false⟩, { s with created := c }) :: f₁.memo } := by
  have ht' : (f.rooted root rest).Tables := tables_rooted ht
  obtain ⟨s, hs, hsol, hfine⟩ := solve_finest (forest_rooted hf hp).net (Solution.placed ht')
    (v := v) hb
  rw [solve_congr (f := f) (preds_rooted hf.nodup hp) (fun _ _ => rfl) (fun _ _ => rfl) rfl rfl]
    at hs
  obtain ⟨c, f₁, hrun, hbuilt⟩ := hsol.buildJoins_beside (g := f) (forest_rooted hf hp)
    ht' ht rfl rfl rfl
  exact ⟨s, c, f₁, hsol, hfine, hbuilt, Edit.stackAt_of_build hres hu hm hs hrun⟩

/-- Where nothing is remembered of a question about the body, a join that its answer names is that
of its own block or has just been built. -/
theorem Func.Ready.stackAt_anew (h : f.Ready) (hb : b ∈ f.blocks)
    (hm : f.memo.lookup ⟨b, v, false⟩ = none) :
    ∃ s g r, Edit.stackAt b v f = .ok s g ∧ s.resolution g = .ok r ∧ g.Tells v b r ∧
      ∀ t, r = .top t → ∃ j, g.joined? j v = some t ∧ (j = b ∨ f.joinNodes j v = []) := by
  obtain ⟨s, c, f₁, hsol, hfine, hbuilt, hrun⟩ := Flow.stackAt_anew h.forest h.tables h.unfrozen
    (List.Perm.refl _) hb (h.resolvable hb) hm
  rw [rooted_body h.forest.held] at hsol hfine
  obtain ⟨r, hr, htells⟩ := hsol.tells h.forest h.tables hb hfine hbuilt (c := c)
  have hk := hbuilt.extended.keeps
  refine ⟨_, _, r, hrun, (sameView_memo f₁ _).resolution hr,
    tells_memo _ htells, ?_⟩
  rintro t rfl
  obtain ⟨j, hj, hcases⟩ := hsol.top_found h.forest h.tables hb hfine hr
  refine ⟨j, hj, hcases.imp_right fun hs => ?_⟩
  exact h.tables.joined?_eq_none.mp (hsol.search.block (hsol.phi_of_surviving hs)).unjoined

end

end DefFlow.Flow
