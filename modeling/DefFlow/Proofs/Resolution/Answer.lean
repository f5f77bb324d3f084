import DefFlow.Proofs.Resolution.Coherence

/-!
# The answers of resolutions

A resolution of an editable function names the join at the block itself or the one
value that arrives there, also when it repeats an answer that was given before.
-/

set_option autoImplicit false

namespace DefFlow.Flow

open Func

namespace Func

def Only (f : Func) (v : VarId) (b : NodeId) (a : Option NodeId) : Prop :=
  ∀ c, Arrives f.preds (f.Decides v) b c ↔ c = a

/-- What an answer about `v` at the top of `b` says. -/
def Shows (f : Func) (v : VarId) (b : NodeId) : Resolution → Prop
  | .undefined => f.joined? b v = none ∧ f.Only v b none
  | .timeline t => f.joined? b v = none ∧ ∃ c, f.explicit? c v = some t ∧ f.Only v b (some c)
  | .top t => f.joined? b v = some t ∨
      (f.joined? b v = none ∧ ∃ c, f.joined? c v = some t ∧ f.locals c v = [] ∧ f.Only v b (some c))
  | .join _ => False

def Remembers (f : Func) : Prop :=
  ∀ {b v s}, f.memo.lookup ⟨b, v, false⟩ = some s → b ∈ f.blocks →
    ∃ r, s.resolution f = .ok r ∧ f.Shows v b r

/-- A function that can be edited, with no way back to its entry, that remembers right answers. -/
structure Searchable (f : Func) : Prop where
  forest : f.Forest
  enters : f.Enters
  tables : f.Tables
  unfrozen : f.frozen = false
  memo : f.Remembers

structure SameView (f f' : Func) : Prop where
  blocks : f'.blocks = f.blocks
  preds : f'.preds = f.preds
  explicit? : ∀ b v, f'.explicit? b v = f.explicit? b v
  joined? : ∀ b v, f'.joined? b v = f.joined? b v
  locals : ∀ b v, f'.locals b v = f.locals b v

variable {f f' : Func} {v : VarId}

theorem SameView.decides (h : SameView f f') : f'.Decides v = f.Decides v := by
  funext b
  rw [Decides, Decides, h.explicit?]

theorem SameView.only (h : SameView f f') {b : NodeId} {a : Option NodeId} :
    f'.Only v b a ↔ f.Only v b a := by
  rw [Only, Only, h.preds, h.decides]

theorem SameView.shows (h : SameView f f') {b : NodeId} {r : Resolution} (hr : f.Shows v b r) :
    f'.Shows v b r := by
  cases r with
  | undefined => exact ⟨by rw [h.joined?]; exact hr.1, h.only.mpr hr.2⟩
  | timeline t =>
    obtain ⟨hj, c, hc, ho⟩ := hr
    exact ⟨by rw [h.joined?]; exact hj, c, by rw [h.explicit?]; exact hc, h.only.mpr ho⟩
  | top t =>
    rcases hr with hj | ⟨hj, c, hc, hl, ho⟩
    · exact Or.inl (by rw [h.joined?]; exact hj)
    · exact Or.inr ⟨by rw [h.joined?]; exact hj, c, by rw [h.joined?]; exact hc,
        by rw [h.locals]; exact hl, h.only.mpr ho⟩
  | join b => exact hr

theorem canon_irrel {s : Stack} {r c : Reach} (h : s.canon f r = .ok c) : s.canon f' r = .ok c := by
  rw [Stack.canon] at h ⊢
  cases hf : s.follow (2 * s.frames.length + 2) r with
  | none => rw [hf] at h; cases h
  | some c' => rw [hf] at h; exact h

def meaning (f : Func) (v : VarId) : Reach → Resolution
  | .timeline t => .timeline t
  | .join b => match f.joined? b v with
    | some t => .top t
    | none => .join b
  | _ => .undefined

theorem resolutionOf_eq {s : Stack} {r c : Reach} (h : s.canon f r = .ok c) :
    s.resolutionOf f r = .ok (f.meaning s.var c) := by
  rw [Stack.resolutionOf, h]
  cases c with
  | join b => simp only [bind, Except.bind, meaning]; cases f.joined? b s.var <;> rfl
  | _ => rfl

theorem SameView.meaning (h : SameView f f') (r : Reach) : f'.meaning v r = f.meaning v r := by
  cases r with
  | join b => simp only [Func.meaning, h.joined?]
  | _ => rfl

theorem SameView.resolution (h : SameView f f') {s : Stack} {r : Resolution}
    (hr : s.resolution f = .ok r) : s.resolution f' = .ok r := by
  rw [Stack.resolution] at hr ⊢
  cases hc : s.canon f s.root with
  | error e => rw [Stack.resolutionOf, hc] at hr; cases hr
  | ok c =>
    rw [resolutionOf_eq hc] at hr
    rw [resolutionOf_eq (canon_irrel hc), h.meaning, hr]

theorem SameView.remembers (h : SameView f f') (hm : f'.memo = f.memo) (hr : f.Remembers) :
    f'.Remembers := by
  intro b v s hs hb
  obtain ⟨r, hres, hshow⟩ := hr (hm ▸ hs) (h.blocks ▸ hb)
  exact ⟨r, h.resolution hres, h.shows hshow⟩

theorem remembers_of_nil (h : f.memo = []) : f.Remembers := by
  intro b v s hs
  rw [h] at hs
  cases hs

theorem SameGraph.forest (h : SameGraph f f') (hf : f.Forest) : f'.Forest where
  held := by rw [h.bodyHeld]; exact hf.held
  nodup := by rw [h.trees]; exact hf.nodup
  bounded := by rw [h.trees, h.size]; exact hf.bounded
  stored b hb := by rw [h.stored]; exact hf.stored b (h.trees ▸ hb)

theorem Forest.memo (h : f.Forest) (m : List (Question × Stack)) :
    ({ f with memo := m } : Func).Forest :=
  ⟨h.held, h.nodup, h.bounded, h.stored⟩

theorem SameGraph.enters (h : SameGraph f f') (hf : f.Enters) : f'.Enters := by
  intro b hb
  rw [h.preds]
  exact hf b (by rw [← hb, entry, entry, h.body])

end Func

/-- What the joins at the ends of a resolution have become. -/
theorem Solution.shows {f f' : Func} {v : VarId} {leaf : NodeId} {s : Stack} (G : f.Graph)
    (ht : f.Tables) (hl : leaf ∈ f.blocks) (h : Solution f v leaf s)
    (hb : Built v s s.surviving f f') {c : List IncomingId} :
    ∃ r, ({ s with created := c } : Stack).resolution f' = .ok r ∧ f'.Shows v leaf r := by
  have hcanon : ({ s with created := c } : Stack).canon f' s.root = .ok s.root := by
    have hroot := h.readable.canon f' s.root
    rw [h.rep_root G (Solution.placed ht) hl] at hroot
    rw [← hroot, Stack.canon, Stack.canon, @Stack.follow_congr s { s with created := c } rfl rfl]
  have joined : ∀ {j}, j ∈ s.surviving → ∃ t, f'.joined? j v = some t := by
    intro j hj
    have hne := h.joinNodes_ne_nil hb hj
    obtain ⟨t, hid⟩ := timelineId?_of_joinNodes hne
    exact ⟨t, by rw [hb.tables.joined?_eq, if_neg hne, hid]⟩
  have joined_other : ∀ {j}, j ∉ s.surviving → f'.joined? j v = f.joined? j v := by
    intro j hj
    have hsame := hb.extended.joinNodes_other (b := j) (w := v) fun hc => hj hc.2
    rw [hb.tables.joined?_eq, ht.joined?_eq, hsame]
    split
    · rfl
    · next hne =>
      obtain ⟨t, hid⟩ := timelineId?_of_joinNodes hne
      rw [hid, hb.extended.id hid]
  refine ⟨_, resolutionOf_eq hcanon, ?_⟩
  show f'.Shows v leaf (f'.meaning s.var s.root)
  rw [h.var_eq]
  rcases h.root_cases G (Solution.placed ht) hl with ⟨hroot, hj⟩ | ⟨hun, hns, hg, harr⟩
  · obtain ⟨t, hjt⟩ : ∃ t, f'.joined? leaf v = some t := by
      by_cases hs : leaf ∈ s.surviving
      · exact joined hs
      · rw [joined_other hs]
        exact Option.isSome_iff_exists.mp (hj.resolve_right hs)
    rw [hroot, meaning, hjt]
    exact Or.inl hjt
  · have honly : f'.Only v leaf (f.source s.root) := by
      intro a
      rw [hb.extended.keeps.preds, h.decides_eq hb ht]
      exact harr a
    have hun' : f'.joined? leaf v = none := by rw [joined_other hns, hun]
    cases hr : s.root with
    | undefined => exact ⟨hun', by rw [hr] at honly; exact honly⟩
    | timeline t =>
      rw [hr] at hg honly
      obtain ⟨b, _, he⟩ := hg
      refine ⟨hun', b, hb.extended.explicit?_of_some ht hb.tables he, ?_⟩
      rwa [source, ht.block_eq (timelineId?_of_explicit? he)] at honly
    | pending _ => rw [hr] at hg; exact hg.elim
    | join k =>
      rw [hr] at hg honly
      obtain ⟨t, hkt⟩ := joined hg.1
      rw [meaning, hkt]
      refine Or.inr ⟨hun', k, hkt, ?_, honly⟩
      have he := hg.2
      rw [ht.explicit?_eq] at he
      rw [hb.extended.locals]
      by_contra hne
      rw [if_neg fun hc => hne hc.1] at he
      exact hne (locals_of_none he)

/-! ## Resolving in an editable function -/

def Resolves (v : VarId) (leaf : NodeId) (f f' : Func) : Prop :=
  f' = f ∨ ∃ s f₁ m, Solution f v leaf s ∧ Built v s s.surviving f f₁ ∧ f' = { f₁ with memo := m }

namespace Func

variable {f f' : Func} {v : VarId} {b : NodeId}

theorem sameView_memo (f : Func) (m : List (Question × Stack)) :
    SameView f { f with memo := m } :=
  ⟨rfl, rfl, fun _ _ => rfl, fun _ _ => rfl, fun _ _ => rfl⟩

theorem tables_memo (h : f.Tables) (m : List (Question × Stack)) :
    ({ f with memo := m } : Func).Tables :=
  ⟨h.placed, h.listed, h.sorted, h.owner, h.node, h.nodes_nodup, h.target, h.referrer,
    h.referrers_nodup⟩

theorem remembers_cons (h : f.Remembers) {s : Stack}
    (hs : b ∈ f.blocks → ∃ r, s.resolution f = .ok r ∧ f.Shows v b r) :
    ({ f with memo := (⟨b, v, false⟩, s) :: f.memo } : Func).Remembers := by
  have hview := sameView_memo f ((⟨b, v, false⟩, s) :: f.memo)
  intro c w s' hs' hc
  have hget : ∃ r, s'.resolution f = .ok r ∧ f.Shows w c r := by
    rcases of_lookup_cons hs' with ⟨he, rfl⟩ | ⟨-, hs'⟩
    · obtain ⟨rfl, rfl, -⟩ := Question.mk.inj he
      exact hs hc
    · exact h hs' hc
  obtain ⟨r, hr, hsh⟩ := hget
  exact ⟨r, hview.resolution hr, hview.shows hsh⟩

theorem Searchable.resolvable (h : f.Searchable) (hb : b ∈ f.blocks) : f.resolvable b = .ok () := by
  rw [Func.resolvable, if_pos (h.forest.hasParent hb)]

theorem Searchable.graph (h : f.Searchable) : Nonempty f.Graph := ⟨h.forest.graph h.enters⟩

theorem stackAt_ok (h : f.Searchable) (hb : b ∈ f.blocks) (v : VarId) :
    ∃ s f', Edit.stackAt b v f = .ok s f' ∧ f'.Searchable ∧ Resolves v b f f' ∧
      ∃ r, s.resolution f' = .ok r ∧ f'.Shows v b r := by
  have hask := h.resolvable hb
  cases hm : f.memo.lookup ⟨b, v, false⟩ with
  | some s => exact ⟨s, f, Edit.stackAt_of_memo hask hm, h, Or.inl rfl, h.memo hm hb⟩
  | none =>
    obtain ⟨G⟩ := h.graph
    obtain ⟨s, hs, hsol⟩ := solve_ok (v := v) G hb
    obtain ⟨c, f₁, hrun, hbuilt⟩ := hsol.buildJoins_ok h.forest h.tables
    have hk := hbuilt.extended.keeps
    obtain ⟨r, hr, hsh⟩ := hsol.shows G h.tables hb hbuilt (c := c)
    have hrem : f₁.Remembers := by
      rcases hbuilt.forgets with rfl | hnil
      · exact h.memo
      · exact remembers_of_nil hnil
    let m := (⟨b, v, false⟩, ({ s with created := c } : Stack)) :: f₁.memo
    have hview := sameView_memo f₁ m
    refine ⟨_, { f₁ with memo := m }, Edit.stackAt_of_build hask h.unfrozen hm hs hrun, ?_,
      Or.inr ⟨s, f₁, m, hsol, hbuilt, rfl⟩, r, hview.resolution hr, hview.shows hsh⟩
    exact {
      forest := (hk.forest h.forest).memo m
      enters := (hk.enters h.enters)
      tables := tables_memo hbuilt.tables m
      unfrozen := hk.frozen.trans h.unfrozen
      memo := remembers_cons hrem fun _ => ⟨r, hr, hsh⟩ }

theorem resolveAt_ok (h : f.Searchable) (hb : b ∈ f.blocks) (v : VarId) :
    ∃ r f', Edit.resolveAt b v f = .ok r f' ∧ f'.Searchable ∧ Resolves v b f f' ∧
        f'.Shows v b r := by
  obtain ⟨s, f', hrun, hw, hres, r, hr, hsh⟩ := stackAt_ok h hb v
  refine ⟨r, f', ?_, hw, hres, hsh⟩
  rw [Edit.resolveAt, Edit.bind_eq hrun]
  exact Edit.ask_eq hr

end Func

end DefFlow.Flow
