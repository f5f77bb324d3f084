import DefFlow.Proofs.Reaching.Lazy
import DefFlow.Proofs.Resolution.Alike

/-!
# Questions in any order

Which joins exist after some questions depends only on which questions have been asked, and
a question that has been asked before builds nothing.
-/

set_option autoImplicit false

namespace DefFlow.Flow

open Func

structure Asked (f : Func) (Q : NodeId → VarId → Prop) (g : Func) : Prop where
  sound : g.Sound
  thrifty : g.Thrifty
  refines : Refines f g
  joined : ∀ {b v}, g.joinNodes b v ≠ [] ↔ f.joinNodes b v ≠ [] ∨
    (f.Needed v b ∧ ∃ c, Q c v ∧ Sees f.preds (f.Defining v) c b)

section

variable {f g g' : Func} {Q : NodeId → VarId → Prop} {b : NodeId} {v : VarId}

namespace Asked

theorem nothing (h : f.Sound) (ht : f.Thrifty) : Asked f (fun _ _ => False) f where
  sound := h
  thrifty := ht
  refines := .refl h.nodesFresh.searchable.tables
  joined := by simp

theorem congr {P : NodeId → VarId → Prop} (h : Asked f Q g) (hQ : ∀ c w, Q c w ↔ P c w) :
    Asked f P g where
  sound := h.sound
  thrifty := h.thrifty
  refines := h.refines
  joined := by
    intro b v
    simp only [h.joined, hQ]

theorem ask (h : Asked f Q g) (hf : f.Forest) (hb : b ∈ f.blocks) (v : VarId) :
    ∃ s g', Edit.stackAt b v g = .ok s g' ∧
      Asked f (fun c w => Q c w ∨ (c = b ∧ w = v)) g' ∧ Refines g g' ∧
      ∃ r, s.resolution g' = .ok r ∧ g'.Shows v b r := by
  have hb' : b ∈ g.blocks := h.refines.keeps.blocks ▸ hb
  obtain ⟨s, g', hrun, hw, hres, hshows⟩ := stackAt_ok h.sound.nodesFresh.searchable hb' v
  obtain ⟨hsound, hrefines⟩ := stackAt_sound h.sound hb' hrun
  refine ⟨s, g', hrun, ?_, hrefines, hshows⟩
  obtain ⟨r, -, hsh⟩ := hshows
  refine ⟨hsound, hres.thrifty h.sound.nodesFresh.searchable h.thrifty,
      h.refines.trans hf hrefines, ?_⟩
  intro c w
  rw [hres.joinNodes_iff h.sound.nodesFresh h.thrifty hw hb' (hw.tables.answered hsh), h.joined,
    h.refines.needed, h.refines.defining, h.refines.keeps.preds, or_assoc]
  refine or_congr_right ?_
  constructor
  · rintro (⟨hn, d, hd, hs⟩ | ⟨rfl, hn, hs⟩)
    · exact ⟨hn, d, Or.inl hd, hs⟩
    · exact ⟨hn, b, Or.inr ⟨rfl, rfl⟩, hs⟩
  · rintro ⟨hn, d, hd | ⟨rfl, rfl⟩, hs⟩
    · exact Or.inl ⟨hn, d, hd, hs⟩
    · exact Or.inr ⟨rfl, hn, hs⟩

theorem alike (h : Asked f Q g) (h' : Asked f Q g') : Alike g g' where
  keeps := h.refines.keeps.symm.trans h'.refines.keeps
  held b v := (h'.refines.held b v).trans (h.refines.held b v).symm
  waiting b v := (h'.refines.waiting b v).trans (h.refines.waiting b v).symm
  joined b v := by
    rw [← not_iff_not]
    exact h'.joined.trans h.joined.symm

theorem ask_again (h : Asked f Q g) (hb : b ∈ f.blocks) (hQ : Q b v) :
    ∃ s m, Edit.stackAt b v g = .ok s { g with memo := m } ∧
      ∃ r, s.resolution { g with memo := m } = .ok r := by
  have hb' : b ∈ g.blocks := h.refines.keeps.blocks ▸ hb
  obtain ⟨s, g', hrun, -, -, r, hr, -⟩ := stackAt_ok h.sound.nodesFresh.searchable hb' v
  obtain ⟨s', g₂, hrun', hcases⟩ := stackAt_cases h.sound.answerable hb' v
  rw [hrun] at hrun'
  cases hrun'
  rcases hcases with ⟨rfl, -⟩ | ⟨-, m, rfl⟩ | ⟨s₀, f₁, c, m, hsol, hbuilt, rfl, rfl, hsame⟩
  · exact ⟨s, g'.memo, hrun, r, hr⟩
  · exact ⟨s, m, hrun, r, hr⟩
  · have hnil : s₀.surviving = [] := by
      refine List.eq_nil_iff_forall_not_mem.mpr fun j hj => ?_
      obtain ⟨hun, hn, hs⟩ := (hsol.surviving_iff h.sound.nodesFresh h.thrifty hb').mp hj
      rw [h.refines.needed] at hn
      rw [h.refines.defining, h.refines.keeps.preds] at hs
      exact h.joined.mpr (Or.inr ⟨hn, b, hQ, hs⟩) hun
    obtain rfl := hsame hnil
    exact ⟨_, m, hrun, r, hr⟩

end Asked

/-! ## Many questions -/

def Edit.resolveEach (qs : List (ComponentRef × Variable)) : Edit (List Resolution) :=
  qs.mapM fun q => Edit.resolve q.1 q.2

def Asks (qs : List (ComponentRef × Variable)) (b : NodeId) (v : VarId) : Prop :=
  ∃ q ∈ qs, q.1.id = b ∧ q.2.id = v

theorem Asked.resolveEach (h : Asked f Q g) (hf : f.Forest)
    (qs : List (ComponentRef × Variable))
    (hqs : ∀ q ∈ qs, q.1.owner = f.handle ∧ q.2.owner = f.handle ∧ q.1.id ∈ f.blocks) :
    ∃ rs g', Edit.resolveEach qs g = .ok rs g' ∧
      Asked f (fun b v => Q b v ∨ Asks qs b v) g' := by
  induction qs generalizing Q g with
  | nil => exact ⟨[], g, rfl, h.congr fun c w => by simp [Asks]⟩
  | cons q qs ih =>
    obtain ⟨hq, hv, hb⟩ := hqs q List.mem_cons_self
    obtain ⟨s, g₁, hrun, hasked, -, r, hr, -⟩ := h.ask hf hb q.2.id
    obtain ⟨rs, g', hrest, hasked'⟩ := ih hasked fun p hp => hqs p (List.mem_cons_of_mem _ hp)
    refine ⟨r :: rs, g', ?_, hasked'.congr fun c w => ?_⟩
    · have hresolve : Edit.resolve q.1 q.2 g = .ok r g₁ := by
        have hown : (q.1.owner = g.handle && q.2.owner = g.handle) = true := by
          simp [hq, hv, h.refines.keeps.handle]
        rw [Edit.resolve, Edit.ownQuery, bind_assoc, Edit.bind_eq Edit.get_eq,
          Edit.bind_eq (Edit.require_eq hown _ _), Edit.resolveAt, Edit.bind_eq hrun]
        exact Edit.ask_eq hr
      rw [Edit.resolveEach, List.mapM_cons, Edit.bind_eq hresolve]
      exact Edit.bind_eq hrest
    · simp only [Asks, List.mem_cons, exists_eq_or_imp, or_assoc, @eq_comm _ c, @eq_comm _ w]

def Edit.askWaiting (b : NodeId) (e : VarId × TimelineId) (_ : PUnit) :
    Edit (ForInStep PUnit) := do
  if ((← get).timelineAt e.2).waiting.isEmpty then return .yield ⟨⟩
  let _ ← stackAt b e.1
  return .yield ⟨⟩

theorem resolveAll_eq : Edit.resolveAll = (do
    let before := (← get).incoming.size
    let blocks := (← get).blocks
    let _ ← forIn blocks PUnit.unit fun b _ => do
      let _ ← forIn ((← get).blockAt b).timelines PUnit.unit (Edit.askWaiting b)
      return .yield ⟨⟩
    return (← get).incoming.size - before) := rfl

/-- A record of the questions asked since `f`, which another question adds to. -/
structure Tracks (f : Func) (I : (NodeId → VarId → Prop) → Func → Prop) : Prop where
  refines : ∀ {Q g}, I Q g → Refines f g
  congr : ∀ {Q P g}, I Q g → (∀ c w, Q c w ↔ P c w) → I P g
  ask : ∀ {Q g b}, I Q g → b ∈ f.blocks → ∀ v, ∃ s g', Edit.stackAt b v g = .ok s g' ∧
    I (fun c w => Q c w ∨ (c = b ∧ w = v)) g' ∧ Refines g g'

namespace Tracks

variable {I : (NodeId → VarId → Prop) → Func → Prop}

theorem askWaiting (hI : Tracks f I) (h : I Q g) (hb : b ∈ f.blocks)
    {e : VarId × TimelineId} (he : g.timelineId? b e.1 = some e.2) :
    ∃ g', Edit.askWaiting b e ⟨⟩ g = .ok (.yield ⟨⟩) g' ∧ Refines g g' ∧
      I (fun c w => Q c w ∨ (c = b ∧ w = e.1 ∧ f.waiting c w ≠ [])) g' := by
  have ht := (hI.refines h).tables
  have hwait : (g.timelineAt e.2).waiting = f.waiting b e.1 := by
    rw [← (hI.refines h).waiting, ht.waiting_eq he]
  rw [Edit.askWaiting, Edit.bind_eq Edit.get_eq, hwait]
  by_cases hnil : f.waiting b e.1 = []
  · refine ⟨g, by simp only [hnil]; rfl, .refl ht, hI.congr h fun c w => ⟨Or.inl, ?_⟩⟩
    rintro (hq | ⟨rfl, rfl, hne⟩)
    · exact hq
    · exact absurd hnil hne
  · obtain ⟨s, g', hrun, hasked, hr⟩ := hI.ask h hb e.1
    refine ⟨g', ?_, hr, hI.congr hasked fun c w => or_congr_right ⟨?_, fun hc => ⟨hc.1, hc.2.1⟩⟩⟩
    · rw [if_neg (by simpa using hnil), Edit.bind_eq hrun]
      rfl
    · rintro ⟨rfl, rfl⟩
      exact ⟨rfl, rfl, hnil⟩

/-- The uses that wait in a block stand in timelines that the block lists. -/
theorem askAllWaiting (hI : Tracks f I) (h : I Q g) (hf : f.Forest) (hb : b ∈ f.blocks) :
    ∃ g', forIn (g.blockAt b).timelines PUnit.unit (Edit.askWaiting b) g = .ok ⟨⟩ g' ∧
      I (fun c w => Q c w ∨ (c = b ∧ f.waiting c w ≠ [])) g' := by
  have ht := (hI.refines h).tables
  have hloop := Edit.forIn_eq (f := g) (g := Edit.askWaiting b) (l := (g.blockAt b).timelines)
    (fun seen g' => Refines g g' ∧ I (fun c w => Q c w ∨
      (c = b ∧ f.waiting c w ≠ [] ∧ ∃ e ∈ seen, e.1 = w)) g')
    ?_ ⟨.refl ht, hI.congr h fun c w => ⟨Or.inl, ?_⟩⟩
  · obtain ⟨g', hrun, -, hP⟩ := hloop
    refine ⟨g', hrun, hI.congr hP fun c w => or_congr_right ⟨fun hc => ⟨hc.1, hc.2.1⟩, ?_⟩⟩
    rintro ⟨rfl, hne⟩
    refine ⟨rfl, hne, ?_⟩
    cases hid : g.timelineId? c w with
    | none =>
      rw [← (hI.refines h).waiting] at hne
      exact absurd (waiting_of_none hid) hne
    | some t => exact ⟨(w, t), mem_of_lookup hid, rfl⟩
  · rintro seen e rest g₁ hlist ⟨hr, hP⟩
    have hid : g.timelineId? b e.1 = some e.2 :=
      lookup_of_mem (ht.keys b) (hlist ▸ List.mem_append_right _ List.mem_cons_self)
    obtain ⟨g₂, hrun, hr₂, hP₂⟩ := hI.askWaiting hP hb (hr.id hid)
    have hg : g.Forest := (hI.refines h).keeps.forest hf
    refine ⟨g₂, hrun, hr.trans hg hr₂, hI.congr hP₂ fun c w => ?_⟩
    simp only [List.mem_append, List.mem_singleton, or_and_right, exists_or, exists_eq_left]
    constructor
    · rintro ((hq | ⟨rfl, hne, hin⟩) | ⟨rfl, rfl, hne⟩)
      · exact Or.inl hq
      · exact Or.inr ⟨rfl, hne, Or.inl hin⟩
      · exact Or.inr ⟨rfl, hne, Or.inr rfl⟩
    · rintro (hq | ⟨rfl, hne, hin | rfl⟩)
      · exact Or.inl (Or.inl hq)
      · exact Or.inl (Or.inr ⟨rfl, hne, hin⟩)
      · exact Or.inr ⟨rfl, rfl, hne⟩
  · rintro (hq | ⟨-, -, e, he, -⟩)
    · exact hq
    · cases he

/-- Resolving every waiting use asks the questions of these uses and no others. -/
theorem askEverywhere (hI : Tracks f I) (h : I Q g) (hf : f.Forest) :
    ∃ n g', Edit.resolveAll g = .ok n g' ∧
      I (fun c w => Q c w ∨ (c ∈ f.blocks ∧ f.waiting c w ≠ [])) g' := by
  have hloop := Edit.forIn_eq (f := g) (l := g.blocks)
    (g := fun b _ => do
      let _ ← forIn ((← get).blockAt b).timelines PUnit.unit (Edit.askWaiting b)
      return .yield ⟨⟩)
    (fun done g' => I (fun c w => Q c w ∨ (c ∈ done ∧ f.waiting c w ≠ [])) g')
    ?_ (hI.congr h fun c w => ⟨Or.inl, fun hc => hc.resolve_right fun hd => nomatch hd.1⟩)
  · obtain ⟨g', hrun, hP⟩ := hloop
    refine ⟨g'.incoming.size - g.incoming.size, g', ?_, (hI.refines h).keeps.blocks ▸ hP⟩
    rw [resolveAll_eq, Edit.bind_eq Edit.get_eq]
    dsimp only
    rw [Edit.bind_eq Edit.get_eq, Edit.bind_eq hrun]
    rfl
  · rintro done b rest g₁ hl hP
    have hb : b ∈ f.blocks :=
      (hI.refines h).keeps.blocks ▸ hl ▸ List.mem_append_right _ List.mem_cons_self
    obtain ⟨g₂, hrun, hP₂⟩ := hI.askAllWaiting hP hf hb
    refine ⟨g₂, ?_, hI.congr hP₂ fun c w => ?_⟩
    · rw [Edit.bind_eq Edit.get_eq, Edit.bind_eq hrun]
      rfl
    · rw [or_assoc, ← or_and_right, List.mem_append, List.mem_singleton]

end Tracks

theorem Asked.tracks (hf : f.Forest) : Tracks f (Asked f) where
  refines h := h.refines
  congr h := h.congr
  ask h hb v := by
    obtain ⟨s, g', hrun, hasked, hr, -⟩ := h.ask hf hb v
    exact ⟨s, g', hrun, hasked, hr⟩

theorem Asked.askEverywhere (h : Asked f Q g) (hf : f.Forest) :
    ∃ n g', Edit.resolveAll g = .ok n g' ∧
      Asked f (fun c w => Q c w ∨ (c ∈ f.blocks ∧ f.waiting c w ≠ [])) g' :=
  (Asked.tracks hf).askEverywhere h hf

/-- After every waiting use has been resolved its question has been asked. -/
theorem Asked.resolveAll (h : Asked f Q g) (hf : f.Forest) :
    ∃ n g' P, Edit.resolveAll g = .ok n g' ∧ Asked f P g' ∧
      ∀ b ∈ f.blocks, ∀ v, f.waiting b v ≠ [] → P b v := by
  obtain ⟨n, g', hrun, hP⟩ := h.askEverywhere hf
  exact ⟨n, g', _, hrun, hP, fun b hb v hv => Or.inr ⟨hb, hv⟩⟩

/-! ## The definitions that uses observe -/

namespace Func

/-- A use that no definition of its block answers waits there for what flows in. -/
def Listed (f : Func) : Prop :=
  ∀ {b v u}, f.UsedAt b v u → f.observed? u = none → u ∈ f.waiting b v

theorem UsedAt.useVariable {u : UseSite} (h : f.UsedAt b v u) : f.useVariable u = v := by
  rw [Func.useVariable, h.operand]

theorem observed?_eq_held (f : Func) (u : UseSite) :
    f.observed? u = (f.inst u.inst).block.bind fun b =>
      ((f.held b (f.useVariable u)).find? fun l => l.uses.contains u).map Local.inst := by
  rw [observed?]
  cases (f.inst u.inst).block with
  | none => rfl
  | some b =>
    rw [Option.bind_some, Option.bind_some, held]
    cases f.timeline? b (f.useVariable u) <;> rfl

theorem Keeps.observed? (h : Keeps f g) (hheld : ∀ b v, g.held b v = f.held b v) (u : UseSite) :
    g.observed? u = f.observed? u := by
  have hvar : g.useVariable u = f.useVariable u := by
    rw [useVariable, useVariable, h.inst]
  simp only [observed?_eq_held, h.inst, hvar, hheld]

end Func

theorem Asked.used (h : Asked f Q g) {u : UseSite} (hu : f.UsedAt b v u) : g.UsedAt b v u :=
  ⟨by rw [h.refines.keeps.inst]; exact hu.block, by rw [h.refines.keeps.inst]; exact hu.operand⟩

theorem resolveAt_of_stackAt {s : Stack} {r : Resolution} (hs : Edit.stackAt b v f = .ok s g)
    (hr : s.resolution g = .ok r) : Edit.resolveAt b v f = .ok r g := by
  rw [Edit.resolveAt, Edit.bind_eq hs]
  exact Edit.ask_eq hr

/-- What a use observes, by the definitions of its block or by a question. -/
theorem reachingDef_eq {u : UseSite} (hu : f.UsedAt b v u) {f' : Func} {r : Resolution}
    (hr : Edit.resolveAt b v f = .ok r f') (hn : f.observed? u = none) :
    Edit.reachingDef u f = .ok (Edit.reachingOf f' r) f' := by
  rw [Edit.reachingDef, Edit.bind_eq Edit.get_eq]
  simp only [hu.block, hn, hu.useVariable]
  rw [Edit.bind_eq hr, Edit.bind_eq Edit.get_eq]
  rfl

theorem reachingDef_of_observed {u : UseSite} (hu : f.UsedAt b v u) {i : InstId}
    (hi : f.observed? u = some i) : Edit.reachingDef u f = .ok (.defined i) f := by
  rw [Edit.reachingDef, Edit.bind_eq Edit.get_eq]
  simp only [hu.block, hi]
  rfl

/-- After the same questions a use observes the same definition or join. -/
theorem Asked.reachingDef (h : Asked f Q g) (h' : Asked f Q g') (hf : f.Forest)
    (hb : b ∈ f.blocks) {u : UseSite} (hu : f.UsedAt b v u) :
    ∃ r k r' k', Edit.reachingDef u g = .ok r k ∧ Edit.reachingDef u g' = .ok r' k' ∧
      k'.sightOf r' = k.sightOf r := by
  have hsame := (h.alike h').keeps.observed? (h.alike h').held u
  cases hi : g.observed? u with
  | some i =>
    exact ⟨_, g, _, g', reachingDef_of_observed (h.used hu) hi,
      reachingDef_of_observed (h'.used hu) (hsame.trans hi), rfl⟩
  | none =>
    obtain ⟨s, k, hrun, hk, -, r, hr, hsh⟩ := h.ask hf hb v
    obtain ⟨s', k', hrun', hk', -, r', hr', hsh'⟩ := h'.ask hf hb v
    refine ⟨_, k, _, k', reachingDef_eq (h.used hu) (resolveAt_of_stackAt hrun hr) hi,
      reachingDef_eq (h'.used hu) (resolveAt_of_stackAt hrun' hr') (hsame.trans hi), ?_⟩
    have hsight := (hk.alike hk').sight_of_shows hk.sound.nodesFresh.searchable.tables
      hk'.sound.nodesFresh.searchable.tables hsh hsh'
    cases r with
    | join _ => exact hsh.elim
    | _ => cases r' with
      | join _ => exact hsh'.elim
      | _ => exact hsight

/-- A use whose question has been asked is answered without making a node. -/
theorem Asked.reachingDef_again (h : Asked f Q g) (hb : b ∈ f.blocks) {u : UseSite}
    (hu : f.UsedAt b v u) (hQ : f.observed? u = none → Q b v) :
    ∃ r m, Edit.reachingDef u g = .ok r { g with memo := m } := by
  have hsame := h.refines.keeps.observed? h.refines.held u
  cases hi : g.observed? u with
  | some i => exact ⟨_, g.memo, reachingDef_of_observed (h.used hu) hi⟩
  | none =>
    obtain ⟨s, m, hrun, r, hr⟩ := h.ask_again hb (hQ (hsame ▸ hi))
    exact ⟨_, m, reachingDef_eq (h.used hu) (resolveAt_of_stackAt hrun hr) hi⟩

end

end DefFlow.Flow
