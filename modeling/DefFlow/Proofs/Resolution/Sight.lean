import DefFlow.Proofs.Resolution.Alike
import DefFlow.Proofs.Resolution.Finest
import DefFlow.Proofs.Resolution.Roots

/-!
# What a block sees

At its top a block sees nothing, a definition, or the join of some block. That is fixed by the
definitions and by the joins that are there; a resolution finds it, and building joins does not
change it. So every question about a block of the body is answered in any order, also where the
start of the function can be reached again.
-/

set_option autoImplicit false

namespace DefFlow.Flow

open Func Component

namespace Func

def view (f : Func) (v : VarId) (b : NodeId) : Sight :=
  if f.joinNodes b v ≠ [] then .join b
  else match f.preds b with
    | [] => .nothing
    | p :: ps =>
      if ∀ q ∈ ps, f.origin v q = f.origin v p then f.sightFrom v (f.origin v p) else .join b

def viewAt (f : Func) (v : VarId) (b : NodeId) (position : Nat) : Sight :=
  match f.latestDefBefore? b position v with
  | some i => .definition i
  | none => f.view v b

/-- A resolution names a timeline that decides its value: a join that is there, or what leaves a
block, unless the block of the question has a join of its own. -/
def Names (f : Func) (v : VarId) (b : NodeId) : Resolution → Prop
  | .undefined => True
  | .timeline t => f.joined? b v = none ∧ ∃ c, f.explicit? c v = some t
  | .top t => ∃ c, f.joined? c v = some t
  | .join _ => False

structure Tells (f : Func) (v : VarId) (b : NodeId) (r : Resolution) : Prop where
  sight : f.sightOf (Edit.reachingOf f r) = f.view v b
  names : f.Names v b r

/-- An answer to a question. Where no join is built, it may also name the join that its block would
see if it were there. -/
def Meets (f : Func) (q : Question) (r : Resolution) : Prop :=
  f.Tells q.var q.block r ∨ ((q.probe || f.frozen) = true ∧
    ∃ k, r = .join k ∧ f.view q.var q.block = .join k ∧ f.joined? k q.var = none)

def Retells (f : Func) : Prop :=
  ∀ {q s}, f.memo.lookup q = some s → q.block ∈ blocksAll f.trees → f.hasParent q.block = true →
    ∃ r, s.resolution f = .ok r ∧ f.Meets q r

structure Ready (f : Func) : Prop where
  forest : f.Forest
  tables : f.Tables
  unfrozen : f.frozen = false
  retells : f.Retells

section

variable {f g : Func} {v : VarId} {b c p q : NodeId} {a : Option NodeId}

theorem view_of_nodes (h : f.joinNodes b v ≠ []) : f.view v b = .join b := if_pos h

theorem view_of_differ (hp : p ∈ f.preds b) (hq : q ∈ f.preds b)
    (h : f.origin v p ≠ f.origin v q) : f.view v b = .join b := by
  rw [view]
  split
  · rfl
  · match hl : f.preds b with
    | [] =>
      rw [hl] at hp
      cases hp
    | x :: xs =>
      refine if_neg fun hall => h ?_
      have hx : ∀ {y}, y ∈ f.preds b → f.origin v y = f.origin v x := by
        intro y hy
        rw [hl] at hy
        rcases List.mem_cons.mp hy with rfl | hy
        · rfl
        · exact hall y hy
      rw [hx hp, hx hq]

theorem view_of_agree (hn : f.joinNodes b v = []) (hstart : f.preds b = [] → a = none)
    (h : ∀ p ∈ f.preds b, f.origin v p = a) : f.view v b = f.sightFrom v a := by
  rw [view, if_neg (not_not.mpr hn)]
  match hl : f.preds b with
  | [] => rw [hstart hl]; rfl
  | x :: xs =>
    have hx := h x (by simp [hl])
    have hall : ∀ q ∈ xs, f.origin v q = f.origin v x := fun q hq => by
      rw [hx, h q (by simp [hl, hq])]
    show (if _ then _ else _) = _
    rw [if_pos hall, hx]

theorem view_cases (f : Func) (v : VarId) (b : NodeId) :
    f.joinNodes b v ≠ [] ∨
    (∃ p ∈ f.preds b, ∃ q ∈ f.preds b, f.origin v p ≠ f.origin v q) ∨
    (f.joinNodes b v = [] ∧ ∃ a, (f.preds b = [] → a = none) ∧ ∀ p ∈ f.preds b,
        f.origin v p = a) := by
  by_cases hn : f.joinNodes b v = []
  · refine Or.inr ?_
    by_cases hd : ∃ p ∈ f.preds b, ∃ q ∈ f.preds b, f.origin v p ≠ f.origin v q
    · exact Or.inl hd
    · refine Or.inr ⟨hn, ?_⟩
      match hl : f.preds b with
      | [] => exact ⟨none, fun _ => rfl, fun _ hp => nomatch hp⟩
      | x :: xs =>
        refine ⟨f.origin v x, (fun h => by cases h), fun p hp => by_contra fun hne => hd ?_⟩
        exact ⟨p, hl ▸ hp, x, by simp [hl], hne⟩
  · exact Or.inl hn

/-- What a block sees is fixed by its own nodes and by what leaves its predecessors, whatever the
blocks are called that this comes from. -/
theorem view_congr {σ : Option NodeId → Option NodeId} (hσ : Function.Injective σ)
    (hnone : σ none = none) (hn : g.joinNodes b v = [] ↔ f.joinNodes b v = [])
    (hp : List.Forall₂ (fun p q => g.origin v q = σ (f.origin v p)) (f.preds b) (g.preds b))
    (hs : ∀ p ∈ f.preds b, g.sightFrom v (σ (f.origin v p)) = f.sightFrom v (f.origin v p)) :
    g.view v b = f.view v b := by
  rcases view_cases f v b with hne | ⟨p, hp₁, q, hq₁, hne⟩ | ⟨hnil, a, hstart, ha⟩
  · rw [view_of_nodes hne, view_of_nodes fun h => hne (hn.mp h)]
  · obtain ⟨p', hp', hop⟩ := forall₂_left hp hp₁
    obtain ⟨q', hq', hoq⟩ := forall₂_left hp hq₁
    rw [view_of_differ hp₁ hq₁ hne]
    refine view_of_differ hp' hq' fun he => hne (hσ ?_)
    rw [← hop, ← hoq, he]
  · have hg : g.view v b = g.sightFrom v (σ a) := by
      refine view_of_agree (hn.mpr hnil) (fun hl => ?_) fun q hq => ?_
      · rw [hl, List.forall₂_nil_right_iff] at hp
        rw [hstart hp, hnone]
      · obtain ⟨p, hpm, ho⟩ := forall₂_right hp hq
        rw [ho, ha p hpm]
    rw [hg, view_of_agree hnil hstart ha]
    match hl : f.preds b with
    | [] => rw [hstart hl, hnone]; rfl
    | x :: xs =>
      have hx : x ∈ f.preds b := by simp [hl]
      rw [← ha x hx]
      exact hs x hx

theorem view_ne_nothing (hf : f.Forest) (ht : f.Tables) {c : NodeId} (hb : b ∈ f.blocks)
    (h : Arrives f.preds (f.Defining v) b (some c)) : f.view v b ≠ .nothing := by
  have hdecides : ∀ {x}, f.Defining v x → f.Decides v x := fun hd => ht.decides_iff.mpr (.inl hd)
  -- Some predecessor passes on what arrives, and with it every block behind.
  obtain ⟨p, hp, ho⟩ : ∃ p ∈ f.preds b, f.origin v p ≠ none := by
    generalize ha : some c = a at h
    induction h with
    | start _ => cases ha
    | leaves hp hd =>
      refine ⟨_, hp, ?_⟩
      rw [origin_of_decides (hdecides hd)]
      exact Option.some_ne_none _
    | @passes x p a hp _ _ ih =>
      refine ⟨p, hp, fun hnone => ?_⟩
      by_cases hd : f.Decides v p
      · rw [origin_of_decides hd] at hnone
        cases hnone
      · obtain ⟨q, hq, ho⟩ := ih (hf.pred_mem hb hp) ha
        have M := (origin_finest hf.net (Solution.placed ht) (v := v)).marks
        refine ho ((M.pass_out ⟨hf.pred_mem hb hp, hd⟩ ?_ hq).trans hnone)
        rw [hnone]
        exact (Option.some_ne_none _).symm
  rcases view_cases f v b with hne | ⟨q, hq, q', hq', hne⟩ | ⟨hnil, a, hstart, hall⟩
  · rw [view_of_nodes hne]
    exact Sight.noConfusion
  · rw [view_of_differ hq hq' hne]
    exact Sight.noConfusion
  · rw [view_of_agree hnil hstart hall, ← hall p hp]
    cases hop : f.origin v p with
    | none => exact absurd hop ho
    | some y =>
      rw [sightFrom]
      split <;> exact Sight.noConfusion

/-- A block that passes a variable on sees what leaves it. -/
theorem view_of_passing (hf : f.Forest) (ht : f.Tables) (hb : b ∈ f.blocks)
    (hd : ¬ f.Decides v b) : f.view v b = f.sightFrom v (f.origin v b) := by
  have M := (origin_finest hf.net (Solution.placed ht) (v := v)).marks
  have hpass := And.intro hb hd
  rw [ht.decides_iff, not_or, Defining, not_not, not_not] at hd
  obtain ⟨hlocals, hnil⟩ := hd
  by_cases ho : f.origin v b = some b
  · obtain ⟨p, hp, q, hq, hne, -, -⟩ := M.differ hpass ho
    rw [view_of_differ hp hq hne, ho, sightFrom, lastDef, hlocals]
    rfl
  · exact view_of_agree hnil (M.start_out hpass) fun p hp => M.pass_out hpass ho hp

theorem sightFrom_congr (h : ∀ b, g.locals b v = f.locals b v) (a : Option NodeId) :
    g.sightFrom v a = f.sightFrom v a := by
  cases a with
  | none => rfl
  | some b => rw [sightFrom, sightFrom, lastDef, lastDef, h]

end

end Func

/-! ## Building joins -/

section

variable {f f' : Func} {v w : VarId} {leaf b j : NodeId} {s : Stack}

namespace Solution

/-- What leaves a predecessor of a block that a search has looked at. -/
theorem origin_eq_of_carried (G : f.Net) (ht : f.Tables)
    (hfine : Finest f v (s.Visited f v) (s.out f v)) {p : NodeId}
    (hp : f.Decides v p ∨ s.Visited f v p) : f.origin v p = s.out f v p := by
  rcases hp with hp | hp
  · rw [origin_of_decides hp, Stack.out_of_explicit hp]
  · exact origin_eq_out G (placed ht) hfine hp

theorem origins_differ (G : f.Net) (ht : f.Tables) (h : Solution f v leaf s)
    (hfine : Finest f v (s.Visited f v) (s.out f v)) (hj : j ∈ s.surviving) :
    ∃ p ∈ f.preds j, ∃ q ∈ f.preds j, f.origin v p ≠ f.origin v q := by
  obtain ⟨p, hp, q, hq, hne, -⟩ := h.differ G (placed ht) hj
  have hjoin := h.phi_of_surviving hj
  have hjb := (h.search.block hjoin).block
  have hcarried : ∀ {x}, x ∈ f.preds j → f.origin v x = s.out f v x := fun {x} hx => by
    obtain ⟨w, -, hc⟩ := forall₂_left (h.values_of_mem hjoin) hx
    exact origin_eq_of_carried G ht hfine (h.visited_of_carries (G.mem hjb hx) hc)
  exact ⟨p, hp, q, hq, by rw [hcarried hp, hcarried hq]; exact hne⟩

theorem origin_surviving (G : f.Net) (ht : f.Tables) (h : Solution f v leaf s)
    (hfine : Finest f v (s.Visited f v) (s.out f v)) (hj : j ∈ s.surviving) :
    f.origin v j = some j := by
  by_cases hd : f.Decides v j
  · exact origin_of_decides hd
  · rw [origin_eq_of_carried G ht hfine
      (Or.inr ((h.labelling G (placed ht)).join_visited ⟨hj, hd⟩))]
    exact h.out_surviving G (placed ht) hj hd

/-- Building the joins that a search has found changes no origin. -/
theorem origin_built (h : Solution f v leaf s) (hf : f.Forest) (ht : f.Tables)
    (hfine : Finest f v (s.Visited f v) (s.out f v)) (hb : Built v s s.surviving f f') (w : VarId)
    {x : NodeId} (hx : x ∈ f.blocks) : f'.origin w x = f.origin w x := by
  have hk := hb.extended.keeps
  have hdec : ∀ {y}, f'.Decides w y ↔ f.Decides w y ∨ (w = v ∧ y ∈ s.surviving) := by
    intro y
    by_cases hw : w = v
    · subst hw
      rw [h.decides_eq hb ht, Stack.Decided]
      simp
    · rw [Decides, Decides, hb.extended.explicit?_other ht hb.tables hw]
      simp [hw]
  refine origin_eq hf.net (hk.forest hf).net (placed ht) (placed hb.tables) hk.blocks
    hk.preds (fun hd => hdec.mpr (Or.inl hd)) (fun hd => ?_) hx
  refine (hdec.mp hd).imp_right ?_
  rintro ⟨rfl, hj⟩
  exact h.origin_surviving hf.net ht hfine hj

/-- Building the joins that a search has found leaves what every block sees. -/
theorem view_built (h : Solution f v leaf s) (hf : f.Forest) (ht : f.Tables)
    (hfine : Finest f v (s.Visited f v) (s.out f v)) (hb : Built v s s.surviving f f') (w : VarId)
    (hx : b ∈ f.blocks) : f'.view w b = f.view w b := by
  have hk := hb.extended.keeps
  by_cases hj : w = v ∧ b ∈ s.surviving
  · obtain ⟨rfl, hj⟩ := hj
    obtain ⟨p, hp, q, hq, hne⟩ := h.origins_differ hf.net ht hfine hj
    rw [view_of_differ hp hq hne, view_of_nodes (h.joinNodes_ne_nil hb hj)]
  · refine view_congr Function.injective_id rfl (by rw [hb.extended.joinNodes_other hj]) ?_
      fun p _ => sightFrom_congr (fun c => hb.extended.locals c w) _
    rw [hk.preds]
    exact List.forall₂_same.mpr fun p hp => h.origin_built hf ht hfine hb w (hf.pred_mem hx hp)

/-- What the block of a question sees is where its search has ended: nothing, what leaves a
timeline, or a join that has been built or that the search has found. -/
theorem view_root (h : Solution f v leaf s) (G : f.Net) (ht : f.Tables) (hl : leaf ∈ f.blocks)
    (hfine : Finest f v (s.Visited f v) (s.out f v)) :
    (s.root = .undefined ∧ f.view v leaf = .nothing) ∨
    (∃ k t, s.root = .timeline t ∧ f.explicit? k v = some t ∧ f.joined? leaf v = none ∧
      leaf ∉ s.surviving ∧ f.view v leaf = f.sightFrom v (some k)) ∨
    ∃ k, s.root = .join k ∧ (k ∈ s.surviving ∨ (k = leaf ∧ f.joinNodes leaf v ≠ [])) ∧
      f.view v leaf = .join k := by
  rcases h.root_out G (placed ht) hl with ⟨hroot, hj⟩ | ⟨hun, hns, hg, hstart, hout⟩
  · refine Or.inr (Or.inr ⟨leaf, hroot, ?_⟩)
    by_cases hs : leaf ∈ s.surviving
    · obtain ⟨p, hp, q, hq, hne⟩ := h.origins_differ G ht hfine hs
      exact ⟨Or.inl hs, view_of_differ hp hq hne⟩
    · have hne : f.joinNodes leaf v ≠ [] := by
        intro hnil
        have hjoined := hj.resolve_right hs
        rw [ht.joined?_eq_none.mpr hnil] at hjoined
        cases hjoined
      exact ⟨Or.inr ⟨rfl, hne⟩, view_of_nodes hne⟩
  · have hnil := ht.joined?_eq_none.mp hun
    have hagree : f.view v leaf = f.sightFrom v (f.source s.root) :=
      view_of_agree hnil (fun hp => by rw [hstart hp]; rfl) fun p hp => by
        rw [origin_eq_of_carried G ht hfine (hout p hp).1, (hout p hp).2]
    cases hr : s.root with
    | undefined =>
      rw [hr] at hagree
      exact Or.inl ⟨rfl, hagree⟩
    | pending _ =>
      rw [hr] at hg
      exact hg.elim
    | timeline t =>
      rw [hr] at hg hagree
      obtain ⟨k, -, he⟩ := hg
      rw [source, ht.block_eq (timelineId?_of_explicit? he)] at hagree
      exact Or.inr (Or.inl ⟨k, t, rfl, he, hun, hns, hagree⟩)
    | join k =>
      rw [hr] at hg hagree
      have hlocals : f.locals k v = [] := by
        have he := hg.2
        rw [ht.explicit?_eq] at he
        by_contra hne
        rw [if_neg fun hc => hne hc.1] at he
        exact hne (locals_of_none he)
      rw [source, sightFrom, Func.lastDef, hlocals] at hagree
      exact Or.inr (Or.inr ⟨k, rfl, Or.inl hg.1, hagree⟩)

end Solution

theorem Func.Tables.join_meant (ht : f.Tables) {k : NodeId} (hk : f.joinNodes k v ≠ []) :
    f.sightOf (Edit.reachingOf f (f.meaning v (.join k))) = .join k ∧
      f.Names v b (f.meaning v (.join k)) := by
  obtain ⟨t, hid⟩ := timelineId?_of_joinNodes hk
  have hjoined : f.joined? k v = some t := by rw [ht.joined?_eq, if_neg hk, hid]
  rw [meaning, hjoined]
  refine ⟨?_, k, hjoined⟩
  show Sight.join (f.timelineAt t).block = _
  rw [ht.block_eq hid]

theorem Func.Tables.sightOf_timeline (ht : f.Tables) {k : NodeId} {t : TimelineId}
    (hid : f.timelineId? k v = some t) :
    f.sightOf (Edit.reachingOf f (f.meaning v (.timeline t))) = f.sightFrom v (some k) :=
  ht.sightOf_leaving hid

namespace Solution

theorem canon_root (h : Solution f v leaf s) (G : f.Net) (ht : f.Tables) (hl : leaf ∈ f.blocks)
    (g : Func) (c : List IncomingId) :
        ({ s with created := c } : Stack).canon g s.root = .ok s.root := by
  have hroot := h.readable.canon g s.root
  rw [h.rep_root G (placed ht) hl] at hroot
  rw [← hroot, Stack.canon, Stack.canon, @Stack.follow_congr s { s with created := c } rfl rfl]

/-- The joins at the ends of a resolution show what its block sees. -/
theorem tells (h : Solution f v leaf s) (hf : f.Forest) (ht : f.Tables) (hl : leaf ∈ f.blocks)
    (hfine : Finest f v (s.Visited f v) (s.out f v)) (hb : Built v s s.surviving f f')
    {c : List IncomingId} :
    ∃ r, ({ s with created := c } : Stack).resolution f' = .ok r ∧ f'.Tells v leaf r := by
  refine ⟨_, resolutionOf_eq (h.canon_root hf.net ht hl f' c), ?_⟩
  show f'.Tells v leaf (f'.meaning s.var s.root)
  have hsame := h.view_built hf ht hfine hb v hl
  rw [h.var_eq]
  rcases h.view_root hf.net ht hl hfine with
    ⟨hr, hview⟩ | ⟨k, t, hr, he, hun, hns, hview⟩ | ⟨k, hr, hk, hview⟩
  · rw [hr]
    exact ⟨(hsame.trans hview).symm, trivial⟩
  · have he' := hb.extended.explicit?_of_some ht hb.tables he
    have hnil : f'.joined? leaf v = none := by
      rw [hb.tables.joined?_eq_none, hb.extended.joinNodes_other fun hc => hns hc.2]
      exact ht.joined?_eq_none.mp hun
    rw [hr]
    refine ⟨?_, hnil, k, he'⟩
    rw [hsame, hview, hb.tables.sightOf_timeline (timelineId?_of_explicit? he')]
    exact sightFrom_congr (fun c => hb.extended.locals c v) _
  · have hk' : f'.joinNodes k v ≠ [] := by
      by_cases hs : k ∈ s.surviving
      · exact h.joinNodes_ne_nil hb hs
      · obtain ⟨rfl, hne⟩ := hk.resolve_left hs
        rw [hb.extended.joinNodes_other fun hc => hs hc.2]
        exact hne
    obtain ⟨hsight, hnames⟩ := hb.tables.join_meant (b := leaf) hk'
    rw [hr]
    exact ⟨hsight.trans (hsame.trans hview).symm, hnames⟩

/-- A join that a search names is that of its own block or one that it has built. -/
theorem top_found (h : Solution f v leaf s) (hf : f.Forest) (ht : f.Tables) (hl : leaf ∈ f.blocks)
    (hfine : Finest f v (s.Visited f v) (s.out f v)) {g : Func} {c : List IncomingId}
    {t : TimelineId} (hr : ({ s with created := c } : Stack).resolution g = .ok (.top t)) :
    ∃ k, g.joined? k v = some t ∧ (k = leaf ∨ k ∈ s.surviving) := by
  rw [Stack.resolution, resolutionOf_eq (h.canon_root hf.net ht hl g c), Except.ok.injEq] at hr
  have hr : g.meaning s.var s.root = .top t := hr
  rw [h.var_eq] at hr
  rcases h.view_root hf.net ht hl hfine with ⟨he, -⟩ | ⟨_, _, he, -⟩ | ⟨k, he, hk, -⟩
  · rw [he] at hr
    cases hr
  · rw [he] at hr
    cases hr
  · rw [he, meaning] at hr
    refine ⟨k, ?_, hk.symm.imp_left And.left⟩
    split at hr
    · next hj => rw [hj, Resolution.top.inj hr]
    · cases hr

/-- A search that builds nothing shows what its block sees, or ends at a join that is not there. -/
theorem tells_or_unbuilt (h : Solution f v leaf s) (hf : f.Forest) (ht : f.Tables)
    (hl : leaf ∈ f.blocks) (hfine : Finest f v (s.Visited f v) (s.out f v)) :
    ∃ r, s.resolution f = .ok r ∧
      (f.Tells v leaf r ∨ ∃ k, r = .join k ∧ f.view v leaf = .join k ∧ f.joined? k v = none) := by
  refine ⟨_, resolutionOf_eq (h.canon_root hf.net ht hl f s.created), ?_⟩
  rw [h.var_eq]
  rcases h.view_root hf.net ht hl hfine with
    ⟨hr, hview⟩ | ⟨k, t, hr, he, hun, -, hview⟩ | ⟨k, hr, -, hview⟩
  · rw [hr]
    exact Or.inl ⟨hview.symm, trivial⟩
  · rw [hr]
    refine Or.inl ⟨?_, hun, k, he⟩
    rw [hview]
    exact ht.sightOf_timeline (timelineId?_of_explicit? he)
  · rw [hr, hview]
    by_cases hk : f.joinNodes k v = []
    · have hj := ht.joined?_eq_none.mpr hk
      exact Or.inr ⟨k, by rw [meaning, hj], rfl, hj⟩
    · obtain ⟨hsight, hnames⟩ := ht.join_meant (b := leaf) hk
      exact Or.inl ⟨hsight.trans hview.symm, hnames⟩

end Solution

/-! ## Asking -/

theorem retells_of_nil (h : f.memo = []) : f.Retells := by
  intro q s hs
  rw [h] at hs
  cases hs

theorem Forgets.retells (h : Forgets f f') (hr : f.Retells) : f'.Retells := by
  rcases h with rfl | h
  · exact hr
  · exact retells_of_nil h

/-! ## Functions that see the same -/

/-- Which tree is the body makes no difference to where values come from. -/
theorem origin_rooted {root : Component} {rest : List Component} (hn : (idsAll f.trees).Nodup)
    (hp : (root :: rest).Perm f.trees) : (f.rooted root rest).origin = f.origin := by
  funext v x
  rw [origin, origin, solve_congr (preds_rooted hn hp) (fun _ _ => rfl) (fun _ _ => rfl) rfl rfl]
  rfl

/-- Which tree is the body makes no difference to what the blocks see. -/
theorem view_rooted {root : Component} {rest : List Component} (hn : (idsAll f.trees).Nodup)
    (hp : (root :: rest).Perm f.trees) : (f.rooted root rest).view = f.view := by
  funext v x
  rw [view, view, origin_rooted hn hp, preds_rooted hn hp]
  rfl

theorem view_memo (f : Func) (m : List (Question × Stack)) :
    ({ f with memo := m } : Func).view = f.view := by
  have ho : ({ f with memo := m } : Func).origin = f.origin := by
    funext v x
    rw [origin, origin, solve_memo]
    rfl
  funext v x
  rw [view, view, ho]
  rfl

/-- Functions that a resolution cannot tell apart see the same. -/
theorem Func.SameView.view (h : SameView f f') (hf : f.Forest) (hf' : f'.Forest) (ht : f.Tables)
    (ht' : f'.Tables) (hb : b ∈ f.blocks) : f'.view v b = f.view v b := by
  refine view_congr Function.injective_id rfl ?_ ?_ fun p _ => sightFrom_congr
      (fun c => h.locals c v) _
  · rw [← ht'.joined?_eq_none, ← ht.joined?_eq_none, h.joined?]
  · rw [h.preds]
    refine List.forall₂_same.mpr fun p hp => origin_eq hf.net hf'.net (Solution.placed ht)
      (Solution.placed ht') h.blocks h.preds (fun hd => ?_) (fun hd => ?_) (hf.pred_mem hb hp)
    · rw [h.decides]
      exact hd
    · rw [h.decides] at hd
      exact Or.inl hd

theorem Func.SameView.view_anywhere (h : SameView f f') (hf : f.Forest) (hf' : f'.Forest)
    (ht : f.Tables) (ht' : f'.Tables) (htrees : f.trees ⊆ f'.trees) (hb : b ∈ blocksAll f.trees) :
    f'.view v b = f.view v b := by
  obtain ⟨root, hroot, hbr⟩ := mem_blocksAll.mp hb
  obtain ⟨rest, hp⟩ := exists_rest hroot
  obtain ⟨rest', hp'⟩ := exists_rest (htrees hroot)
  have hsame : SameView (f.rooted root rest) (f'.rooted root rest') :=
    ⟨rfl, by rw [preds_rooted hf.nodup hp, preds_rooted hf'.nodup hp', h.preds], h.explicit?,
      h.joined?, h.locals⟩
  have hview := hsame.view (forest_rooted hf hp) (forest_rooted hf' hp') (tables_rooted ht)
    (tables_rooted ht') (v := v) hbr
  rwa [view_rooted hf.nodup hp, view_rooted hf'.nodup hp'] at hview

theorem Func.SameView.names (h : SameView f f') {r : Resolution} (hr : f.Names v b r) :
    f'.Names v b r := by
  cases r with
  | undefined => exact trivial
  | timeline t =>
    obtain ⟨hn, c, hc⟩ := hr
    exact ⟨(h.joined? b v).trans hn, c, (h.explicit? c v).trans hc⟩
  | top t =>
    obtain ⟨c, hc⟩ := hr
    exact ⟨c, (h.joined? c v).trans hc⟩
  | join _ => exact hr

theorem Func.SameView.tells (h : SameView f f') (hview : f'.view v b = f.view v b) {r : Resolution}
    (hreach : f'.sightOf (Edit.reachingOf f' r) = f.sightOf (Edit.reachingOf f r))
    (hr : f.Tells v b r) : f'.Tells v b r :=
  ⟨hreach.trans (hr.sight.trans hview.symm), h.names hr.names⟩

theorem Func.SameView.meets (h : SameView f f') {q : Question}
    (hview : f'.view q.var q.block = f.view q.var q.block)
    (hfrozen : f.frozen = true → f'.frozen = true) {r : Resolution}
    (hreach : f'.sightOf (Edit.reachingOf f' r) = f.sightOf (Edit.reachingOf f r))
    (hr : f.Meets q r) : f'.Meets q r := by
  refine hr.imp (h.tells hview hreach) fun ⟨hq, k, hk, hsees, hj⟩ =>
    ⟨?_, k, hk, hview.trans hsees, (h.joined? k q.var).trans hj⟩
  rw [Bool.or_eq_true] at hq ⊢
  exact hq.imp_right hfrozen

theorem tells_memo (m : List (Question × Stack)) {r : Resolution} (hr : f.Tells v b r) :
    ({ f with memo := m } : Func).Tells v b r :=
  (sameView_memo f m).tells (by rw [view_memo]) rfl hr

theorem meets_memo (m : List (Question × Stack)) {q : Question} {r : Resolution}
    (hr : f.Meets q r) : ({ f with memo := m } : Func).Meets q r :=
  (sameView_memo f m).meets (by rw [view_memo]) id rfl hr

theorem retells_cons (h : f.Retells) {q : Question}
    (hs : q.block ∈ blocksAll f.trees → ∃ r, s.resolution f = .ok r ∧ f.Meets q r) :
    ({ f with memo := (q, s) :: f.memo } : Func).Retells := by
  intro q' s' hs' hc hp
  obtain ⟨r, hr, hmeets⟩ : ∃ r, s'.resolution f = .ok r ∧ f.Meets q' r := by
    rcases of_lookup_cons hs' with ⟨rfl, rfl⟩ | ⟨-, hs'⟩
    · exact hs hc
    · exact h hs' hc hp
  exact ⟨r, (sameView_memo f _).resolution hr, meets_memo _ hmeets⟩

/-- Where a question has joins built, what is remembered of it is right. -/
theorem tells_of_memo (h : f.Retells) (hf : f.Forest) (hu : f.frozen = false)
    (hm : f.memo.lookup ⟨b, v, false⟩ = some s) (hb : b ∈ f.blocks) :
    ∃ r, s.resolution f = .ok r ∧ f.Tells v b r := by
  obtain ⟨r, hr, htells | ⟨hq, -⟩⟩ := h hm (Forest.mem_trees hb) (hf.hasParent hb)
  · exact ⟨r, hr, htells⟩
  · rw [hu] at hq
    cases hq

def Func.Edged (f : Func) : Prop :=
  ∀ {b v}, b ∈ f.blocks → ∀ e ∈ f.feeds b v, e.1 ∈ f.preds b

def Func.Housed (f : Func) : Prop :=
  ∀ {b v}, f.joinNodes b v ≠ [] → b ∈ f.blocks

structure Answers (f f' : Func) : Prop where
  ready : f'.Ready
  keeps : Keeps f f'
  held : ∀ b v, f'.held b v = f.held b v
  view : ∀ {b} v, b ∈ f.blocks → f'.view v b = f.view v b
  edged : f.Edged → f'.Edged
  housed : f.Housed → f'.Housed

namespace Answers

variable {f'' : Func}

theorem refl (h : f.Ready) : Answers f f :=
  ⟨h, .refl f, fun _ _ => rfl, fun _ _ => rfl, fun h => h, fun h => h⟩

theorem trans (h : Answers f f') (h' : Answers f' f'') : Answers f f'' where
  ready := h'.ready
  keeps := h.keeps.trans h'.keeps
  held b v := (h'.held b v).trans (h.held b v)
  view v hb := (h'.view v (h.keeps.blocks.symm ▸ hb)).trans (h.view v hb)
  edged he := h'.edged (h.edged he)
  housed hh := h'.housed (h.housed hh)

end Answers

theorem Built.edged {js : List NodeId} (hb : Built v s js f f') (ht : f.Tables)
    (hjs : ∀ j ∈ js, (s.frame j).preds = f.preds j) (he : f.Edged) : f'.Edged := by
  intro c w hc e hm
  rw [hb.extended.keeps.blocks] at hc
  rw [hb.extended.keeps.preds]
  by_cases hj : w = v ∧ c ∈ js
  · obtain ⟨rfl, hj⟩ := hj
    rw [hb.feeds c hj, List.mem_map] at hm
    obtain ⟨x, hx, rfl⟩ := hm
    rw [← hjs c hj]
    exact (List.of_mem_zip hx).1
  · rw [hb.extended.feeds ht hj] at hm
    exact he hc e hm

theorem Built.housed {js : List NodeId} (hb : Built v s js f f') (hjs : ∀ j ∈ js, j ∈ f.blocks)
    (hh : f.Housed) : f'.Housed := by
  intro c w hn
  rw [hb.extended.keeps.blocks]
  by_cases hj : w = v ∧ c ∈ js
  · exact hjs c hj.2
  · rw [hb.extended.joinNodes_other hj] at hn
    exact hh hn

theorem Func.Forest.resolvable (h : f.Forest) (hb : b ∈ f.blocks) : f.resolvable b = .ok () := by
  rw [Func.resolvable, if_pos (h.hasParent hb)]

theorem Func.Ready.resolvable (h : f.Ready) (hb : b ∈ f.blocks) : f.resolvable b = .ok () :=
  h.forest.resolvable hb

/-- A question about a block of the body is answered by what the block sees. -/
theorem Func.Ready.stackAt (h : f.Ready) (hb : b ∈ f.blocks) (v : VarId) :
    ∃ s f', Edit.stackAt b v f = .ok s f' ∧ Answers f f' ∧
      ∃ r, s.resolution f' = .ok r ∧ f'.Tells v b r := by
  have hask := h.resolvable hb
  cases hm : f.memo.lookup ⟨b, v, false⟩ with
  | some s =>
    exact ⟨s, f, Edit.stackAt_of_memo hask hm, .refl h,
      tells_of_memo h.retells h.forest h.unfrozen hm hb⟩
  | none =>
    obtain ⟨s, hs, hsol, hfine⟩ := solve_finest h.forest.net (Solution.placed h.tables) (v := v) hb
    obtain ⟨c, f₁, hrun, hbuilt⟩ := hsol.buildJoins_ok h.forest h.tables
    obtain ⟨r, hr, htells⟩ := hsol.tells h.forest h.tables hb hfine hbuilt (c := c)
    have hk := hbuilt.extended.keeps
    have hf₁ := hk.forest h.forest
    have hb₁ : ∀ {x}, x ∈ f.blocks → x ∈ f₁.blocks := fun hx => hk.blocks.symm ▸ hx
    let m := (⟨b, v, false⟩, ({ s with created := c } : Stack)) :: f₁.memo
    refine ⟨_, { f₁ with memo := m }, Edit.stackAt_of_build hask h.unfrozen hm hs hrun, ?_, r,
      (sameView_memo f₁ m).resolution hr, tells_memo m htells⟩
    exact {
      ready := ⟨hf₁.memo m, tables_memo hbuilt.tables m, hk.frozen.trans h.unfrozen,
        retells_cons (hbuilt.forgets.retells h.retells) fun _ =>
          ⟨r, hr, Or.inl htells⟩⟩
      keeps := hk.trans ⟨⟨rfl, rfl, rfl, rfl, rfl, rfl, fun _ => rfl⟩, rfl, rfl, rfl, rfl, rfl,
        fun _ => rfl, fun _ => rfl, fun _ => rfl⟩
      held := hbuilt.extended.held
      view := fun w hx => by
        rw [view_memo]
        exact hsol.view_built h.forest h.tables hfine hbuilt w hx
      edged := fun he => hbuilt.edged h.tables (fun j hj => hsol.frame_preds hj) he
      housed := fun hh => hbuilt.housed (fun j hj =>
        (hsol.search.block (hsol.phi_of_surviving hj)).block) hh }

theorem Func.Ready.resolveAt (h : f.Ready) (hb : b ∈ f.blocks) (v : VarId) :
    ∃ r f', Edit.resolveAt b v f = .ok r f' ∧ Answers f f' ∧ f'.Tells v b r := by
  obtain ⟨s, f', hrun, ha, r, hr, htells⟩ := h.stackAt hb v
  refine ⟨r, f', ?_, ha, htells⟩
  rw [Edit.resolveAt, Edit.bind_eq hrun]
  exact Edit.ask_eq hr

theorem Func.Ready.valueLeaving (h : f.Ready) (hb : b ∈ f.blocks) (v : VarId) :
    ∃ T f', Edit.valueLeaving b v f = .ok T f' ∧ Answers f f' := by
  rw [Edit.valueLeaving, Edit.bind_eq Edit.get_eq]
  cases f.explicit? b v with
  | some t => exact ⟨some t, f, rfl, .refl h⟩
  | none =>
    obtain ⟨r, f', hrun, ha, -⟩ := h.resolveAt hb v
    refine ⟨r.timeline?, f', ?_, ha⟩
    dsimp only
    rw [Edit.bind_eq hrun]
    rfl

/-- A use of a block of the body sees the definition that holds it, or what its block sees. -/
theorem Func.Ready.reachingDef (h : f.Ready) {u : UseSite} (hu : (f.inst u.inst).block = some b)
    (hb : b ∈ f.blocks) :
    ∃ r f', Edit.reachingDef u f = .ok r f' ∧ Answers f f' ∧
      f'.sightOf r = match f.observed? u with
        | some i => .definition i
        | none => f.view (f.useVariable u) b := by
  rw [Edit.reachingDef, Edit.bind_eq Edit.get_eq, hu]
  cases f.observed? u with
  | some i => exact ⟨.defined i, f, rfl, .refl h, rfl⟩
  | none =>
    obtain ⟨r, f', hrun, ha, htells⟩ := h.resolveAt hb (f.useVariable u)
    refine ⟨Edit.reachingOf f' r, f', ?_, ha, ?_⟩
    · dsimp only
      rw [Edit.bind_eq hrun]
      rfl
    · rw [htells.sight, ha.view _ hb]

theorem ownQuery_eq {c : ComponentRef} {w : Variable} (hc : c.owner = f.handle)
    (hw : w.owner = f.handle) : Edit.ownQuery c w f = .ok () f := by
  rw [Edit.ownQuery, Edit.bind_eq Edit.get_eq]
  exact Edit.require_eq (by simp [hc, hw]) _ _

/-- A question about a position is answered by what the position sees. -/
theorem Func.Ready.reachingAt (h : f.Ready) {c : ComponentRef} {x : Variable}
    (hc : c.owner = f.handle) (hx : x.owner = f.handle) (hb : c.id ∈ f.blocks) (position : Nat) :
    ∃ r f', Edit.reachingAt c position x f = .ok r f' ∧ Answers f f' ∧
      f'.sightOf r = f.viewAt x.id c.id position := by
  rw [Edit.reachingAt, Edit.bind_eq Edit.get_eq, viewAt]
  cases f.latestDefBefore? c.id position x.id with
  | some i => exact ⟨.defined i, f, rfl, .refl h, rfl⟩
  | none =>
    obtain ⟨r, f', hrun, ha, htells⟩ := h.resolveAt hb x.id
    have hresolve : Edit.resolve c x f = .ok r f' := by
      rw [Edit.resolve, Edit.bind_eq (ownQuery_eq hc hx), hrun]
    refine ⟨Edit.reachingOf f' r, f', ?_, ha, ?_⟩
    · dsimp only
      rw [Edit.bind_eq hresolve]
      rfl
    · rw [htells.sight, ha.view _ hb]

theorem Answers.viewAt (h : Answers f f') (hb : b ∈ f.blocks) (position : Nat) :
    f'.viewAt v b position = f.viewAt v b position := by
  rw [Func.viewAt, Func.viewAt, h.keeps.latestDefBefore? h.held b position v, h.view v hb]

/-- Resolving every block that waits leaves what the blocks see. -/
theorem Func.Ready.resolveAll (h : f.Ready) {n : Nat} (hrun : Edit.resolveAll f = .ok n f') :
    Answers f f' := by
  refine Edit.resolveAll_ok (I := Answers f) (fun hb _ _ => hb)
      (fun {b v s g g'} hb hg hstack => ?_)
    (.refl h) hrun
  obtain ⟨_, _, hstack', ha, -⟩ := hg.ready.stackAt (hg.keeps.blocks.symm ▸ hb) v
  cases hstack.symm.trans hstack'
  exact hg.trans ha

end

end DefFlow.Flow
