import DefFlow.Proofs.Edits.Flatten
import DefFlow.Proofs.Edits.Stock
import DefFlow.Proofs.Runs.Requests

/-!
# Edits of the trees

Every edit of the trees that is granted leaves each component in one tree, and changes
nothing but the trees.
-/

set_option autoImplicit false

namespace DefFlow.Flow

open Func Component

structure Restocks (f f' : Func) : Prop extends Replants f f' where
  stocked : f'.Stocked []

def Func.HasSeq (f : Func) (s : NodeId) : Prop := ∃ es, (Component.seq s es).PartOf f.trees

def Func.HasFork (f : Func) (s : NodeId) : Prop :=
  ∃ cond cs, (Component.fork s cond cs).PartOf f.trees

section

variable {f f' f'' : Func} {hand : List Component} {c d taken : Component} {ref : ComponentRef}
  {p s q : NodeId} {u : Unit}

theorem Restocks.trans (h : Restocks f f') (h' : Restocks f' f'') : Restocks f f'' :=
  ⟨h.toReplants.trans h'.toReplants, h'.stocked⟩

/-! ## Sequences and forks -/

/-- A structure that is named by its kind is a part that can be changed. -/
theorem Func.part_of_kind {k : Kind} (h : f.hasKind s k = true) (hk : k ≠ .block) :
    ∃ d : Component, d.PartOf f.trees ∧ d.id = s ∧ d.kind = k := by
  rw [Func.hasKind] at h
  cases hd : f.find? s with
  | none =>
    rw [hd] at h
    cases h
  | some d =>
    rw [hd] at h
    have hkind : d.kind = k := of_decide_eq_true h
    obtain ⟨hpart, hid⟩ := partOf_of_find? hd (hkind ▸ hk)
    exact ⟨d, hpart, hid, hkind⟩

theorem Func.hasSeq_of_kind (h : f.hasKind s .seq = true) : f.HasSeq s := by
  obtain ⟨d, hpart, rfl, hk⟩ := part_of_kind h nofun
  cases d with
  | seq i es => exact ⟨es, hpart⟩
  | _ => cases hk

theorem Func.hasFork_of_kind (h : f.hasKind s .fork = true) : f.HasFork s := by
  obtain ⟨d, hpart, rfl, hk⟩ := part_of_kind h nofun
  cases d with
  | fork i cond cs => exact ⟨cond, cs, hpart⟩
  | _ => cases hk

theorem elementsOf_part {es : List Component} (h : f.Stocked hand)
    (hs : (Component.seq s es).PartOf f.trees) : Edit.elementsOf s f = .ok es f := by
  have hfind : f.find? s = some (.seq s es) := hs.find? h.trees_nodup
  rw [Edit.elementsOf, Edit.bind_eq Edit.get_eq, hfind]
  rfl

theorem casesOf_part {cond : NodeId} {cs : List Component} (h : f.Stocked hand)
    (hs : (Component.fork s cond cs).PartOf f.trees) : Edit.casesOf s f = .ok cs f := by
  have hfind : f.find? s = some (.fork s cond cs) := hs.find? h.trees_nodup
  rw [Edit.casesOf, Edit.bind_eq Edit.get_eq, hfind]
  rfl

theorem insertElement_restocks (h : f.Stocked []) (hs : f.HasSeq s) {i : Int}
    (hrun : Edit.insertElement s i ref f = .ok u f') : Restocks f f' ∧ f'.HasSeq s := by
  obtain ⟨es, hs⟩ := hs
  obtain ⟨_, hrun⟩ := Edit.unfrozen_bind_ok hrun
  rw [Edit.bind_eq (elementsOf_part h hs)] at hrun
  obtain ⟨hi, hrun⟩ := Edit.require_bind_ok hrun
  obtain ⟨taken, f₁, htake, hrun⟩ := Edit.bind_ok hrun
  have h₁ := adopt_adopts h htake
  have hs₁ := h₁.partOf hs h₁.apart
  rw [Edit.bind_eq (elementsOf_part h₁.stocked hs₁)] at hrun
  have hle : i.toNat ≤ es.length := by
    simp only [Bool.and_eq_true, decide_eq_true_eq] at hi
    omega
  obtain ⟨h₂, hr₂, hp₂⟩ := changeAt_stocked [] h₁.stocked hs₁ (same_insert hle) hrun
  exact ⟨⟨h₁.toReplants.trans hr₂, h₂⟩, _, hp₂⟩

theorem appendElement_restocks (h : f.Stocked []) (hs : f.HasSeq s)
    (hrun : Edit.appendElement s ref f = .ok u f') : Restocks f f' ∧ f'.HasSeq s := by
  obtain ⟨es, hpart⟩ := hs
  rw [Edit.appendElement, Edit.bind_eq (elementsOf_part h hpart)] at hrun
  exact insertElement_restocks h ⟨es, hpart⟩ hrun

theorem removeElement_restocks (h : f.Stocked []) (hs : f.HasSeq s) {i : Int}
    (hrun : Edit.removeElement s i f = .ok q f') : Restocks f f' ∧ f'.HasSeq s := by
  obtain ⟨es, hs⟩ := hs
  obtain ⟨_, hrun⟩ := Edit.unfrozen_bind_ok hrun
  rw [Edit.bind_eq (elementsOf_part h hs)] at hrun
  obtain ⟨hi, hrun⟩ := Edit.require_bind_ok hrun
  simp only [Bool.and_eq_true, decide_eq_true_eq] at hi
  have hlt : i.toNat < es.length := by omega
  rw [List.getElem?_eq_getElem hlt, Option.getD_some] at hrun
  obtain ⟨_, f₁, hchange, hrun⟩ := Edit.bind_ok hrun
  obtain ⟨h₁, hr₁, hp₁⟩ := changeAt_stocked [es[i.toNat]] h hs
    (same_erase (List.getElem?_eq_getElem hlt)) hchange
  obtain ⟨_, f₂, horphan, hrun⟩ := Edit.bind_ok hrun
  cases hrun
  obtain ⟨h₂, hr₂, ht₂⟩ := orphan_stocked h₁ horphan
  exact ⟨⟨hr₁.trans hr₂, h₂⟩, _, ht₂ ▸ hp₁.append_right _⟩

theorem replaceElement_restocks (h : f.Stocked []) (hs : f.HasSeq s) {i : Int}
    (hrun : Edit.replaceElement s i ref f = .ok q f') : Restocks f f' := by
  obtain ⟨_, f₁, hremove, hrun⟩ := Edit.bind_ok hrun
  obtain ⟨h₁, hs₁⟩ := removeElement_restocks h hs hremove
  obtain ⟨_, f₂, hinsert, hrun⟩ := Edit.bind_ok hrun
  cases hrun
  exact h₁.trans (insertElement_restocks h₁.stocked hs₁ hinsert).1

theorem addCase_restocks (h : f.Stocked []) (hs : f.HasFork s)
    (hrun : Edit.addCase s ref f = .ok u f') : Restocks f f' ∧ f'.HasFork s := by
  obtain ⟨cond, cs, hs⟩ := hs
  obtain ⟨_, hrun⟩ := Edit.unfrozen_bind_ok hrun
  obtain ⟨taken, f₁, htake, hrun⟩ := Edit.bind_ok hrun
  have h₁ := adopt_adopts h htake
  have hs₁ := h₁.partOf hs h₁.apart
  rw [Edit.bind_eq (casesOf_part h₁.stocked hs₁)] at hrun
  have hsame : Same [.fork s cond (cs ++ [taken])] [.fork s cond cs, taken] := by
    rw [← List.insertIdx_length_self]
    refine same_fork.trans (((same_insert (Nat.le_refl _)).append (.refl _)).trans ?_)
    exact (Same.cons _ (.of_perm (.swap _ _ _))).trans (same_fork.symm.append (.refl [taken]))
  obtain ⟨h₂, hr₂, hp₂⟩ := changeAt_stocked [] h₁.stocked hs₁ hsame hrun
  exact ⟨⟨h₁.toReplants.trans hr₂, h₂⟩, _, _, hp₂⟩

theorem removeCase_restocks (h : f.Stocked []) (hs : f.HasFork s) {i : Int}
    (hrun : Edit.removeCase s i f = .ok q f') : Restocks f f' := by
  obtain ⟨cond, cs, hs⟩ := hs
  obtain ⟨_, hrun⟩ := Edit.unfrozen_bind_ok hrun
  rw [Edit.bind_eq (casesOf_part h hs)] at hrun
  obtain ⟨hi, hrun⟩ := Edit.require_bind_ok hrun
  simp only [Bool.and_eq_true, decide_eq_true_eq] at hi
  have hlt : i.toNat < cs.length := by omega
  rw [List.getElem?_eq_getElem hlt, Option.getD_some] at hrun
  obtain ⟨_, f₁, hchange, hrun⟩ := Edit.bind_ok hrun
  have hsame : Same [.fork s cond (cs.eraseIdx i.toNat), cs[i.toNat]] [.fork s cond cs] := by
    refine (same_fork.append (.refl [cs[i.toNat]])).trans ?_
    refine (Same.cons _ (.of_perm (.swap _ _ _))).trans ?_
    exact ((same_erase (List.getElem?_eq_getElem hlt)).append (.refl [.block cond])).trans
      same_fork.symm
  obtain ⟨h₁, hr₁, _⟩ := changeAt_stocked [cs[i.toNat]] h hs hsame hchange
  obtain ⟨_, f₂, horphan, hrun⟩ := Edit.bind_ok hrun
  cases hrun
  obtain ⟨h₂, hr₂, _⟩ := orphan_stocked h₁ horphan
  exact ⟨hr₁.trans hr₂, h₂⟩

/-! ## New structures -/

/-- A loop of edits that each keep the stock and something else. -/
theorem forM_restocks {α : Type} {g : α → Edit Unit} {as : List α} (P : Func → Prop)
    (step : ∀ {a f u f'}, f.Stocked [] → P f → g a f = .ok u f' → Restocks f f' ∧ P f')
    {u : Unit} (h : f.Stocked []) (hP : P f) (hrun : as.forM g f = .ok u f') :
    Restocks f f' ∧ P f' := by
  refine Edit.forM_ok (fun _ k => Restocks f k ∧ P k) (fun _ hk ha => ?_) ⟨⟨.refl f, h⟩, hP⟩ hrun
  obtain ⟨h₁, hP₁⟩ := step hk.1.stocked hk.2 ha
  exact ⟨hk.1.trans h₁, hP₁⟩

theorem replants_aside (f : Func) (c : Component) :
    Replants f { f with detached := f.detached ++ [c] } :=
  .of_nodes rfl rfl rfl rfl rfl rfl (fun hh => hh) (.inl rfl)

theorem newSequence_restocks (h : f.Stocked []) {refs : List ComponentRef}
    (hrun : Edit.newSequence refs f = .ok q f') : Restocks f f' := by
  obtain ⟨_, hrun⟩ := Edit.unfrozen_bind_ok hrun
  obtain ⟨_, f₁, helems, hrun⟩ := Edit.bind_ok
    (show (refs.forM (Edit.appendElement f.nodes.next) >>= _) { f with
      nodes := f.nodes.skip, detached := f.detached ++ [.seq f.nodes.next []] } = _ from hrun)
  cases hrun
  have h₁ : ({ f with
      nodes := f.nodes.skip
      detached := f.detached ++ [.seq f.nodes.next []] } : Func).Stocked [] :=
    aside_stocked [.seq f.nodes.next []] (register_stocked h) (.refl _) rfl rfl rfl
  have hr₁ := (replants_register f).trans
    (replants_aside { f with nodes := f.nodes.skip } (.seq f.nodes.next []))
  have hseq : ({ f with nodes := f.nodes.skip, detached := f.detached ++ [.seq f.nodes.next []] } :
      Func).HasSeq f.nodes.next := ⟨[], _, List.mem_append_right [f.body] (List.mem_append_right _
        List.mem_cons_self), .here⟩
  have h₂ := (forM_restocks (fun g => g.HasSeq f.nodes.next)
    (fun hg hs ha => appendElement_restocks hg hs ha) h₁ hseq helems).1
  exact ⟨hr₁.trans h₂.toReplants, h₂.stocked⟩

theorem Adopts.eq_block (h : Adopts p ref hand taken f f') (hf : f.Stocked hand)
    (hb : (f.nodes.get? ref.id).isSome) : taken = .block ref.id := by
  obtain ⟨l, r, hlr, _⟩ := h.detached
  rw [← h.id] at hb ⊢
  exact hf.eq_block (by rw [Func.trees, hlr]; simp) hb

/-- A fork is made of a block and of what becomes its cases. -/
theorem fork_restocks (h : f.Stocked []) (hb : (f.nodes.get? ref.id).isSome)
    {refs : List ComponentRef}
    (hrun : (do
      let id ← Edit.register
      let block ← Edit.adopt id ref
      modify fun f => { f with detached := f.detached ++ [.fork id block.id []] }
      refs.forM (Edit.addCase id)
      return id : Edit NodeId) f = .ok q f') : Restocks f f' := by
  obtain ⟨taken, f₁, htake, hrun⟩ := Edit.bind_ok
    (show (Edit.adopt f.nodes.next ref >>= _) { f with nodes := f.nodes.skip } = _ from hrun)
  have hreg := register_stocked h
  have h₁ := adopt_adopts hreg htake
  obtain rfl := h₁.eq_block hreg (by rw [Arena.get?_skip]; exact hb)
  obtain ⟨_, f₂, hmod, hrun⟩ := Edit.bind_ok hrun
  cases hmod
  obtain ⟨_, f₃, hcases, hrun⟩ := Edit.bind_ok hrun
  cases hrun
  have h₂ : ({ f₁ with detached := f₁.detached ++ [.fork f.nodes.next ref.id []] } : Func).Stocked
      [] := by
    refine aside_stocked [.block ref.id, .seq f.nodes.next []] h₁.stocked ?_ rfl rfl rfl
    exact same_fork.trans (.of_perm (.swap _ _ _))
  have hfork : ({ f₁ with detached := f₁.detached ++ [.fork f.nodes.next ref.id []] } :
      Func).HasFork f.nodes.next := ⟨_, _, _, List.mem_append_right [f₁.body]
        (List.mem_append_right _ List.mem_cons_self), .here⟩
  have h₃ := (forM_restocks (fun g => g.HasFork f.nodes.next)
    (fun hg hs ha => addCase_restocks hg hs ha) h₂ hfork hcases).1
  exact ⟨(replants_register f).trans (h₁.toReplants.trans
    ((replants_aside f₁ _).trans h₃.toReplants)), h₃.stocked⟩

theorem newFork_restocks (h : f.Stocked []) {cond : Option ComponentRef}
    {refs : List ComponentRef} (hc : ∀ c ∈ cond, (f.nodes.get? c.id).isSome)
    (hrun : Edit.newFork cond refs f = .ok q f') : Restocks f f' := by
  obtain ⟨_, hrun⟩ := Edit.unfrozen_bind_ok hrun
  cases cond with
  | some c => exact fork_restocks h (hc c rfl) hrun
  | none =>
    obtain ⟨b, f₁, hnew, hrun⟩ := Edit.bind_ok hrun
    have hb := newBlock_stocked h hnew
    rw [Edit.bind_eq (refTo_eq _ _)] at hrun
    have h₁ : Restocks f f₁ := ⟨hb.toReplants, hb.stocked⟩
    exact h₁.trans (fork_restocks h₁.stocked hb.stored hrun)

theorem orNewSequence_restocks (h : f.Stocked []) {given : Option ComponentRef}
    (hrun : Edit.orNewSequence given f = .ok ref f') : Restocks f f' := by
  cases given with
  | some c =>
    cases hrun
    exact ⟨.refl f, h⟩
  | none =>
    obtain ⟨_, f₁, hnew, hrun⟩ := Edit.bind_ok hrun
    cases hrun
    exact newSequence_restocks h hnew

theorem orNewBlock_restocks (h : f.Stocked []) {label : String} {given : Option ComponentRef}
    (hc : ∀ c ∈ given, (f.nodes.get? c.id).isSome)
    (hrun : Edit.orNewBlock label given f = .ok ref f') :
    Restocks f f' ∧ (f'.nodes.get? ref.id).isSome := by
  cases given with
  | some c =>
    cases hrun
    exact ⟨⟨.refl f, h⟩, hc _ rfl⟩
  | none =>
    obtain ⟨_, f₁, hnew, hrun⟩ := Edit.bind_ok hrun
    cases hrun
    have hb := newBlock_stocked h hnew
    exact ⟨⟨hb.toReplants, hb.stocked⟩, hb.stored⟩

theorem newLoop_restocks (h : f.Stocked []) {start cond body update after : Option ComponentRef}
    (hcond : ∀ c ∈ cond, (f.nodes.get? c.id).isSome)
    (hafter : ∀ c ∈ after, (f.nodes.get? c.id).isSome)
    (hrun : Edit.newLoop start cond body update after f = .ok q f') : Restocks f f' := by
  obtain ⟨_, hrun⟩ := Edit.unfrozen_bind_ok hrun
  obtain ⟨rs, f₁, hrs, hrun⟩ := Edit.bind_ok hrun
  have h₁ := orNewSequence_restocks h hrs
  obtain ⟨rc, f₂, hrc, hrun⟩ := Edit.bind_ok hrun
  obtain ⟨h₂, hb₂⟩ := orNewBlock_restocks h₁.stocked (fun c hc => h₁.blocks _ (hcond c hc)) hrc
  obtain ⟨rb, f₃, hrb, hrun⟩ := Edit.bind_ok hrun
  have h₃ := orNewSequence_restocks h₂.stocked hrb
  obtain ⟨ru, f₄, hru, hrun⟩ := Edit.bind_ok hrun
  have h₄ := orNewSequence_restocks h₃.stocked hru
  have h₁₄ := ((h₁.trans h₂).trans h₃).trans h₄
  obtain ⟨ra, f₅, hra, hrun⟩ := Edit.bind_ok hrun
  obtain ⟨h₅, hb₅⟩ := orNewBlock_restocks h₄.stocked (fun c hc => h₁₄.blocks _ (hafter c hc)) hra
  have hb₂' : (f₅.nodes.get? rc.id).isSome :=
    h₅.blocks _ (h₄.blocks _ (h₃.blocks _ hb₂))
  -- The five parts are taken in their order; none of the steps changes which blocks there are.
  obtain ⟨start, g₁, t₁, hrun⟩ := Edit.bind_ok
    (show (Edit.adopt f₅.nodes.next rs >>= _) { f₅ with nodes := f₅.nodes.skip } = _ from hrun)
  have a₁ := adopt_adopts (register_stocked h₅.stocked) t₁
  obtain ⟨cond, g₂, t₂, hrun⟩ := Edit.bind_ok hrun
  have a₂ := adopt_adopts a₁.stocked t₂
  obtain rfl := a₂.eq_block a₁.stocked (by rw [a₁.nodes, Arena.get?_skip]; exact hb₂')
  obtain ⟨body, g₃, t₃, hrun⟩ := Edit.bind_ok hrun
  have a₃ := adopt_adopts a₂.stocked t₃
  obtain ⟨update, g₄, t₄, hrun⟩ := Edit.bind_ok hrun
  have a₄ := adopt_adopts a₃.stocked t₄
  obtain ⟨after, g₅, t₅, hrun⟩ := Edit.bind_ok hrun
  have a₅ := adopt_adopts a₄.stocked t₅
  obtain rfl := a₅.eq_block a₄.stocked (by
    rw [a₄.nodes, a₃.nodes, a₂.nodes, a₁.nodes, Arena.get?_skip]
    exact hb₅)
  cases hrun
  have hr := a₁.toReplants.trans (a₂.toReplants.trans (a₃.toReplants.trans (a₄.toReplants.trans
    a₅.toReplants)))
  refine ⟨(h₁₄.trans h₅).toReplants.trans ((replants_register f₅).trans
    (hr.trans (replants_aside g₅ _))), ?_⟩
  refine aside_stocked [.block ra.id, update, body, .block rc.id, start,
    .seq f₅.nodes.next []] a₅.stocked ?_ rfl rfl rfl
  refine (same_children (.loop f₅.nodes.next start rc.id body update ra.id) nofun).trans
    (.of_perm ?_)
  exact List.reverse_perm [.block ra.id, update, body, .block rc.id, start,
    .seq f₅.nodes.next []]

/-! ## The place of a component -/

/-- A component that has a parent plays its role there, or is the body. -/
theorem Func.plays_of_parent? {i : NodeId} {role : Role} (h : f.parent? i = some (p, role)) :
    (∃ c : Component, c.PartOf f.trees ∧ c.id = p ∧ c.Plays i role) ∨
      (p = rootId ∧ role = .functionBody ∧ f.isBody i = true) := by
  rw [Func.parent?] at h
  cases hpath : f.path i with
  | nil =>
    rw [hpath] at h
    dsimp only at h
    split at h
    · next hbody =>
      cases h
      exact Or.inr ⟨rfl, rfl, hbody⟩
    · cases h
  | cons e rest =>
    rw [hpath] at h
    cases h
    rw [Func.path] at hpath
    cases hfind : f.trees.findSome? fun c => c.pathIn i with
    | none =>
      rw [hfind] at hpath
      cases hpath
    | some l =>
      rw [hfind, Option.getD_some] at hpath
      subst hpath
      obtain ⟨c, hc, hl⟩ := List.exists_of_findSome?_eq_some hfind
      obtain ⟨d, hd, hid, hplays⟩ := plays_of_pathIn c hl
      exact Or.inl ⟨d, ⟨c, hc, hd⟩, hid, hplays⟩

theorem Func.hasSeq_of_element {i : NodeId} {n : Nat}
    (h : f.parent? i = some (s, .element n)) : f.HasSeq s := by
  rcases plays_of_parent? h with ⟨c, hc, rfl, hplays⟩ | ⟨_, hrole, _⟩
  · cases c with
    | seq q es => exact ⟨es, hc⟩
    | _ => cases hplays
  · cases hrole

theorem Func.body_partOf (f : Func) : f.body.PartOf f.trees :=
  ⟨f.body, List.mem_cons_self, .here⟩

theorem partOf_of_mem_detached {x : Component} (h : x ∈ f.detached) : x.PartOf f.trees :=
  ⟨x, List.mem_cons_of_mem _ h, .here⟩

/-- Unless it is named by its parent, a component can be replaced in its place. -/
theorem Func.part_of_parent? {i : NodeId} {role : Role} (h : f.parent? i = some (p, role))
    (hcond : role ≠ .condition) (hloop : role ≠ .loopCondition) (hafter : role ≠ .after) :
    ∃ d : Component, d.PartOf f.trees ∧ d.id = i := by
  rcases plays_of_parent? h with ⟨c, hc, _, hplays⟩ | ⟨_, _, hbody⟩
  · cases c with
    | block _ => cases role <;> cases hplays
    | seq q es =>
      cases role with
      | element n =>
        obtain ⟨d, hd, hid⟩ := hplays
        exact ⟨d, hc.trans (.of_mem_seq (List.mem_of_getElem? hd) .here), hid⟩
      | _ => cases hplays
    | fork q cond cs =>
      cases role with
      | condition => exact absurd rfl hcond
      | case n =>
        obtain ⟨d, hd, hid⟩ := hplays
        exact ⟨d, hc.trans (.of_mem_fork (List.mem_of_getElem? hd) .here), hid⟩
      | _ => cases hplays
    | loop q start cond body update after =>
      cases role with
      | start => exact ⟨start, hc.trans (.start .here), hplays⟩
      | loopCondition => exact absurd rfl hloop
      | body => exact ⟨body, hc.trans (.body .here), hplays⟩
      | update => exact ⟨update, hc.trans (.update .here), hplays⟩
      | after => exact absurd rfl hafter
      | _ => cases hplays
  · rw [Func.isBody, Bool.and_eq_true, decide_eq_true_eq] at hbody
    exact ⟨f.body, f.body_partOf, hbody.1⟩

/-! ## Replacing a component -/

variable {x : Component}

theorem Adopts.eq_of_mem (h : Adopts p ref hand taken f f') (hf : f.Stocked hand)
    (hx : x ∈ f.detached) (href : ref.id = x.id) : taken = x := by
  obtain ⟨l, r, hlr, _⟩ := h.detached
  have htaken : taken ∈ f.detached := by
    rw [hlr]
    exact List.mem_append_right _ List.mem_cons_self
  exact (partOf_of_mem_detached htaken).unique (partOf_of_mem_detached hx) hf.trees_nodup
    (h.id.trans href)

theorem setBody_restocks (h : f.Stocked []) (hrun : Edit.setBody ref f = .ok u f') :
    Restocks f f' ∧ ∀ x ∈ f.detached, ref.id = x.id → f'.body = x := by
  rcases setBody_cases hrun with ⟨-, hself, rfl⟩ | ⟨-, taken, g, htake, rfl⟩
  · refine ⟨⟨.of_nodes rfl rfl rfl rfl rfl rfl (fun _ => rfl) (.inr rfl), h.moved (.refl _) rfl⟩,
      fun x hx hid => ?_⟩
    exact f.body_partOf.unique (partOf_of_mem_detached hx) h.trees_nodup (hself ▸ hid)
  · have h₂ : f.released.Stocked [] := h.moved (.refl _) rfl
    have a := adopt_adopts h₂ htake
    refine ⟨⟨.of_nodes a.nodes a.insts a.timelines a.incoming a.handle a.frozen (fun _ => rfl)
      (.inr (a.memo.elim id id)), a.stocked.moved (.of_perm ?_) rfl⟩,
      fun x hx hid => a.eq_of_mem h₂ hx hid⟩
    exact (List.perm_append_singleton _ _).cons taken

theorem replaceInParent_restocks (h : f.Stocked []) (hd : d.PartOf f.trees) (hx : x ∈ f.detached)
    (href : ref.id = x.id) (hrun : Edit.replaceInParent d.id ref f = .ok u f') :
    Restocks f f' ∧ x.PartOf f'.trees := by
  rcases replaceInParent_cases (hd.find? h.trees_nodup) hrun with
    ⟨-, -, hrun⟩ | ⟨taken, f₁, htake, hrun⟩
  · obtain ⟨h₁, hbody⟩ := setBody_restocks h hrun
    exact ⟨h₁, hbody x hx href ▸ f'.body_partOf⟩
  · have a := adopt_adopts h htake
    obtain rfl := a.eq_of_mem h hx href
    obtain ⟨_, f₂, hchange, hrun⟩ := Edit.bind_ok hrun
    obtain ⟨h₂, hr₂, hp₂⟩ := changeAt_stocked [d] a.stocked (a.partOf hd a.apart)
      (.of_perm (.swap _ _ _)) hchange
    obtain ⟨h₃, hr₃, ht₃⟩ := orphan_stocked h₂ hrun
    exact ⟨⟨(a.toReplants.trans hr₂).trans hr₃, h₃⟩, ht₃ ▸ hp₂.append_right _⟩

theorem replaceCondition_restocks {cond : NodeId} {cs : List Component} (h : f.Stocked [])
    (hs : (Component.fork s cond cs).PartOf f.trees) (hb : (f.nodes.get? ref.id).isSome)
    (hrun : Edit.replaceCondition s ref f = .ok u f') : Restocks f f' ∧ f'.HasFork s := by
  have hfind : f.find? s = some (.fork s cond cs) := hs.find? h.trees_nodup
  rw [Edit.replaceCondition, Edit.bind_eq Edit.get_eq, hfind] at hrun
  obtain ⟨taken, f₁, htake, hrun⟩ := Edit.bind_ok hrun
  have a := adopt_adopts h htake
  obtain rfl := a.eq_block h hb
  obtain ⟨_, f₂, hchange, hrun⟩ := Edit.bind_ok hrun
  obtain ⟨h₂, hr₂, hp₂⟩ := changeAt_stocked [.block cond] a.stocked (a.partOf hs a.apart)
    same_condition hchange
  obtain ⟨h₃, hr₃, ht₃⟩ := orphan_stocked h₂ hrun
  exact ⟨⟨(a.toReplants.trans hr₂).trans hr₃, h₃⟩, _, _, ht₃ ▸ hp₂.append_right _⟩

/-- Where a component is put aside for a new sequence, which stands in its place. -/
theorem makeRoom_restocks {α : Type} {k : NodeId → Edit α} {a : α} (h : f.Stocked [])
    (hd : d.PartOf f.trees)
    (hrun : (do
      let seq ← Edit.newSequence []
      Edit.replaceInParent d.id (← Edit.refTo seq)
      k seq : Edit α) f = .ok a f') :
    ∃ q f₁, Restocks f f₁ ∧ f₁.HasSeq q ∧ k q f₁ = .ok a f' := by
  obtain ⟨q, f₁, hnew, hrun⟩ := Edit.bind_ok hrun
  have h₁ := newSequence_restocks h hnew
  obtain ⟨rfl, rfl⟩ := newSequence_ok hnew
  rw [Edit.bind_eq (refTo_eq _ _)] at hrun
  obtain ⟨_, f₂, hput, hrun⟩ := Edit.bind_ok hrun
  obtain ⟨h₂, hp₂⟩ := replaceInParent_restocks h₁.stocked (hd.append_right _)
    (List.mem_append_right _ List.mem_cons_self) rfl hput
  exact ⟨_, f₂, h₁.trans h₂, ⟨_, hp₂⟩, hrun⟩

theorem appendBoth_restocks {next : Func → ComponentRef} (h : f.Stocked []) (hs : f.HasSeq q)
    (hrun : (do
      Edit.appendElement q ref
      Edit.appendElement q (next (← get)) : Edit Unit) f = .ok u f') : Restocks f f' := by
  obtain ⟨_, f₁, happend, hrun⟩ := Edit.bind_ok hrun
  obtain ⟨h₁, hs₁⟩ := appendElement_restocks h hs happend
  exact h₁.trans (appendElement_restocks h₁.stocked hs₁ hrun).1

theorem insertBefore_restocks (h : f.Stocked []) (hd : d.PartOf f.trees)
    (hrun : Edit.insertBefore d.id ref f = .ok u f') : Restocks f f' := by
  have room : (do
      let seq ← Edit.newSequence []
      Edit.replaceInParent d.id (← Edit.refTo seq)
      Edit.appendElement seq ref
      Edit.appendElement seq (← Edit.refTo d.id) : Edit Unit) f = .ok u f' → Restocks f f' := by
    intro hrun
    obtain ⟨q, f₁, h₁, hs₁, hrun⟩ := makeRoom_restocks h hd hrun
    exact h₁.trans (appendBoth_restocks h₁.stocked hs₁ hrun)
  rw [Edit.insertBefore, Edit.bind_eq Edit.get_eq] at hrun
  rcases hparent : f.parent? d.id with _ | ⟨s, role⟩
  · rw [hparent] at hrun
    exact room hrun
  · rw [hparent] at hrun
    cases role with
    | element i => exact (insertElement_restocks h (hasSeq_of_element hparent) hrun).1
    | _ => exact room hrun

theorem insertAfter_restocks (h : f.Stocked []) (hd : d.PartOf f.trees)
    (hrun : Edit.insertAfter d.id ref f = .ok u f') : Restocks f f' := by
  have room : (do
      let seq ← Edit.newSequence []
      Edit.replaceInParent d.id (← Edit.refTo seq)
      Edit.appendElement seq (← Edit.refTo d.id)
      Edit.appendElement seq ref : Edit Unit) f = .ok u f' → Restocks f f' := by
    intro hrun
    obtain ⟨q, f₁, h₁, hs₁, hrun⟩ := makeRoom_restocks h hd hrun
    rw [Edit.bind_eq (refTo_eq _ _)] at hrun
    exact h₁.trans (appendBoth_restocks h₁.stocked hs₁ hrun)
  rw [Edit.insertAfter, Edit.bind_eq Edit.get_eq] at hrun
  rcases hparent : f.parent? d.id with _ | ⟨s, role⟩
  · rw [hparent] at hrun
    exact room hrun
  · rw [hparent] at hrun
    cases role with
    | element i => exact (insertElement_restocks h (hasSeq_of_element hparent) hrun).1
    | _ => exact room hrun

/-- The second half of a split block is put into the tree. -/
theorem placeSecondHalf_restocks {b b2 : NodeId} (h : f.Stocked [])
    (hb : (f.nodes.get? b).isSome) (hb2 : (f.nodes.get? b2).isSome)
    (hloop : ∀ p, f.parent? b ≠ some (p, .loopCondition))
    (hrun : Edit.placeSecondHalf b b2 f = .ok u f') : Restocks f f' := by
  rw [Edit.placeSecondHalf, Edit.bind_eq Edit.get_eq] at hrun
  rcases hparent : f.parent? b with _ | ⟨p, role⟩
  · rw [hparent] at hrun
    cases hrun
    exact ⟨.refl f, h⟩
  have room : role ≠ .condition → role ≠ .after → (do
      let seq ← Edit.newSequence []
      Edit.replaceInParent b (← Edit.refTo seq)
      Edit.appendElement seq (← Edit.refTo b)
      Edit.appendElement seq (← Edit.refTo b2) : Edit Unit) f = .ok u f' → Restocks f f' := by
    intro hcond hafter hrun
    obtain ⟨d, hd, rfl⟩ := part_of_parent? hparent hcond
      (fun hr => hloop p (hr ▸ hparent)) hafter
    obtain ⟨q, f₁, h₁, hs₁, hrun⟩ := makeRoom_restocks h hd hrun
    rw [Edit.bind_eq (refTo_eq _ _)] at hrun
    exact h₁.trans (appendBoth_restocks h₁.stocked hs₁ hrun)
  rw [hparent] at hrun
  cases role with
  | element i => exact (insertElement_restocks h (hasSeq_of_element hparent) hrun).1
  | condition =>
    rcases plays_of_parent? hparent with ⟨c, hc, rfl, hplays⟩ | ⟨_, hrole, _⟩
    · cases c with
      | fork q cond cs =>
        dsimp only at hrun
        rw [Edit.bind_eq (refTo_eq _ _)] at hrun
        obtain ⟨_, f₁, hcond, hrun⟩ := Edit.bind_ok hrun
        obtain ⟨h₁, cond', cs', hs₁⟩ := replaceCondition_restocks h hc hb2 hcond
        exact h₁.trans (insertBefore_restocks h₁.stocked hs₁ hrun)
      | _ => cases hplays
    · cases hrole
  | after =>
    rcases plays_of_parent? hparent with ⟨c, hc, rfl, _⟩ | ⟨_, hrole, _⟩
    · exact insertAfter_restocks h hc hrun
    · cases hrole
  | _ => exact room (by rintro ⟨⟩) (by rintro ⟨⟩) hrun

theorem prependBlock_restocks {b : NodeId} (h : f.Stocked [])
    (hrun : Edit.prependBlock b f = .ok u f') : Restocks f f' := by
  rw [Edit.prependBlock, Edit.bind_eq Edit.get_eq] at hrun
  have room : (do
      let seq ← Edit.newSequence []
      Edit.setBody (← Edit.refTo seq)
      Edit.appendElement seq (← Edit.refTo b)
      Edit.appendElement seq (← Edit.refTo f.body.id) : Edit Unit) f = .ok u f' →
      Restocks f f' := by
    intro hrun
    obtain ⟨q, f₁, hnew, hrun⟩ := Edit.bind_ok hrun
    have h₁ := newSequence_restocks h hnew
    obtain ⟨rfl, rfl⟩ := newSequence_ok hnew
    rw [Edit.bind_eq (refTo_eq _ _)] at hrun
    obtain ⟨_, f₂, hput, hrun⟩ := Edit.bind_ok hrun
    obtain ⟨h₂, hbody⟩ := setBody_restocks h₁.stocked hput
    have hseq := hbody (.seq f.nodes.next []) (List.mem_append_right _ List.mem_cons_self) rfl
    rw [Edit.bind_eq (refTo_eq _ _)] at hrun
    exact (h₁.trans h₂).trans (appendBoth_restocks h₂.stocked ⟨[], hseq ▸ f₂.body_partOf⟩ hrun)
  cases hbody : f.body with
  | seq s es =>
    rw [hbody] at hrun
    exact (insertElement_restocks h ⟨es, hbody ▸ f.body_partOf⟩ hrun).1
  | _ =>
    rw [hbody] at hrun room
    exact room hrun

/-! ## Flattening -/

theorem registered_stocked (h : f.Stocked []) (n : Nat) : (f.registered n).Stocked [] := by
  have htrees : (f.registered n).trees = f.trees := by
    rw [Func.trees, Func.trees, registered_eq f n]
  refine h.renumbered [] ?_ List.nodup_nil (fun i hi => by cases hi) ?_ fun b => ?_
  · rw [List.append_nil, htrees]
  · rw [size_registered]
    exact Nat.le_add_right _ _
  · rw [htrees, get?_registered]
    exact h.stored b

theorem replants_registered (f : Func) (n : Nat) : Replants f (f.registered n) := by
  have h := reroots_registered f n
  exact {
    toSameRecords := h.sameRecords
    handle := h.handle
    frozen := h.frozen
    held := fun hh => by rw [registered_eq f n]; exact hh
    insts := h.insts
    code := h.code
    phiCount := fun b => by rw [h.blockAt]
    blocks := fun b hb => by rw [h.block]; exact hb
    memo := .inl (by rw [registered_eq f n]) }

theorem exchange_restocks (n : Nat) {new : Component} {extra : List NodeId} (hf : f.Stocked [])
    (hd : d.PartOf f.trees) (halike : Component.Alike extra [d] [new])
    (hnumbers : Numbers f.nodes.next (f.nodes.next + n) extra)
    (hrun : (do
      Edit.changeAt d.id fun _ => new
      Edit.touch : Edit Unit) (f.registered n) = .ok u f') : Restocks f f' := by
  cases hrun
  have htrees : (f.registered n).trees = f.trees := by
    rw [Func.trees, Func.trees, registered_eq f n]
  have hsame : Same (d :: modifyAll d.id (fun _ => new) f.trees) (new :: f.trees) :=
    hd.same_modify hf.trees_nodup
  have hids : (idsAll (modifyAll d.id (fun _ => new) f.trees)).Subperm
      (idsAll f.trees ++ extra) := by
    refine List.subperm_ext_iff.mpr fun a _ => ?_
    have h₁ := hsame.ids.count_eq a
    have h₂ := (Grows.ids halike).count_le a
    simp only [idsAll, List.append_nil, List.count_append] at h₁ h₂ ⊢
    omega
  have hblocks : (blocksAll (modifyAll d.id (fun _ => new) f.trees)).Perm
      (blocksAll f.trees) := by
    refine List.perm_iff_count.mpr fun a => ?_
    have h₁ := hsame.blocks.count_eq a
    have h₂ := congrArg (List.count a) halike.blocks
    simp only [blocksAll, List.append_nil, List.count_append] at h₁ h₂ ⊢
    omega
  refine ⟨(replants_registered f n).trans
    (.of_nodes rfl rfl rfl rfl rfl rfl (fun hh => hh) (.inr rfl)), ?_⟩
  refine hf.renumbered extra ?_ hnumbers.nodup (fun i hi => ?_) ?_ fun b => ?_
  · exact htrees ▸ hids
  · have hcount : ∀ s n i : Nat, s + 1 ≤ i ∧ i < s + 1 + n → s < i ∧ i ≤ s + n := by omega
    change f.nodes.size < i ∧ i ≤ (f.registered n).nodes.size
    rw [size_registered]
    exact hcount _ _ i (hnumbers.between i hi)
  · change f.nodes.size ≤ (f.registered n).nodes.size
    rw [size_registered]
    exact Nat.le_add_right _ _
  · change b ∈ blocksAll (modifyAll d.id (fun _ => new) (f.registered n).trees) ↔
      ((f.registered n).nodes.get? b).isSome
    rw [htrees, hblocks.mem_iff, get?_registered]
    exact hf.stored b

/-- A flattening changes the trees, and then prunes what they no longer lead to. -/
theorem flatten_restocks (h : f.Stocked []) {c e : NodeId}
    (hrun : Edit.flatten c f = .ok e f') :
    ∃ f₁ n, Restocks f f₁ ∧ (f₁.memo = [] ∨ f₁.trees = f.trees) ∧
      Edit.pruneIncoming f₁ = .ok n f' := by
  obtain ⟨_, hrun⟩ := Edit.unfrozen_bind_ok hrun
  rw [Edit.bind_eq Edit.get_eq] at hrun
  dsimp only at hrun
  have hprune : ∀ {g : Func} {r : NodeId}, Restocks f g → g.memo = [] ∨ g.trees = f.trees →
      (do let _ ← Edit.pruneIncoming; return r : Edit NodeId) g = .ok e f' →
      ∃ f₁ n, Restocks f f₁ ∧ (f₁.memo = [] ∨ f₁.trees = f.trees) ∧
        Edit.pruneIncoming f₁ = .ok n f' := by
    intro g r hg hmemo hrun
    obtain ⟨n, f₁, hp, hrun⟩ := Edit.bind_ok hrun
    cases hrun
    exact ⟨g, n, hg, hmemo, hp⟩
  cases hold : f.find? (if c = rootId then f.body.id else c) with
  | none =>
    rw [hold] at hrun
    exact hprune ⟨.refl f, h⟩ (.inr rfl) hrun
  | some old =>
    rw [hold] at hrun
    dsimp only at hrun
    rw [Edit.bind_eq (registerUpTo_eq f _)] at hrun
    generalize f.hasParent (if c = rootId then f.body.id else c) = held at hrun
    by_cases hne : (old.flatten held f.nodes.next).1.ids ≠ old.ids
    · rw [if_pos hne] at hrun
      obtain ⟨extra, halike, hnumbers⟩ := flatten_alike held f.nodes.next old
      obtain ⟨hpart, hid⟩ := partOf_of_find? hold fun hk => hne (by
        cases old with
        | block b => rfl
        | _ => cases hk)
      rw [← hid] at hrun
      obtain ⟨_, f₁, hchange, hrun⟩ := Edit.bind_ok hrun
      obtain ⟨_, f₂, htouch, hrun⟩ := Edit.bind_ok hrun
      refine hprune (exchange_restocks (u := ()) ((old.flatten held f.nodes.next).2 - f.nodes.next)
        h hpart halike ?_ ?_) (.inl (by cases htouch; rfl)) hrun
      · rw [Nat.add_sub_cancel' hnumbers.le]
        exact hnumbers
      · rw [Edit.bind_eq hchange]
        exact htouch
    · rw [if_neg hne] at hrun
      exact hprune ⟨replants_registered f _, registered_stocked h _⟩
        (.inr (by rw [Func.trees, Func.trees, registered_eq f])) hrun

end

end DefFlow.Flow
