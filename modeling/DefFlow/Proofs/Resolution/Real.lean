import DefFlow.Proofs.Resolution.Build

/-!
# Values that exist

A search names only timelines that are there and list the variable it looks for, and only
joins that are stored, whatever the shape of the trees and whether or not it can finish.
-/

set_option autoImplicit false

namespace DefFlow.Flow

theorem of_foldlM_ok {α σ ε : Type} {g : σ → α → Except ε σ} {l : List α} (I : σ → Prop)
    (step : ∀ {s a s'}, a ∈ l → I s → g s a = .ok s' → I s') {s s' : σ} (h : I s)
    (hrun : l.foldlM g s = .ok s') : I s' := by
  induction l generalizing s with
  | nil =>
    cases hrun
    exact h
  | cons a l ih =>
    rw [List.foldlM_cons] at hrun
    obtain ⟨s₁, ha, hrun⟩ := of_bind_ok hrun
    exact ih (fun hm => step (List.mem_cons_of_mem _ hm)) (step List.mem_cons_self h ha) hrun

def Reach.Real (f : Func) (v : VarId) : Reach → Prop
  | .undefined => True
  | .timeline t => ∃ x, f.timelines.get? t = some x ∧ x.var = v
  | .pending b => (f.nodes.get? b).isSome
  | .join b => (f.nodes.get? b).isSome

structure Frame.Real (f : Func) (v : VarId) (x : Frame) : Prop where
  join : (f.nodes.get? x.join).isSome
  preds : ∀ p ∈ x.preds, (f.nodes.get? p).isSome
  values : ∀ r ∈ x.values, r.Real f v

structure Stack.Real (f : Func) (s : Stack) : Prop where
  frames : ∀ x ∈ s.frames, x.Real f s.var
  phis : ∀ j ∈ s.phis, j ∈ s.joins
  tops : ∀ e ∈ s.tops, e.2.Real f s.var
  replaced : ∀ e ∈ s.replaced, e.2.Real f s.var
  root : s.root.Real f s.var

structure Stack.Found (f : Func) (v : VarId) (s : Stack) : Prop extends s.Real f where
  var : s.var = v
  ended : s.next? s.root = none

structure Func.Grounds (f : Func) : Prop where
  tables : f.Tables
  preds : ∀ b, ∀ p ∈ f.preds b, (f.nodes.get? p).isSome

section

variable {f : Func} {v : VarId} {s s' : Stack} {r : Reach} {active : List NodeId} {j : NodeId}

theorem real_of_explicit? (h : f.Tables) {b : NodeId} {t : TimelineId}
    (ht : f.explicit? b v = some t) : (Reach.timeline t).Real f v := by
  obtain ⟨x, hx, _, hv⟩ := h.placed (Func.timelineId?_of_explicit? ht)
  exact ⟨x, hx, hv⟩

/-! ## Reading a stack -/

namespace Stack.Real

theorem next? (h : s.Real f) {r' : Reach} (hr : s.next? r = some r') : r'.Real f s.var := by
  cases r with
  | pending b => exact h.tops _ (mem_of_lookup hr)
  | join b => exact h.replaced _ (mem_of_lookup hr)
  | _ => cases hr

theorem follow (h : s.Real f) {n : Nat} {c : Reach} (hr : r.Real f s.var)
    (hc : s.follow n r = some c) : c.Real f s.var := by
  induction n generalizing r with
  | zero => cases hc
  | succ n ih =>
    rw [Stack.follow] at hc
    split at hc
    · cases hc
      exact hr
    · next hnext => exact ih (h.next? hnext) hc

theorem canon (h : s.Real f) {c : Reach} (hr : r.Real f s.var) (hc : s.canon f r = .ok c) :
    c.Real f s.var := by
  rw [Stack.canon] at hc
  split at hc
  · next hfollow =>
    cases hc
    exact h.follow hr hfollow
  · cases hc

theorem distinct (h : s.Real f) {values out : List Reach} (hv : ∀ r ∈ values, r.Real f s.var)
    (hrun : s.distinct f j values = .ok out) : ∀ r ∈ out, r.Real f s.var := by
  rw [Stack.distinct] at hrun
  obtain ⟨cs, hcs, hrun⟩ := of_bind_ok hrun
  cases hrun
  intro r hr
  rw [List.mem_eraseDups, List.mem_filter] at hr
  obtain ⟨r', hr', hc⟩ := forall₂_right (of_mapM_ok hcs) hr.1
  exact h.canon (hv r' hr') hc

theorem frame (h : s.Real f) (hj : j ∈ s.joins) : (s.frame j).Real f s.var := by
  rw [Stack.frame]
  cases hx : s.frames.find? fun x => x.join = j with
  | some x => exact h.frames x (List.mem_of_find?_eq_some hx)
  | none =>
    obtain ⟨x, hm, hxj⟩ := List.mem_map.mp hj
    exact absurd hxj (by simpa using List.find?_eq_none.mp hx x hm)

/-! ## Dropping joins -/

theorem drop (h : s.Real f) (hr : r.Real f s.var) :
    ({ s with replaced := (j, r) :: s.replaced } : Stack).Real f where
  frames := h.frames
  phis := h.phis
  tops := h.tops
  replaced e he := by
    rcases List.mem_cons.mp he with rfl | he
    · exact hr
    · exact h.replaced e he
  root := h.root

theorem eliminateOnce (h : s.Real f) (hrun : s.eliminateOnce f = .ok s') :
    s'.Real f ∧ s'.var = s.var := by
  have key : s'.Real f ∧ s'.var = s.var ∧ s'.phis = s.phis := by
    refine of_foldlM_ok (fun t => t.Real f ∧ t.var = s.var ∧ t.phis = s.phis) ?_ ⟨h, rfl, rfl⟩ hrun
    rintro t j t' hj ⟨ht, hv, hp⟩ hstep
    split at hstep
    · cases hstep
      exact ⟨ht, hv, hp⟩
    · obtain ⟨out, hout, hstep⟩ := of_bind_ok hstep
      have hreal := ht.distinct (ht.frame (ht.phis j (hp ▸ hj))).values hout
      split at hstep
      · cases hstep
        exact ⟨ht.drop trivial, hv, hp⟩
      · cases hstep
        exact ⟨ht.drop (hreal _ List.mem_cons_self), hv, hp⟩
      · cases hstep
        exact ⟨ht, hv, hp⟩
  exact ⟨key.1, key.2.1⟩

theorem eliminate (h : s.Real f) {n : Nat} (hrun : s.eliminate f n = .ok s') :
    s'.Real f ∧ s'.var = s.var := by
  induction n generalizing s with
  | zero =>
    cases hrun
    exact ⟨h, rfl⟩
  | succ n ih =>
    rw [Stack.eliminate] at hrun
    obtain ⟨s₁, h₁, hrun⟩ := of_bind_ok hrun
    obtain ⟨hs₁, hv₁⟩ := h.eliminateOnce h₁
    split at hrun
    · cases hrun
      exact ⟨hs₁, hv₁⟩
    · obtain ⟨h', hv'⟩ := ih hs₁ hrun
      exact ⟨h', hv'.trans hv₁⟩

theorem withRoot (h : s.Real f) (hr : r.Real f s.var) : ({ s with root := r } : Stack).Real f :=
  ⟨h.frames, h.phis, h.tops, h.replaced, hr⟩

end Stack.Real

/-! ## Searching -/

def WalkEnd.Real (f : Func) (v : VarId) : WalkEnd → Prop
  | .known r => r.Real f v
  | .opens b => (f.nodes.get? b).isSome

theorem Func.Grounds.walkUp (h : f.Grounds) {tops : List (NodeId × Reach)}
    (htops : ∀ e ∈ tops, e.2.Real f v) {n : Nat} {x : NodeId} (hx : (f.nodes.get? x).isSome) :
    (f.walkUp v active tops n x).Real f v := by
  induction n generalizing x with
  | zero => exact trivial
  | succ n ih =>
    rw [Func.walkUp]
    split
    · exact trivial
    · next p hp =>
      split
      · next t ht => exact real_of_explicit? h.tables ht
      · exact ih (h.preds x p (hp ▸ List.mem_cons_self))
    · split
      · exact hx
      · split
        · next r hr => exact htops _ (mem_of_lookup hr)
        · exact hx

theorem Func.Grounds.walk (h : f.Grounds) {tops : List (NodeId × Reach)}
    (htops : ∀ e ∈ tops, e.2.Real f v) {x : NodeId} (hx : (f.nodes.get? x).isSome) :
    (f.walk v active tops x).Real f v := by
  rw [Func.walk]
  split
  · exact hx
  · exact h.walkUp htops hx

structure Stack.Seeks (f : Func) (v : VarId) (met : List NodeId) (s : Stack) : Prop extends
    s.Real f where
  var : s.var = v
  joins : ∀ k ∈ met, k ∈ s.joins

def Func.Finds (f : Func) (v : VarId) (n : Nat) : Prop :=
  ∀ {active j met s r s'}, (f.nodes.get? j).isSome → s.Seeks f v met →
    f.searchJoin v n active j s = .ok (r, s') → s'.Seeks f v met ∧ r.Real f v

theorem searchPath_seeks (h : f.Grounds) {n : Nat} (hn : f.Finds v n) {p : NodeId}
    (hp : (f.nodes.get? p).isSome) {met : List NodeId} {acc acc' : List Reach × Stack}
    (hs : acc.2.Seeks f v met) (hv : ∀ r ∈ acc.1, r.Real f v)
    (hrun : f.searchPath v n active acc p = .ok acc') :
    acc'.2.Seeks f v met ∧ ∀ r ∈ acc'.1, r.Real f v := by
  obtain ⟨values, s⟩ := acc
  have more : ∀ {r : Reach}, r.Real f v → ∀ w ∈ values ++ [r], w.Real f v := by
    intro r hr w hw
    rcases List.mem_append.mp hw with hw | hw
    · exact hv w hw
    · exact List.mem_singleton.mp hw ▸ hr
  rw [Func.searchPath] at hrun
  dsimp only at hrun
  split at hrun
  · next t ht =>
    cases hrun
    exact ⟨hs, more (real_of_explicit? h.tables ht)⟩
  · have hwalk : (f.walk v active s.tops p).Real f v :=
      h.walk (fun e he => hs.var ▸ hs.tops e he) hp
    split at hrun
    · next r hr =>
      cases hrun
      rw [hr] at hwalk
      exact ⟨hs, more hwalk⟩
    · next inner hinner =>
      rw [hinner] at hwalk
      obtain ⟨⟨r, s₁⟩, hjoin, hrun⟩ := of_bind_ok hrun
      cases hrun
      obtain ⟨hs₁, hr⟩ := hn hwalk hs hjoin
      exact ⟨hs₁, more hr⟩

theorem Stack.Real.open (h : s.Real f) {preds : List NodeId} (hj : (f.nodes.get? j).isSome)
    (hp : ∀ p ∈ preds, (f.nodes.get? p).isSome) :
    ({ s with frames := s.frames ++ [⟨j, preds, [], .undefined⟩] } : Stack).Real f where
  frames x hx := by
    rcases List.mem_append.mp hx with hx | hx
    · exact h.frames x hx
    · rw [List.mem_singleton.mp hx]
      exact ⟨hj, hp, fun r hr => by cases hr⟩
  phis k hk := by
    rw [Stack.joins, List.map_append]
    exact List.mem_append_left _ (h.phis k hk)
  tops := h.tops
  replaced := h.replaced
  root := h.root

theorem Stack.Real.close (h : s.Real f) {preds phis : List NodeId} {values : List Reach}
    (hj : (f.nodes.get? j).isSome) (hp : ∀ p ∈ preds, (f.nodes.get? p).isSome)
    (hv : ∀ w ∈ values, w.Real f s.var) (hr : r.Real f s.var)
    (hphis : ∀ k ∈ phis, k ∈ s.joins) :
    (({ s with phis := phis, tops := (j, r) :: s.tops } : Stack).setFrame
      ⟨j, preds, values, r⟩).Real f where
  frames x hx := by
    obtain ⟨y, hy, rfl⟩ := List.mem_map.mp hx
    show Frame.Real f s.var _
    split
    · exact ⟨hj, hp, hv⟩
    · exact h.frames y hy
  phis k hk := by
    rw [Stack.joins, Stack.joins_setFrame]
    exact hphis k hk
  tops e he := by
    rcases List.mem_cons.mp he with rfl | he
    · exact hr
    · exact h.tops e he
  replaced := h.replaced
  root := h.root

theorem Stack.Seeks.close {met preds phis : List NodeId} {values : List Reach}
    (h : s.Seeks f v met) (hj : (f.nodes.get? j).isSome)
    (hp : ∀ p ∈ preds, (f.nodes.get? p).isSome) (hv : ∀ w ∈ values, w.Real f v)
    (hr : r.Real f v) (hphis : ∀ k ∈ phis, k ∈ s.joins) :
    (({ s with phis := phis, tops := (j, r) :: s.tops } : Stack).setFrame
      ⟨j, preds, values, r⟩).Seeks f v met where
  toReal := h.toReal.close hj hp (fun w hw => h.var ▸ hv w hw) (h.var ▸ hr) hphis
  var := h.var
  joins k hk := by
    rw [Stack.joins, Stack.joins_setFrame]
    exact h.joins k hk

theorem finds (h : f.Grounds) (n : Nat) : f.Finds v n := by
  induction n with
  | zero =>
    intro active j met s r s' _ hs hrun
    cases hrun
    exact ⟨hs, trivial⟩
  | succ n ih =>
    intro active j met s r s' hj hs hrun
    rw [Func.searchJoin_succ] at hrun
    obtain ⟨⟨values, s₁⟩, hpaths, hrun⟩ := of_bind_ok hrun
    have hopen : ({ s with frames := s.frames ++ [⟨j, f.preds j, [], .undefined⟩] } :
        Stack).Seeks f v (j :: met) := by
      refine ⟨hs.toReal.open hj (h.preds j), hs.var, fun k hk => ?_⟩
      rw [Stack.joins, List.map_append, List.mem_append]
      rcases List.mem_cons.mp hk with rfl | hk
      · exact Or.inr List.mem_cons_self
      · exact Or.inl (hs.joins k hk)
    obtain ⟨hs₁, hv₁⟩ := of_foldlM_ok
      (fun acc : List Reach × Stack => acc.2.Seeks f v (j :: met) ∧ ∀ w ∈ acc.1, w.Real f v)
      (fun {_ p _} hp hacc hstep => searchPath_seeks h ih (h.preds j p hp) hacc.1 hacc.2 hstep)
      ⟨hopen, fun w hw => by cases hw⟩ hpaths
    have hs₂ : s₁.Seeks f v met :=
      ⟨hs₁.toReal, hs₁.var, fun k hk => hs₁.joins k (List.mem_cons_of_mem _ hk)⟩
    obtain ⟨out, hout, hrun⟩ := of_bind_ok hrun
    have hreal := hs₁.toReal.distinct (fun w hw => hs₁.var ▸ hv₁ w hw) hout
    split at hrun
    · cases hrun
      exact ⟨hs₂.close hj (h.preds j) hv₁ trivial hs₁.phis, trivial⟩
    · cases hrun
      have hr := hs₁.var ▸ hreal r List.mem_cons_self
      exact ⟨hs₂.close hj (h.preds j) hv₁ hr hs₁.phis, hr⟩
    · cases hrun
      refine ⟨hs₂.close hj (h.preds j) hv₁ hj fun k hk => ?_, hj⟩
      rcases List.mem_append.mp hk with hk | hk
      · exact hs₁.phis k hk
      · exact hs₁.joins k (List.mem_singleton.mp hk ▸ List.mem_cons_self)

theorem Stack.Real.start (leaf : NodeId) : (Stack.start leaf v).Real f where
  frames x hx := by cases hx
  phis k hk := by cases hk
  tops e he := by cases he
  replaced e he := by cases he
  root := trivial

theorem solve_real (h : f.Grounds) {leaf : NodeId} (hl : (f.nodes.get? leaf).isSome)
    (hrun : f.solve leaf v = .ok s) : s.Found f v := by
  have hwalk : (f.walk v [] [] leaf).Real f v := h.walk (fun e he => by cases he) hl
  -- Either way the search goes on with a stack whose root exists.
  have finish : ∀ {s₀ : Stack}, s₀.Real f → s₀.var = v → (do
      let s ← s₀.eliminate f (s₀.phis.length + 1)
      return { s with root := ← s.canon f s.root } : Except EditError Stack) = .ok s →
      s.Found f v := by
    intro s₀ h₀ hv₀ hrun
    obtain ⟨s₁, hdrop, hrun⟩ := of_bind_ok hrun
    obtain ⟨h₁, hv₁⟩ := h₀.eliminate hdrop
    obtain ⟨c, hc, hrun⟩ := of_bind_ok hrun
    cases hrun
    have hended : ({ s₁ with root := c } : Stack).next? c = none :=
      (Stack.next?_congr (s := s₁) rfl rfl c).trans (Stack.next?_of_canon hc)
    exact ⟨h₁.withRoot (h₁.canon h₁.root hc), hv₁.trans hv₀, hended⟩
  rw [Func.solve] at hrun
  cases hend : f.walk v [] [] leaf with
  | known r =>
    rw [hend] at hrun hwalk
    exact finish ((Stack.Real.start leaf).withRoot hwalk) rfl hrun
  | opens j =>
    rw [hend] at hrun hwalk
    obtain ⟨⟨r, s₁⟩, hjoin, hrun⟩ := of_bind_ok hrun
    have hstart : (Stack.start leaf v).Seeks f v [] :=
      ⟨.start leaf, rfl, fun k hk => by cases hk⟩
    obtain ⟨hs₁, _⟩ := finds h f.nodes.size hwalk hstart hjoin
    obtain ⟨c, hc, hrun⟩ := of_bind_ok hrun
    have hroot : (Reach.pending j).Real f s₁.var := hwalk
    exact finish (hs₁.toReal.withRoot (hs₁.toReal.canon hroot hc)) hs₁.var hrun

/-! ## Frames stand for joins -/

def Stack.Drawn (f : Func) (s : Stack) : Prop := ∀ x ∈ s.frames, x.preds = f.preds x.join

theorem Stack.Drawn.frame (h : s.Drawn f) (hj : j ∈ s.joins) :
    (s.frame j).preds = f.preds (s.frame j).join := by
  rw [Stack.frame]
  cases hx : s.frames.find? fun x => x.join = j with
  | some x => exact h x (List.mem_of_find?_eq_some hx)
  | none =>
    obtain ⟨x, hm, hxj⟩ := List.mem_map.mp hj
    exact absurd hxj (by simpa using List.find?_eq_none.mp hx x hm)

theorem Stack.Drawn.setFrame (h : s.Drawn f) {x : Frame} (hx : x.preds = f.preds x.join) :
    (s.setFrame x).Drawn f := by
  intro y hy
  obtain ⟨z, hz, rfl⟩ := List.mem_map.mp hy
  split
  · exact hx
  · exact h z hz

theorem searchJoin_drawn {n : Nat} (h : s.Drawn f)
    (hrun : f.searchJoin v n active j s = .ok (r, s')) : s'.Drawn f := by
  induction n generalizing active j s r s' with
  | zero =>
    cases hrun
    exact h
  | succ n ih =>
    rw [Func.searchJoin_succ] at hrun
    obtain ⟨⟨values, s₁⟩, hpaths, hrun⟩ := of_bind_ok hrun
    have hopen : ({ s with frames := s.frames ++ [⟨j, f.preds j, [], .undefined⟩] } :
        Stack).Drawn f := by
      intro x hx
      rcases List.mem_append.mp hx with hx | hx
      · exact h x hx
      · rw [List.mem_singleton.mp hx]
    have h₁ : s₁.Drawn f := by
      refine of_foldlM_ok (fun acc : List Reach × Stack => acc.2.Drawn f)
        (fun {acc p acc'} _ hacc hstep => ?_) hopen hpaths
      rw [Func.searchPath] at hstep
      dsimp only at hstep
      split at hstep
      · cases hstep
        exact hacc
      · split at hstep
        · cases hstep
          exact hacc
        · obtain ⟨⟨r, s₁⟩, hjoin, hstep⟩ := of_bind_ok hstep
          cases hstep
          exact ih hacc hjoin
    obtain ⟨out, -, hrun⟩ := of_bind_ok hrun
    split at hrun <;>
      · cases hrun
        exact Stack.Drawn.setFrame (x := ⟨j, f.preds j, values, _⟩) h₁ rfl

theorem eliminate_frames {n : Nat} (hrun : s.eliminate f n = .ok s') : s'.frames = s.frames := by
  induction n generalizing s with
  | zero =>
    cases hrun
    rfl
  | succ n ih =>
    rw [Stack.eliminate] at hrun
    obtain ⟨s₁, h₁, hrun⟩ := of_bind_ok hrun
    have hs₁ : s₁.frames = s.frames := by
      refine of_foldlM_ok (fun t : Stack => t.frames = s.frames)
          (fun {t j t'} _ ht hstep => ?_) rfl h₁
      split at hstep
      · cases hstep
        exact ht
      · obtain ⟨out, -, hstep⟩ := of_bind_ok hstep
        split at hstep <;>
          · cases hstep
            exact ht
    split at hrun
    · cases hrun
      exact hs₁
    · exact (ih hrun).trans hs₁

theorem solve_drawn {leaf : NodeId} (hrun : f.solve leaf v = .ok s) : s.Drawn f := by
  have finish : ∀ {s₀ : Stack}, s₀.Drawn f → (do
      let s ← s₀.eliminate f (s₀.phis.length + 1)
      return { s with root := ← s.canon f s.root } : Except EditError Stack) = .ok s →
      s.Drawn f := by
    intro s₀ h₀ hrun
    obtain ⟨s₁, hdrop, hrun⟩ := of_bind_ok hrun
    obtain ⟨c, -, hrun⟩ := of_bind_ok hrun
    cases hrun
    intro x hx
    exact h₀ x (eliminate_frames hdrop ▸ hx)
  have hstart : (Stack.start leaf v).Drawn f := fun x hx => nomatch hx
  rw [Func.solve] at hrun
  cases hend : f.walk v [] [] leaf with
  | known r =>
    rw [hend] at hrun
    have h₀ : ({ Stack.start leaf v with root := r } : Stack).Drawn f := hstart
    exact finish h₀ hrun
  | opens j =>
    rw [hend] at hrun
    obtain ⟨⟨r, s₁⟩, hjoin, hrun⟩ := of_bind_ok hrun
    obtain ⟨c, -, hrun⟩ := of_bind_ok hrun
    have h₁ := searchJoin_drawn hstart hjoin
    have hroot : ({ s₁ with root := c } : Stack).Drawn f := h₁
    exact finish hroot hrun

/-! ## Values that stay -/

structure Outlives (f f' : Func) : Prop where
  timelines : ∀ {t x}, f.timelines.get? t = some x →
    ∃ y, f'.timelines.get? t = some y ∧ y.var = x.var
  blocks : ∀ {b}, (f.nodes.get? b).isSome → (f'.nodes.get? b).isSome

variable {f' : Func}

theorem Reach.Real.mono (h : r.Real f v) (ho : Outlives f f') : r.Real f' v := by
  cases r with
  | undefined => exact trivial
  | timeline t =>
    obtain ⟨x, hx, hv⟩ := h
    obtain ⟨y, hy, hyx⟩ := ho.timelines hx
    exact ⟨y, hy, hyx.trans hv⟩
  | pending b => exact ho.blocks h
  | join b => exact ho.blocks h

theorem Frame.Real.mono {x : Frame} (h : x.Real f v) (ho : Outlives f f') : x.Real f' v where
  join := ho.blocks h.join
  preds p hp := ho.blocks (h.preds p hp)
  values r hr := (h.values r hr).mono ho

theorem Stack.Real.mono (h : s.Real f) (ho : Outlives f f') : s.Real f' where
  frames x hx := (h.frames x hx).mono ho
  phis := h.phis
  tops e he := (h.tops e he).mono ho
  replaced e he := (h.replaced e he).mono ho
  root := h.root.mono ho

theorem Stack.Found.mono (h : s.Found f v) (ho : Outlives f f') : s.Found f' v :=
  ⟨h.toReal.mono ho, h.var, h.ended⟩

/-- What has been found can be read, in whatever function. -/
theorem Stack.Found.canon (h : s.Found f v) : s.canon f' s.root = .ok s.root := by
  rw [Stack.canon, Stack.follow, h.ended]

end

end DefFlow.Flow
