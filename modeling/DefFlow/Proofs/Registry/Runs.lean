import DefFlow.Proofs.Registry.Flatten
import DefFlow.Proofs.Runs.Age
import DefFlow.Proofs.Runs.Recall

/-!
# Runs of a registry

A registry is kept beside a function: each request to the function that changes its components is
carried out in the registry as well, one record at a time. Main statement: whatever is granted
succeeds in the registry, whose records then form a forest.
-/

set_option autoImplicit false

namespace DefFlow.Flow

open Func Component

/-- What a request to the function `f` does to the components. -/
def Request.restructure (f : Func) : Request → Surgery Unit
  | .newBlock _ => do let _ ← Surgery.newBlock
  | .newSequence elements => do let _ ← Surgery.newSequence elements
  | .newFork cond cases => do let _ ← Surgery.newFork cond cases
  | .newLoop start cond body update after => do
    let _ ← Surgery.newLoop start cond body update after
  | .setBody c => Surgery.setBody c
  | .insertElement q i c => Surgery.insert q i c
  | .appendElement q c => Surgery.append q c
  | .removeElement q i => do let _ ← Surgery.remove q i
  | .replaceElement q i c => do let _ ← Surgery.replace q i c
  | .addCase k c => Surgery.addCase k c
  | .removeCase k i => do let _ ← Surgery.removeCase k i
  | .split b _ => do let _ ← Surgery.split b
  | .flatten c => do let _ ← Surgery.flatten c
  | .defineUndefined =>
    match f.verify with
    | .ok found =>
      if (found.filterMap Violation.undefinedVar?).isEmpty then pure () else Surgery.prependBlock
    | .error _ => pure ()
  | .freeze => modify fun s => { s with frozen := true }
  | _ => pure ()

/-- The functions and registries that requests lead to, each granted in its turn. -/
inductive Registered : Func → Registry → Prop
  | new (handle : Nat) (name : String) : Registered (.new handle name) (.new handle name)
  | step {f f' : Func} {s s' : Registry} {r : Request} (h : Registered f s)
      (hr : r.grant f = some f') (hs : r.restructure f s = .ok () s') : Registered f' s'

section

variable {s s' : Registry} {f f' : Func} {r : Request}

namespace Registry.Pictures

theorem ofTrees (s : Registry) : OfTrees (s.Pictures []) := fun hk hg _ => hk.of_graph hg

theorem sealed (h : s.Pictures [] f) :
    Pictures { s with frozen := true } [] { f with frozen := true } where
  handle := h.handle
  frozen := rfl
  size := h.size
  root := h.root
  body := h.body.congr fun _ _ => rfl
  detached d hd := (h.detached d hd).congr fun _ _ => rfl
  held := nofun
  only := h.only

theorem tracks (h : s.Pictures [] f) (hk : f.WellFormed) : s.Tracks [] f := ⟨h, hk.stocked, hk.held⟩

end Registry.Pictures

theorem Surgery.silent_eq {α : Type} {x : Surgery α} {a : α} (h : x s = .ok a s') :
    (do let _ ← x : Surgery Unit) s = .ok () s' := Surgery.bind_eq h

theorem Edit.Upholds.of_ok {α : Type} {I : Func → Prop} {x : Edit α} {a : α} (h : Edit.Upholds I x)
    (hf : I f) (hrun : x f = .ok a f') : I f' := by
  have hi := h f hf
  rwa [Edit.outcome, hrun] at hi

/-! ## One request -/

theorem reshapes_tracks (hr : r.reshapes = true) (h : s.Tracks [] f) (hl : r.live f = true)
    (hrun : r.run f = .ok () f') : ∃ s', r.restructure f s = .ok () s' ∧ s'.Tracks [] f' := by
  have silent {α : Type} {x : Surgery α} (h : ∃ a s', x s = .ok a s' ∧ s'.Tracks [] f') :
      ∃ s', (do let _ ← x : Surgery Unit) s = .ok () s' ∧ s'.Tracks [] f' := by
    obtain ⟨a, s', hs, ht⟩ := h
    exact ⟨s', Surgery.silent_eq hs, ht⟩
  cases r with
  | newBlock label =>
    obtain ⟨_, hrun⟩ := Edit.silent_ok hrun
    exact silent ⟨_, newBlock_tracks h hrun⟩
  | newSequence elements =>
    obtain ⟨_, hrun⟩ := Edit.silent_ok hrun
    exact silent ⟨_, newSequence_tracks h hrun⟩
  | newFork cond cases =>
    obtain ⟨_, hrun⟩ := Edit.silent_ok hrun
    exact silent ⟨_, newFork_tracks h (Option.all_eq_true _ _ |>.mp hl) hrun⟩
  | newLoop start cond body update after =>
    obtain ⟨_, hrun⟩ := Edit.silent_ok hrun
    obtain ⟨hcond, hafter⟩ := Bool.and_eq_true_iff.mp hl
    exact silent ⟨_, newLoop_tracks h (Option.all_eq_true _ _ |>.mp hcond)
      (Option.all_eq_true _ _ |>.mp hafter) hrun⟩
  | setBody c => exact setBody_tracks h ⟨rfl, rfl⟩ hrun
  | insertElement q i c => exact insertElement_tracks h (hasSeq_of_kind hl) ⟨rfl, rfl⟩ hrun
  | appendElement q c => exact appendElement_tracks h (hasSeq_of_kind hl) ⟨rfl, rfl⟩ hrun
  | removeElement q i =>
    obtain ⟨_, hrun⟩ := Edit.silent_ok hrun
    exact silent ⟨_, removeElement_tracks h (hasSeq_of_kind hl) hrun⟩
  | replaceElement q i c =>
    obtain ⟨_, hrun⟩ := Edit.silent_ok hrun
    exact silent ⟨_, replaceElement_tracks h (hasSeq_of_kind hl) ⟨rfl, rfl⟩ hrun⟩
  | addCase k c => exact addCase_tracks h (hasFork_of_kind hl) ⟨rfl, rfl⟩ hrun
  | removeCase k i =>
    obtain ⟨_, hrun⟩ := Edit.silent_ok hrun
    exact silent ⟨_, removeCase_tracks h (hasFork_of_kind hl) hrun⟩
  | _ => cases hr

/-- Without a variable to define there is nothing to do; else a block is put in front of the body,
and what follows leaves the trees alone. -/
theorem defineUndefined_tracks {vars : List Variable} (h : s.Tracks [] f)
    (hrun : Edit.defineUndefined f = .ok vars f') :
    ∃ s', Request.defineUndefined.restructure f s = .ok () s' ∧ s'.Pictures [] f' := by
  obtain ⟨hu, hrun⟩ := Edit.unfrozen_bind_ok hrun
  obtain ⟨found, f₀, hask, hrun⟩ := Edit.bind_ok hrun
  obtain ⟨hverify, hf₀⟩ := Edit.ask_ok hask
  rw [hf₀, Edit.bind_eq Edit.get_eq] at hrun
  rw [Request.restructure, hverify]
  dsimp only at hrun ⊢
  cases hvars : found.filterMap Violation.undefinedVar? with
  | nil =>
    rw [hvars] at hrun
    cases hrun
    exact ⟨s, rfl, h.toPictures⟩
  | cons v vs =>
    have hne : ((v :: vs).eraseDups.map f.varAt).isEmpty = false := by
      rw [List.eraseDups_cons]
      rfl
    rw [hvars, hne, if_neg Bool.false_ne_true] at hrun
    obtain ⟨e, f₁, hnew, hrun⟩ := Edit.bind_ok hrun
    obtain ⟨_, f₂, hfront, hrun⟩ := Edit.bind_ok hrun
    obtain ⟨s', hs, ht⟩ := prependBlock_tracks h hnew hfront
    exact ⟨s', hs, (supply_upholds (Registry.Pictures.ofTrees s') e _).of_ok ht.toPictures hrun⟩

theorem Request.restructure_pictures (hk : f.WellFormed) (h : s.Pictures [] f)
    (hl : r.live f = true)
    (hrun : r.run f = .ok () f') : ∃ s', r.restructure f s = .ok () s' ∧ s'.Pictures [] f' := by
  have ht := h.tracks hk
  cases hr : r.reshapes with
  | true =>
    obtain ⟨s', hs, ht⟩ := reshapes_tracks hr ht hl hrun
    exact ⟨s', hs, ht.toPictures⟩
  | false =>
  cases hc : r.composed with
  | false =>
    refine ⟨s, ?_, (quiet_upholds (Registry.Pictures.ofTrees s) hr hc).of_ok h hrun⟩
    cases r with
    | _ => first | rfl | cases hr; done | cases hc
  | true =>
  cases r with
  | split b position =>
    obtain ⟨_, hrun⟩ := Edit.silent_ok hrun
    obtain ⟨s', f₂, hs, ht, hsettle⟩ := split_tracks ht hk hl hrun
    exact ⟨s', Surgery.silent_eq hs, (settleHalves_upholds (Registry.Pictures.ofTrees s')
      (fun hk => hk.of_graph ⟨rfl, rfl, rfl, rfl, rfl, rfl, fun _ => rfl⟩) _ _ _).of_ok
        ht.toPictures hsettle⟩
  | flatten c =>
    obtain ⟨_, hrun⟩ := Edit.silent_ok hrun
    rw [live, Bool.or_eq_true, decide_eq_true_eq] at hl
    obtain ⟨s', f₁, hs, ht, n, hprune⟩ := flatten_tracks ht hl hrun
    exact ⟨s', Surgery.silent_eq hs,
      (pruneIncoming_upholds (Registry.Pictures.ofTrees s')).of_ok ht.toPictures hprune⟩
  | defineUndefined =>
    obtain ⟨_, hrun⟩ := Edit.silent_ok hrun
    exact defineUndefined_tracks ht hrun
  | freeze =>
    obtain ⟨n, f₁, hresolve, -, rfl⟩ := freeze_ok hrun
    have h₁ : s.Pictures [] f₁ := (quiet_upholds (r := .resolveAll) (Registry.Pictures.ofTrees s)
      rfl rfl).of_ok h (Edit.silent_eq hresolve)
    exact ⟨_, rfl, h₁.sealed⟩
  | _ => cases hc

/-! ## Runs -/

theorem Registry.new_pictures (handle : Nat) (name : String) :
    (Registry.new handle name).Pictures [] (Func.new handle name) where
  handle := rfl
  frozen := rfl
  size := rfl
  root := rfl
  body := ⟨rfl, nofun⟩
  detached := nofun
  held := nofun
  only i hi := by
    rw [Registry.new, Arena.get?_push, Arena.get?_push] at hi
    split at hi
    · next he => exact .inr (he ▸ List.mem_singleton_self _)
    · split at hi
      · next he => exact .inl he
      · rw [Arena.get?_empty] at hi
        cases hi

theorem Registered.reached (h : Registered f s) : Reached f := by
  induction h with
  | new handle name => exact .new handle name
  | step _ hr _ ih => exact ih.step hr

theorem Registered.pictures (h : Registered f s) : s.Pictures [] f := by
  induction h with
  | new handle name => exact Registry.new_pictures handle name
  | step h hr hs ih =>
    obtain ⟨s', hs', hp⟩ := Request.restructure_pictures h.reached.wellFormed ih
      (Request.live_of_grant hr) (Request.run_of_grant hr)
    cases hs.symm.trans hs'
    exact hp

theorem Registered.serves (h : Registered f s) (hr : r.grant f = some f') :
    ∃ s', r.restructure f s = .ok () s' ∧ s'.Pictures [] f' :=
  Request.restructure_pictures h.reached.wellFormed h.pictures (Request.live_of_grant hr)
    (Request.run_of_grant hr)

/-- After every run of requests the records form a forest, which is the one that the function has,
and the registry carries out whatever is granted next. -/
theorem Registered.components_owned (h : Registered f s) : s.Owned ∧ s.Pictures [] f ∧
    ∀ {r : Request} {f' : Func}, r.grant f = some f' → ∃ s', r.restructure f s = .ok () s' :=
  ⟨h.pictures.owned h.reached.wellFormed.forest, h.pictures,
    fun hr => (h.serves hr).imp fun _ hs => hs.1⟩

/-- The registry goes along with every function that is reached. -/
theorem Reached.registered (h : Reached f) : ∃ s, Registered f s := by
  induction h with
  | new handle name => exact ⟨_, .new handle name⟩
  | step _ hr ih =>
    obtain ⟨s, h⟩ := ih
    obtain ⟨s', hs, -⟩ := h.serves hr
    exact ⟨s', h.step hr hs⟩

def Request.register (p : Func × Registry) (r : Request) : Option (Func × Registry) :=
  match r.grant p.1, r.restructure p.1 p.2 with
  | some f', .ok _ s' => some (f', s')
  | _, _ => none

theorem Registered.of_register {p p' : Func × Registry} (h : Registered p.1 p.2)
    (hr : r.register p = some p') : Registered p'.1 p'.2 := by
  rw [Request.register] at hr
  split at hr
  · next hgrant hs =>
    cases hr
    exact h.step hgrant hs
  · cases hr

theorem Registered.exists_of_requests (handle : Nat) (name : String) (rs : List Request)
    (q : Registry → Bool) (h : (rs.foldlM Request.register
      (.new handle name, .new handle name)).any (fun p => q p.2) = true) :
    ∃ f s, Registered f s ∧ q s = true := by
  suffices key : ∀ (rs : List Request) (p p' : Func × Registry), Registered p.1 p.2 →
      rs.foldlM Request.register p = some p' → Registered p'.1 p'.2 by
    cases hp : rs.foldlM Request.register (.new handle name, .new handle name) with
    | none =>
      rw [hp] at h
      cases h
    | some p =>
      rw [hp] at h
      exact ⟨p.1, p.2, key rs _ p (.new handle name) hp, h⟩
  intro rs
  induction rs with
  | nil =>
    intro p p' hp h
    cases h
    exact hp
  | cons r rs ih =>
    intro p p' hp h
    rw [List.foldlM_cons] at h
    obtain ⟨p₁, hr, h⟩ := Option.bind_eq_some_iff.mp h
    exact ih p₁ p' (hp.of_register hr) h

/-- The condition of a fork in the body of a loop is cut, and a fork that is the body of the
function in place of the loop is flattened. -/
def exchangedBody : List Request :=
  [.newBlock "b", .newFork none [⟨0, 3, .block, "b"⟩],
    .newLoop none none (some ⟨0, 5, .fork, ""⟩) none none, .setBody ⟨0, 10, .loop, ""⟩,
    .split ⟨0, 4, .block, "cond"⟩ 0, .newBlock "c", .newFork none [⟨0, 13, .block, "c"⟩],
    .setBody ⟨0, 15, .fork, ""⟩, .flatten 15]

theorem exchangedBody_owned : ∃ f s, Registered f s ∧
    s.nodes.get? 16 = some ⟨some rootId, .seq [14, 13]⟩ ∧
    s.nodes.get? 5 = some ⟨some 12, .fork (some 11) [3]⟩ ∧
    (s.nodes.get? 10).map Stored.parent = some none ∧ s.nodes.get? 15 = none ∧ s.Owned := by
  obtain ⟨f, s, h, hfacts⟩ := Registered.exists_of_requests 0 "f" exchangedBody
    (fun s => decide (s.nodes.get? 16 = some ⟨some rootId, .seq [14, 13]⟩ ∧
      s.nodes.get? 5 = some ⟨some 12, .fork (some 11) [3]⟩ ∧
      (s.nodes.get? 10).map Stored.parent = some none ∧ s.nodes.get? 15 = none))
    (by decide +kernel)
  obtain ⟨hbody, hcond, hloop, hfork⟩ := of_decide_eq_true hfacts
  exact ⟨f, s, h, hbody, hcond, hloop, hfork, h.components_owned.1⟩

end

end DefFlow.Flow
