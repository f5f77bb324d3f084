import DefFlow.Proofs.Edits.Divide
import DefFlow.Proofs.Runs.Calls
import DefFlow.Proofs.Runs.Requests

/-!
# What requests keep

The steps of a run: a live request that is granted changes trees, links timelines and nodes, or
gives out names, and leaves a well-formed function well-formed. So is the function that a run
starts with.
-/

set_option autoImplicit false

namespace DefFlow.Flow

open Func Component

section

variable {f f' : Func} {b : NodeId} {t : TimelineId} {u : Unit}

/-! ## Requests that change no lists -/

/-- The names of a function, and whether it is frozen, have no bearing on its parts. -/
theorem Func.WellFormed.renamed (h : f.WellFormed) (vars : List Variable)
    (args returns : List VarId)
    (frozen : Bool) : WellFormed { f with
      vars := vars, args := args, returns := returns, frozen := frozen } := by
  have hstocked : Stocked [] { f with
      vars := vars, args := args, returns := returns, frozen := frozen } :=
    ⟨h.stocked.nodup, h.stocked.bounded, h.stocked.stored⟩
  exact ⟨⟨h.held, hstocked, h.linked.congr ⟨fun _ => rfl, fun _ => rfl, rfl⟩ hstocked
    (fun _ hb => hb) (.inl rfl), h.scheduled.congr (fun _ => rfl) (fun _ => rfl) (fun _ _ => rfl)
    fun _ => rfl, fun b v => h.books b v⟩,
    h.phisFirst.congr (fun _ => rfl) (fun _ => rfl) fun _ => ⟨rfl, rfl⟩⟩

def Renames (f f' : Func) : Prop :=
  f' = { f with vars := f'.vars, args := f'.args, returns := f'.returns }

theorem addVariable_renames {name : String} {type : ValueType} {v : Variable}
    (hrun : Edit.addVariable name type f = .ok v f') : Renames f f' := by
  obtain ⟨_, hrun⟩ := Edit.unfrozen_bind_ok hrun
  rw [Edit.bind_eq Edit.get_eq] at hrun
  obtain ⟨_, hrun⟩ := Edit.require_bind_ok hrun
  cases hrun
  rfl

theorem addArgument_renames {name : String} {type : ValueType} {v : Variable}
    (hrun : Edit.addArgument name type f = .ok v f') : Renames f f' := by
  obtain ⟨w, f₁, hadd, hrun⟩ := Edit.bind_ok hrun
  cases hrun
  have h := addVariable_renames hadd
  rw [Renames] at h ⊢
  rw [h]

theorem addReturn_renames {name : String} {type : ValueType} {v : Variable}
    (hrun : Edit.addReturn name type f = .ok v f') : Renames f f' := by
  obtain ⟨w, f₁, hadd, hrun⟩ := Edit.bind_ok hrun
  cases hrun
  have h := addVariable_renames hadd
  rw [Renames] at h ⊢
  rw [h]

theorem freeze_wellFormed (h : f.WellFormed) (hrun : Edit.freeze f = .ok u f') : f'.WellFormed := by
  obtain ⟨_, hrun⟩ := Edit.unfrozen_bind_ok hrun
  obtain ⟨_, f₁, hall, hrun⟩ := Edit.bind_ok hrun
  have h₁ := (resolveAll_weaves h.linked hall).toRelinks.wellFormed h
  obtain ⟨found, f₂, hask, hrun⟩ := Edit.bind_ok hrun
  obtain ⟨_, rfl⟩ := Edit.ask_ok hask
  cases found with
  | nil =>
    cases hrun
    exact h₁.renamed f₂.vars f₂.args f₂.returns true
  | cons v found => cases hrun

theorem member_same {loop c : NodeId} {role : Role}
    (hrun : Edit.member loop role f = .ok c f') : f' = f := by
  rw [Edit.member, Edit.bind_eq Edit.get_eq] at hrun
  cases hfind : f.find? loop with
  | none =>
    rw [hfind] at hrun
    cases hrun
  | some d =>
    rw [hfind] at hrun
    cases d <;> cases role <;> cases hrun <;> rfl

theorem reachingElsewhere_same {decided : Option InstId} {r : Reaching}
    (hrun : Edit.reachingElsewhere decided f = .ok r f') : f' = f := by
  cases decided with
  | none => cases hrun
  | some i =>
    cases hrun
    rfl

/-- Every definition of a block is listed, so none can be listed behind the others. -/
theorem not_appendLocal (h : f.WellFormed) (ht : f.hasTimeline t = true) {i : InstRef} :
    Edit.appendLocal t i f ≠ .ok u f' := by
  intro hrun
  obtain ⟨x, hx⟩ := Option.isSome_iff_exists.mp ht
  have hid := h.linked.tables.listed hx
  obtain ⟨_, hrun⟩ := Edit.unfrozen_bind_ok hrun
  rw [Edit.bind_eq Edit.get_eq, timelineAt_of_get? hx] at hrun
  obtain ⟨hin, hrun⟩ := standsIn_bind_ok h.scheduled hrun
  obtain ⟨hdest, hrun⟩ := Edit.require_bind_ok hrun
  obtain ⟨_, hrun⟩ := Edit.require_bind_ok hrun
  obtain ⟨horder, _⟩ := Edit.require_bind_ok hrun
  have hlocals := h.linked.tables.locals_eq hid
  rw [timelineAt_of_get? hx, h.scheduled.locals] at hlocals
  have hmem : i.id ∈ x.locals.map Local.inst := by
    rw [← hlocals, List.mem_filter]
    exact ⟨List.mem_of_getElem? hin, hdest⟩
  have hsorted := (h.scheduled.pairwise_code x.block).filter (f.defines x.var)
  rw [hlocals] at hsorted
  cases hlast : x.locals.getLast? with
  | none =>
    rw [List.getLast?_eq_none_iff.mp hlast] at hmem
    cases hmem
  | some l =>
    rw [hlast, Option.all_some, decide_eq_true_eq] at horder
    obtain ⟨ls, hls⟩ := List.getLast?_eq_some_iff.mp hlast
    rw [hls, List.map_append] at hmem hsorted
    rcases List.mem_append.mp hmem with hm | hm
    · have := (List.pairwise_append.mp hsorted).2.2 i.id hm l.inst List.mem_cons_self
      exact Nat.lt_asymm horder this
    · rw [List.mem_singleton.mp hm] at horder
      exact Nat.lt_irrefl _ horder

theorem Func.WellFormed.stored_of_block (h : f.WellFormed) {i : InstId}
    (hb : (f.inst i).block = some b) :
    (f.nodes.get? b).isSome := by
  obtain ⟨k, hk⟩ := List.mem_iff_getElem?.mp (h.scheduled.seated.block_iff.mp hb)
  exact stored_of_code hk

/-! ## Definitions at the start -/

/-- Nothing is undefined, or a new block gets its place at the start, joins behind it get nodes for
it, and last it gets a definition of each variable. -/
theorem defineUndefined_steps {vars : List Variable} (h : f.WellFormed)
    (hrun : Edit.defineUndefined f = .ok vars f') : (vars = [] ∧ f' = f) ∨
      ∃ e f₂ f₃, Restocks f f₂ ∧ Relinks f₂ f₃ ∧ (f₃.nodes.get? e).isSome ∧ vars ≠ [] ∧ (do
        for v in vars do
          let _ ← Edit.appendInst e .undef (some v) []
        return vars : Edit (List Variable)) f₃ = .ok vars f' := by
  obtain ⟨_, hrun₁⟩ := Edit.unfrozen_bind_ok hrun
  obtain ⟨found, f₀, hask, hrun₂⟩ := Edit.bind_ok hrun₁
  obtain ⟨_, rfl⟩ := Edit.ask_ok hask
  rw [Edit.bind_eq Edit.get_eq] at hrun₂
  dsimp only at hrun₂
  split at hrun₂
  · cases hrun₂
    exact Or.inl ⟨rfl, rfl⟩
  next hvars =>
  generalize ((found.filterMap Violation.undefinedVar?).eraseDups.map f₀.varAt) = ws at hvars hrun₂
  obtain ⟨e, f₁, hnew, hrun₃⟩ := Edit.bind_ok hrun₂
  obtain ⟨_, f₂, hput, hrun₄⟩ := Edit.bind_ok hrun₃
  have hblock := newBlock_stocked h.stocked hnew
  have hput := prependBlock_restocks hblock.stocked hput
  have hr : Restocks f₀ f₂ := .trans ⟨hblock.toReplants, hblock.stocked⟩ hput
  have h₂ : f₂.WellFormed := hr.wellFormed h
  have he : (f₂.nodes.get? e).isSome := hput.blocks e hblock.stored
  rw [Edit.bind_eq Edit.get_eq] at hrun₄
  obtain ⟨f₃, hlinked, hrun₅⟩ := Edit.forIn_ok (fun _ g => Relinks f₂ g)
    (fun done s rest g x g' _ hg hstep => by
      obtain ⟨g₁, hg₁, hdone⟩ := Edit.forIn_ok (fun _ g => Relinks f₂ g)
        (fun done y rest g x g' hl hg hstep => by
          obtain ⟨v, t⟩ := y
          dsimp only at hstep
          split at hstep
          · obtain ⟨n, g₁, hlink, hnext⟩ := Edit.bind_ok hstep
            cases hnext
            have hm : (v, t) ∈ (f₂.blockAt s).timelines :=
              hl ▸ List.mem_append_right _ List.mem_cons_self
            have hid : f₂.timelineId? s v = some t := lookup_of_mem (h₂.linked.tables.keys s) hm
            exact ⟨rfl, hg.trans (linkIncoming_relinks hg.linked (hg.id hid)
              (by rw [hg.stored]; exact he) (fun _ hn => by cases hn) hlink).1⟩
          · cases hstep
            exact ⟨rfl, hg⟩) hg hstep
      cases hdone
      exact ⟨rfl, hg₁⟩) (.refl h₂.linked) hrun₄
  have hws : ws = vars := by
    obtain ⟨_, -, hret⟩ := Edit.forIn_ok (fun _ _ => True) (fun done v rest g s g' _ _ hstep => by
      obtain ⟨i, g₁, -, hnext⟩ := Edit.bind_ok hstep
      cases hnext
      exact ⟨rfl, trivial⟩) trivial hrun₅
    cases hret
    rfl
  subst hws
  refine Or.inr ⟨e, f₂, f₃, hr, hlinked, by rw [hlinked.stored]; exact he, ?_, hrun₅⟩
  rintro rfl
  exact hvars rfl

theorem defineUndefined_memoCorrect {vars : List Variable} (h : f.WellFormed)
    (hrun : Edit.defineUndefined f = .ok vars f') : f' = f ∨ f'.MemoCorrect := by
  rcases defineUndefined_steps h hrun with ⟨-, rfl⟩ | ⟨e, f₂, f₃, hr, hlinked, he, hvars, happends⟩
  · exact Or.inl rfl
  -- The last instruction that is appended makes the function forget.
  obtain ⟨f₄, hformed, hdone⟩ :=
      Edit.forIn_ok (fun done g => g.WellFormed ∧ (g.nodes.get? e).isSome ∧
      (done ≠ [] → g.MemoCorrect))
    (fun done v rest g s g' _ hg hstep => by
      obtain ⟨i, g₁, happend, hnext⟩ := Edit.bind_ok hstep
      cases hnext
      obtain ⟨hk, hsame⟩ := appendInst_memoCorrect hg.1 hg.2.1 happend
      exact ⟨rfl, hk.toWellFormed, by rw [hsame.stored]; exact hg.2.1, fun _ => hk⟩)
    ⟨hlinked.wellFormed (hr.wellFormed h), he, fun hne => absurd rfl hne⟩ happends
  cases hdone
  exact Or.inr (hformed.2.2 hvars)

/-! ## One request -/

namespace Request

def reshapes : Request → Bool
  | .newBlock _ | .newSequence _ | .newFork _ _ | .newLoop _ _ _ _ _ | .setBody _
  | .insertElement _ _ _ | .appendElement _ _ | .removeElement _ _ | .replaceElement _ _ _
  | .addCase _ _ | .removeCase _ _ => true
  | _ => false

def threads : Request → Bool
  | .propagate _ _ | .bind _ _ | .resolve _ _ | .resolveStack _ _ | .resolveAll | .probe _ _
  | .reachingDef _ | .reachingAt _ _ _ | .reachingElsewhere _ | .outgoing _ | .member _ _
  | .verify | .print => true
  | _ => false

theorem restocks {r : Request} (hr : r.reshapes = true) (h : f.Stocked []) (hl : r.live f = true)
    (hrun : r.run f = .ok () f') : Restocks f f' := by
  cases r with
  | newBlock label =>
    obtain ⟨_, hrun⟩ := Edit.silent_ok hrun
    have hnew := newBlock_stocked h hrun
    exact ⟨hnew.toReplants, hnew.stocked⟩
  | newSequence elements =>
    obtain ⟨_, hrun⟩ := Edit.silent_ok hrun
    exact newSequence_restocks h hrun
  | newFork cond cases =>
    obtain ⟨_, hrun⟩ := Edit.silent_ok hrun
    exact newFork_restocks h (Option.all_eq_true _ _ |>.mp hl) hrun
  | newLoop start cond body update after =>
    obtain ⟨_, hrun⟩ := Edit.silent_ok hrun
    obtain ⟨hcond, hafter⟩ := Bool.and_eq_true_iff.mp hl
    exact newLoop_restocks h (Option.all_eq_true _ _ |>.mp hcond)
      (Option.all_eq_true _ _ |>.mp hafter) hrun
  | setBody c => exact (setBody_restocks h hrun).1
  | insertElement s i c => exact (insertElement_restocks h (hasSeq_of_kind hl) hrun).1
  | appendElement s c => exact (appendElement_restocks h (hasSeq_of_kind hl) hrun).1
  | removeElement s i =>
    obtain ⟨_, hrun⟩ := Edit.silent_ok hrun
    exact (removeElement_restocks h (hasSeq_of_kind hl) hrun).1
  | replaceElement s i c =>
    obtain ⟨_, hrun⟩ := Edit.silent_ok hrun
    exact replaceElement_restocks h (hasSeq_of_kind hl) hrun
  | addCase s c => exact (addCase_restocks h (hasFork_of_kind hl) hrun).1
  | removeCase s i =>
    obtain ⟨_, hrun⟩ := Edit.silent_ok hrun
    exact removeCase_restocks h (hasFork_of_kind hl) hrun
  | _ => cases hr

theorem weaves {r : Request} (hr : r.threads = true) (h : f.WellFormed) (hl : r.live f = true)
    (hrun : r.run f = .ok () f') : Weaves f f' := by
  cases r with
  | propagate t cache =>
    obtain ⟨_, hrun⟩ := Edit.silent_ok hrun
    exact propagate_weaves h.linked hl hrun
  | bind n target =>
    obtain ⟨_, hrun⟩ := Edit.silent_ok hrun
    rw [Request.live, Bool.and_eq_true] at hl
    exact bindTo_weaves h.linked hl.1 hl.2 hrun
  | resolve b v =>
    obtain ⟨_, hrun⟩ := Edit.silent_ok hrun
    exact resolve_weaves h.linked hl hrun
  | resolveStack b v =>
    obtain ⟨_, hrun⟩ := Edit.silent_ok hrun
    exact resolveStack_weaves h.linked hl hrun
  | resolveAll =>
    obtain ⟨_, hrun⟩ := Edit.silent_ok hrun
    exact resolveAll_weaves h.linked hrun
  | probe b v =>
    obtain ⟨_, hrun⟩ := Edit.silent_ok hrun
    exact reprobe_weaves h.linked hl hrun
  | reachingDef u =>
    obtain ⟨_, hrun⟩ := Edit.silent_ok hrun
    exact reachingDef_weaves h.linked (fun b => h.stored_of_block) hrun
  | reachingAt b position v =>
    obtain ⟨_, hrun⟩ := Edit.silent_ok hrun
    exact reachingAt_weaves h.linked hl hrun
  | reachingElsewhere decided =>
    obtain ⟨_, hrun⟩ := Edit.silent_ok hrun
    rw [reachingElsewhere_same hrun]
    exact .refl h.linked
  | outgoing t =>
    obtain ⟨_, hrun⟩ := Edit.silent_ok hrun
    exact outgoing_weaves h.linked hl hrun
  | member loop role =>
    obtain ⟨_, hrun⟩ := Edit.silent_ok hrun
    rw [member_same hrun]
    exact .refl h.linked
  | verify =>
    obtain ⟨_, hrun⟩ := Edit.silent_ok hrun
    rw [(Edit.ask_ok hrun).2]
    exact .refl h.linked
  | print =>
    obtain ⟨_, hrun⟩ := Edit.silent_ok hrun
    rw [(Edit.ask_ok hrun).2]
    exact .refl h.linked
  | _ => cases hr

end Request

/-! ## The first function -/

theorem new_wellFormed (handle : Nat) (name : String) : (Func.new handle name).WellFormed := by
  have hcode : ∀ b, (Func.new handle name).code b = [] := fun b => by
    rw [code, blockAt_new]
    rfl
  have hstocked : (Func.new handle name).Stocked [] := {
    nodup := List.nodup_singleton 2
    bounded := fun i hi => bounded_new hi
    stored := fun b => by
      rw [get?_nodes_new]
      exact iff_of_false List.not_mem_nil Bool.false_ne_true }
  have hu := new_unjoined handle name
  refine ⟨⟨rfl, hstocked, ⟨⟨hu.tables, hstocked.stored_preds⟩, fun {n i} hi => ?_, fun b v => ?_,
    fun hm => by cases hm⟩, hu.scheduled, fun b v => ?_⟩, fun b i hi => ?_,
        fun b i hi => ?_, fun b => ?_⟩
  · rw [show (Func.new handle name).incoming = .empty from rfl, Arena.get?_empty] at hi
    cases hi
  · rw [feeds, joinNodes, timeline?_new]
    exact List.nodup_nil
  · rw [account_of_none (timeline?_new handle name b v), events, hcode]
    rfl
  · rw [Func.phis, hcode, List.take_nil] at hi
    cases hi
  · rw [plain, hcode, List.drop_nil] at hi
    cases hi
  · rw [Func.phis, hcode, List.take_nil]
    exact .nil

end

end DefFlow.Flow
