import DefFlow.Proofs.Resolution.Roots
import DefFlow.Proofs.Verification.Frozen

/-!
# Edits that do not look at what is remembered

An edit is blind if it does the same, and is refused for the same reason, whatever answers are
remembered. Main statement: a question that nothing is remembered of is answered blindly, so
forgetting all other answers makes no difference to it.
-/

set_option autoImplicit false

namespace DefFlow.Flow

open Func

section

variable {α β : Type} {f g : Func} {s : Stack}

inductive Edit.Agrees : EStateM.Result EditError Func α → EStateM.Result EditError Func α → Prop
  | ok (a : α) {f g : Func} (h : f.UpToMemo g) : Agrees (.ok a f) (.ok a g)
  | error (e : EditError) {f g : Func} (h : f.UpToMemo g) : Agrees (.error e f) (.error e g)

def Edit.Blind (x : Edit α) : Prop :=
  ∀ (f : Func) (m : List (Question × Stack)), Agrees (x f) (x { f with memo := m })

namespace Edit.Blind

theorem ok {x : Edit α} {a : α} (hx : Blind x) (h : x f = .ok a g) (m : List (Question × Stack)) :
    ∃ g', x { f with memo := m } = .ok a g' ∧ g.UpToMemo g' := by
  have hagrees := hx f m
  rw [h] at hagrees
  generalize hk : x { f with memo := m } = rk at hagrees
  cases hagrees with
  | ok _ h => exact ⟨_, rfl, h⟩

theorem pure (a : α) : Blind (Pure.pure a : Edit α) := fun _ _ => .ok a rfl

theorem refuse (op : Operation) (r : Refusal) : Blind (Edit.refuse op r : Edit α) :=
  fun _ _ => .error _ rfl

theorem bind {x : Edit α} {g : α → Edit β} (hx : Blind x) (hg : ∀ a, Blind (g a)) :
    Blind (x >>= g) := by
  intro f m
  have hagrees := hx f m
  generalize hf : x f = rf, hk : x { f with memo := m } = rk at hagrees
  cases hagrees with
  | @ok a k k' h =>
    rw [bind_eq hf, bind_eq hk, h]
    exact hg a k k'.memo
  | error e h =>
    rw [bind_error hf, bind_error hk]
    exact .error e h

/-- An edit that goes on in the same way whatever is remembered. -/
theorem read {x : Func → Edit β} (h : ∀ f, Blind (x f))
    (hx : ∀ (f : Func) (m : List (Question × Stack)), x { f with memo := m } = x f) :
    Blind (MonadState.get >>= x) := by
  intro f m
  show Agrees (x f f) (x { f with memo := m } { f with memo := m })
  rw [hx f m]
  exact h f f m

theorem change {change : Func → Func} (h : ∀ (f : Func) (m : List (Question × Stack)),
    (change f).UpToMemo (change { f with memo := m })) : Blind (modify change : Edit PUnit) :=
  fun f m => .ok _ (h f m)

theorem require (p : Bool) (op : Operation) (r : Refusal) : Blind (Edit.require p op r) := by
  cases p with
  | true => exact .pure ()
  | false => exact .refuse op r

theorem ask {q : Func → Except EditError α}
    (h : ∀ (f : Func) (m : List (Question × Stack)), q { f with memo := m } = q f) :
    Blind (Edit.ask q) := by
  refine .read (fun f => ?_) fun f m => by rw [h]
  cases q f with
  | ok a => exact .pure a
  | error e => exact fun _ _ => .error e rfl

theorem ite {p : Prop} [Decidable p] {x y : Edit α} (hx : Blind x) (hy : Blind y) :
    Blind (if p then x else y) := by
  split
  · exact hx
  · exact hy

theorem mapM {x : α → Edit β} (h : ∀ a, Blind (x a)) (l : List α) : Blind (l.mapM x) := by
  induction l with
  | nil => exact .pure _
  | cons a l ih =>
    rw [List.mapM_cons]
    exact .bind (h a) fun _ => .bind ih fun _ => .pure _

end Edit.Blind

open Edit

/-! ## Timelines and nodes -/

theorem changeTimeline_blind (t : TimelineId) (change : Timeline → Timeline) :
    Blind (changeTimeline t change) := .change fun _ _ => rfl

theorem bump_blind : Blind bump := .change fun _ _ => rfl

theorem timelineFor_blind (b : NodeId) (v : VarId) : Blind (timelineFor b v) := by
  intro f m
  have hid : ({ f with memo := m } : Func).timelineId? b v = f.timelineId? b v := rfl
  rw [timelineFor, bind_eq get_eq, bind_eq get_eq, hid]
  cases f.timelineId? b v with
  | some t => exact .ok t rfl
  | none => exact .ok _ rfl

theorem aim_blind (n : IncomingId) (target : Option TimelineId) : Blind (aim n target) := by
  have hset : Blind (modify fun f =>
      { f with incoming := f.incoming.modify n fun x => { x with target } } : Edit PUnit) :=
    .change fun _ _ => rfl
  refine .read (fun f => ?_) fun _ _ => rfl
  cases (f.incomingAt n).target with
  | none => exact hset
  | some old => exact .bind (changeTimeline_blind _ _) fun _ => hset

theorem rebind_blind (n : IncomingId) (target : Option TimelineId) : Blind (rebind n target) := by
  refine .read (fun f => ?_) fun _ _ => rfl
  cases target with
  | none =>
    exact .ite (.pure _) (.bind (aim_blind n none) fun _ => .bind bump_blind fun _ => .pure _)
  | some t =>
    exact .bind (.require _ _ _) fun _ => .ite (.pure _) (.bind (aim_blind n _) fun _ =>
      .bind (changeTimeline_blind _ _) fun _ => .bind bump_blind fun _ => .pure _)

theorem linkIncoming_blind (t : TimelineId) (pred : NodeId) (target : Option TimelineId) :
    Blind (linkIncoming t pred target) := by
  refine .bind (.read (fun f => ?_) fun _ _ => rfl) fun _ => .pure _
  cases f.incomingFrom? t pred with
  | some n => exact .bind (rebind_blind n target) fun _ => .pure _
  | none =>
    have hlink (n : IncomingId) : Blind (do
        let changed ← rebind n target
        changeTimeline t fun x => { x with incoming := x.incoming ++ [n] }
        bump
        return (n, changed)) :=
      .bind (rebind_blind n target) fun _ => .bind (changeTimeline_blind _ _) fun _ =>
        .bind bump_blind fun _ => .pure _
    exact fun k m => hlink k.incoming.next { k with incoming := k.incoming.push ⟨t, pred, none⟩ } m

/-! ## Questions -/

theorem pathTarget_blind (s : Stack) (join : NodeId) (r : Reach) : Blind (pathTarget s join r) := by
  refine .bind (.ask fun _ _ => rfl) fun c => ?_
  cases c with
  | undefined => exact .pure _
  | timeline t => exact .pure _
  | join b => exact .bind (timelineFor_blind b _) fun _ => .pure _
  | pending b => exact .read (fun _ => .refuse _ _) fun _ _ => rfl

theorem buildJoins_blind (s : Stack) : Blind (buildJoins s) := by
  refine .bind (.mapM (fun join => ?_) _) fun _ => .pure _
  exact .bind (timelineFor_blind _ _) fun t => .mapM (fun (e : NodeId × Reach) =>
    .bind (pathTarget_blind s _ e.2) fun target => linkIncoming_blind t e.1 target) _

/-- Where nothing is remembered of a question, its answer does not depend on what else is. -/
theorem answer_blind {q : Question} (hm : f.memo.lookup q = none)
    (hrun : Edit.answer q f = .ok s g) :
    ∃ g', Edit.answer q { f with memo := [] } = .ok s g' ∧ g.UpToMemo g' := by
  obtain ⟨hparent, ⟨hm', -⟩ | ⟨-, s₀, f₁, hsolve, rfl, hbuild⟩⟩ := answer_cases hrun
  · rw [hm] at hm'
    cases hm'
  have hparent' : ({ f with memo := [] } : Func).resolvable q.block = .ok () := hparent
  have hs' := (solve_memo f [] q.block q.var).trans hsolve
  rcases hbuild with ⟨hq, rfl, rfl⟩ | ⟨hq, hbuild⟩
  · exact ⟨_, answer_of_solve hparent' hq rfl hs', rfl⟩
  · obtain ⟨g', hbuild', hup⟩ := (buildJoins_blind s₀).ok hbuild []
    exact ⟨_, answer_of_build hparent' hq rfl hs' hbuild', hup.trans rfl⟩

end

end DefFlow.Flow
