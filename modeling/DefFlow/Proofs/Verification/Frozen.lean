import DefFlow.Proofs.Edits.Relink
import DefFlow.Proofs.Runs.Coherent
import DefFlow.Proofs.Runs.Questions
import DefFlow.Proofs.Runs.Requests

/-!
# Frozen functions

Main statement: whatever is asked of a frozen function, all that can change in it is what its
nodes are bound to. Edits are refused and leave the function as it is, and questions build
nothing. Binding a node is the exception: it does not look whether the function is frozen.
-/

set_option autoImplicit false

namespace DefFlow.Flow

open Func

section

variable {f f' : Func} {v : VarId} {b : NodeId}

theorem freeze_ok {u : Unit} (h : Edit.freeze f = .ok u f') : ∃ n f₁,
    Edit.resolveAll f = .ok n f₁ ∧ f₁.verify = .ok [] ∧ f' = { f₁ with frozen := true } := by
  rw [Edit.freeze] at h
  obtain ⟨-, h⟩ := Edit.unfrozen_bind_ok h
  obtain ⟨n, f₁, hresolve, h⟩ := Edit.bind_ok h
  obtain ⟨found, f₂, hask, h⟩ := Edit.bind_ok h
  obtain ⟨hverify, rfl⟩ := Edit.ask_ok hask
  cases found with
  | nil =>
    cases h
    exact ⟨n, f₂, hresolve, hverify, rfl⟩
  | cons x rest =>
    obtain ⟨_, _, -, h⟩ := Edit.bind_ok h
    cases h

/-- The nodes of a timeline of `b` are those of its predecessors, and those that are bound to
a timeline are bound to one that decides a value inside the body. -/
structure Func.Live (f : Func) (b : NodeId) (t : TimelineId) : Prop where
  edge : ∀ n ∈ (f.timelineAt t).incoming, (f.incomingAt n).pred ∈ f.preds b
  complete : (f.timelineAt t).incoming ≠ [] → ∀ p ∈ f.preds b,
    ∃ n ∈ (f.timelineAt t).incoming, (f.incomingAt n).pred = p
  target : ∀ n ∈ (f.timelineAt t).incoming, ∀ x,
    (f.incomingAt n).target.bind f.timelines.get? = some x →
      x.isEmpty = false ∧ f.attached x.block = true

theorem live_of_verifyIncoming {t : TimelineId} (h : f.verifyIncoming (f.preds b) t = []) :
    f.Live b t := by
  rw [verifyIncoming] at h
  split at h
  next hnil =>
    rw [List.isEmpty_iff] at hnil
    constructor <;> simp [hnil]
  next hne =>
    rw [List.append_eq_nil_iff, List.map_eq_nil_iff, List.map_eq_nil_iff, List.filter_eq_nil_iff,
      List.filter_eq_nil_iff] at h
    obtain ⟨hdangling, hmissing⟩ := h
    simp only [dangling, Bool.not_eq_true, Bool.or_eq_false_iff, Bool.not_eq_false',
      List.contains_iff_mem] at hdangling
    refine ⟨fun n hn => (hdangling n hn).1, fun _ p hp => ?_, fun n hn x hx => ?_⟩
    · have hp := hmissing p hp
      rw [Bool.not_eq_true, Option.isNone_eq_false_iff, incomingFrom?, List.find?_isSome] at hp
      obtain ⟨n, hn, hpn⟩ := hp
      exact ⟨n, hn, by simpa using hpn⟩
    · simpa [hx] using (hdangling n hn).2

theorem verifyIncoming_of_verifyTimeline {t : TimelineId} (h : f.verifyTimeline b v t = .ok []) :
    f.verifyIncoming (f.preds b) t = [] := by
  rw [verifyTimeline] at h
  split at h
  · exact Except.ok.inj h
  · obtain ⟨r, -, h⟩ := of_bind_ok h
    cases r with
    | none => exact Except.ok.inj h
    | some partly => exact (List.append_eq_nil_iff.mp (Except.ok.inj h)).1

theorem live_of_verify (h : f.verify = .ok []) (hb : b ∈ f.blocks) {e : VarId × TimelineId}
    (he : e ∈ (f.blockAt b).timelines) : f.Live b e.2 := by
  rw [verify] at h
  obtain ⟨found, hfound, h⟩ := of_bind_ok h
  have hnil : found.flatten.flatten = [] := Except.ok.inj h
  obtain ⟨xs, hxs, hblock⟩ := forall₂_left (of_mapM_ok hfound) hb
  obtain ⟨ys, hys, htimeline⟩ := forall₂_left (of_mapM_ok hblock) he
  have hempty : ys = [] := List.flatten_eq_nil_iff.mp hnil ys (List.mem_flatten.mpr ⟨xs, hxs, hys⟩)
  exact live_of_verifyIncoming (verifyIncoming_of_verifyTimeline (hempty ▸ htimeline))

end

end DefFlow.Flow

/-! ## What a frozen function keeps -/

namespace DefFlow.Flow

open Func

/-! ## What a call leaves behind -/

section

variable {α β : Type} {f : Func} {I : Func → Prop}

def Edit.outcome (x : Edit α) (f : Func) : Func :=
  match x f with
  | .ok _ f' => f'
  | .error _ f' => f'

theorem Edit.outcome_ok {x : Edit α} {a : α} {f' : Func} (h : x f = .ok a f') :
    x.outcome f = f' := by
  rw [Edit.outcome, h]

theorem Edit.outcome_error {x : Edit α} {e : EditError} {f' : Func} (h : x f = .error e f') :
    x.outcome f = f' := by
  rw [Edit.outcome, h]

def Edit.Upholds (I : Func → Prop) (x : Edit α) : Prop := ∀ f, I f → I (x.outcome f)

namespace Edit.Upholds

theorem pure (a : α) : Upholds I (Pure.pure a : Edit α) := fun _ h => h

theorem refuse (op : Operation) (r : Refusal) : Upholds I (Edit.refuse op r : Edit α) :=
  fun _ h => h

theorem bind {x : Edit α} {g : α → Edit β} (hx : Upholds I x) (hg : ∀ a, Upholds I (g a)) :
    Upholds I (x >>= g) := by
  intro f h
  have hout := hx f h
  cases hrun : x f with
  | ok a f' =>
    rw [outcome_ok hrun] at hout
    have heq : (x >>= g).outcome f = (g a).outcome f' := by
      rw [outcome, outcome, bind_eq hrun]
    rw [heq]
    exact hg a f' hout
  | error e f' =>
    rw [outcome_error hrun] at hout
    rw [outcome_error (bind_error hrun)]
    exact hout

theorem get_bind {g : Func → Edit β} (h : ∀ k, I k → I ((g k).outcome k)) :
    Upholds I (get >>= g) := fun k hk => h k hk

theorem change {change : Func → Func} (h : ∀ k, I k → I (change k)) :
    Upholds I (modify change : Edit PUnit) := fun k hk => h k hk

theorem require (p : Bool) (op : Operation) (r : Refusal) : Upholds I (Edit.require p op r) := by
  cases p with
  | true => exact .pure ()
  | false => exact .refuse op r

theorem ask (q : Func → Except EditError α) : Upholds I (Edit.ask q) := by
  refine .get_bind fun k hk => ?_
  cases q k with
  | ok a => exact hk
  | error e => exact hk

theorem ite {p : Prop} [Decidable p] {x y : Edit α} (hx : Upholds I x) (hy : Upholds I y) :
    Upholds I (if p then x else y) := by
  split
  · exact hx
  · exact hy

theorem foldlM {σ : Type} {g : σ → α → Edit σ} (h : ∀ s a, Upholds I (g s a)) (l : List α) (s : σ) :
    Upholds I (l.foldlM g s) := by
  induction l generalizing s with
  | nil => exact .pure s
  | cons a l ih =>
    rw [List.foldlM_cons]
    exact .bind (h s a) ih

theorem forIn_mem {g : α → PUnit → Edit (ForInStep PUnit)} {l : List α}
    (h : ∀ a ∈ l, ∀ u, Upholds I (g a u)) : Upholds I (ForIn.forIn l PUnit.unit g) := by
  induction l with
  | nil => exact .pure _
  | cons a l ih =>
    rw [List.forIn_cons]
    refine .bind (h a List.mem_cons_self ⟨⟩) fun s => ?_
    cases s with
    | done b => exact .pure b
    | yield b => exact ih fun a ha => h a (List.mem_cons_of_mem _ ha)

theorem forIn {g : α → PUnit → Edit (ForInStep PUnit)} (h : ∀ a u, Upholds I (g a u))
    (l : List α) : Upholds I (ForIn.forIn l PUnit.unit g) := forIn_mem fun a _ => h a

theorem silent {x : Edit α} (h : Upholds I x) : Upholds I (Edit.silent x) :=
  .bind h fun _ => .pure _

end Edit.Upholds

end

/-! ## Questions -/

section

variable {f g : Func} {b : NodeId} {v : VarId}

/-- Nothing but the resolutions that are remembered has changed. -/
def Func.UpToMemo (f g : Func) : Prop := g = { f with memo := g.memo }

theorem Func.UpToMemo.refl (f : Func) : f.UpToMemo f := rfl

theorem Func.UpToMemo.trans {k : Func} (h : f.UpToMemo g) (h' : g.UpToMemo k) :
    f.UpToMemo k := by
  rw [UpToMemo] at h h' ⊢
  rw [h', h]

theorem Func.UpToMemo.frozen (h : f.UpToMemo g) : g.frozen = f.frozen := by rw [h]

/-- A question that may build no join leaves the function, or what its search has found is
remembered. -/
theorem answer_outcome {q : Question} (hq : (q.probe || f.frozen) = true) :
    (Edit.answer q).outcome f = f ∨ ∃ s, f.memo.lookup q = none ∧
      f.solve q.block q.var = .ok s ∧
      (Edit.answer q).outcome f = { f with memo := (q, s) :: f.memo } := by
  cases hb : f.resolvable q.block with
  | error e =>
    rw [Edit.outcome, Edit.answer, Edit.ask, bind_assoc, Edit.bind_eq Edit.get_eq, hb]
    exact Or.inl rfl
  | ok _ =>
  cases hm : f.memo.lookup q with
  | some s => exact Or.inl (Edit.outcome_ok (Edit.answer_of_memo hb hm))
  | none =>
    cases hs : f.solve q.block q.var with
    | error e =>
      rw [Edit.outcome, Edit.answer, Edit.bind_eq (Edit.ask_eq hb), Edit.bind_eq Edit.get_eq, hm]
      dsimp only
      rw [Edit.ask, bind_assoc, Edit.bind_eq Edit.get_eq, hs]
      exact Or.inl rfl
    | ok s => exact Or.inr ⟨s, rfl, rfl, Edit.outcome_ok (Edit.answer_of_solve hb hq hm hs)⟩

/-- A frozen function builds no join to answer a question. -/
theorem answer_reads (hf : f.frozen = true) (q : Question) :
    Edit.Upholds f.UpToMemo (Edit.answer q) := by
  intro k hk
  have hq : (q.probe || k.frozen) = true := by rw [hk.frozen.trans hf, Bool.or_true]
  rcases answer_outcome hq with h | ⟨s, -, -, h⟩
  · rw [h]
    exact hk
  · rw [h]
    exact hk.trans rfl

section

variable {I : Func → Prop} {P : NodeId → Prop}
  (hI : ∀ {b} v, P b → Edit.Upholds I (Edit.stackAt b v))

include hI

theorem resolveAt_upholds (hb : P b) (v : VarId) : Edit.Upholds I (Edit.resolveAt b v) :=
  .bind (hI v hb) fun _ => .ask _

omit hI in
theorem ownQuery_upholds (b : ComponentRef) (v : Variable) :
    Edit.Upholds I (Edit.ownQuery b v) :=
  .bind (.get_bind fun _ hk => hk) fun _ => .require _ _ _

theorem resolve_upholds {b : ComponentRef} (hb : P b.id) (v : Variable) :
    Edit.Upholds I (Edit.resolve b v) :=
  .bind (ownQuery_upholds b v) fun _ => resolveAt_upholds hI hb _

theorem resolveAll_upholds (hblocks : ∀ k : Func, I k → ∀ b ∈ k.blocks, P b) :
    Edit.Upholds I Edit.resolveAll := by
  have hround : ∀ b, P b → ∀ e u, Edit.Upholds I (Edit.askWaiting b e u) := by
    intro b hb e u
    refine .get_bind fun k hk => ?_
    split
    · exact hk
    · exact Edit.Upholds.bind (hI _ hb) (fun _ => .pure _) k hk
  have hget : Edit.Upholds I (get : Edit Func) := fun _ hk => hk
  rw [resolveAll_eq]
  refine .bind hget fun _ => .get_bind fun k hk => Edit.Upholds.bind
    (.forIn_mem fun b hb _ => ?_) (fun _ => .bind hget fun _ => .pure _) k hk
  exact .bind hget fun _ => .bind (.forIn (hround b (hblocks k hk b hb)) _) fun _ => .pure _

end

def Request.asks : Request → Bool
  | .resolve _ _ | .resolveStack _ _ | .resolveAll | .probe _ _ | .reachingDef _
  | .reachingAt _ _ _ | .reachingElsewhere _ | .outgoing _ | .member _ _ | .verify
  | .print => true
  | _ => false

def Request.about (f : Func) : Request → NodeId → Prop
  | .resolve b _ | .resolveStack b _ | .probe b _ | .reachingAt b _ _ => (· = b.id)
  | .resolveAll => (· ∈ f.blocks)
  | .reachingDef u => fun b => (f.inst u.inst).block = some b
  | .outgoing t => (· = (f.timelineAt t).block)
  | _ => fun _ => False

/-- Asking keeps what answers about the blocks in question keep. -/
theorem Request.asks_keep {I : Func → Prop} {P : NodeId → Prop} {r : Request}
    (hanswer : ∀ {q : Question}, P q.block → Edit.Upholds I (Edit.answer q))
    (hP : ∀ k, I k → ∀ b, r.about k b → P b) (hr : r.asks = true) : Edit.Upholds I r.run := by
  have hget : Edit.Upholds I (get : Edit Func) := fun _ hk => hk
  have hI : ∀ {b : NodeId} (v : VarId), P b → Edit.Upholds I (Edit.stackAt b v) :=
    fun {b} v hb => hanswer (q := ⟨b, v, false⟩) hb
  cases r with
  | resolve b v =>
    refine .silent fun k hk => resolve_upholds hI (hP k hk _ rfl) v k hk
  | resolveStack b v =>
    refine .silent fun k hk => ?_
    exact Edit.Upholds.bind (ownQuery_upholds b v) (fun _ => hI v.id (hP k hk _ rfl)) k hk
  | resolveAll => exact .silent (resolveAll_upholds hI hP)
  | probe b v =>
    refine .silent fun k hk => Edit.Upholds.bind (ownQuery_upholds b v) (fun _ => ?_) k hk
    exact .bind (hanswer (q := ⟨b.id, v.id, true⟩) (hP k hk _ rfl)) fun _ => .ask _
  | reachingDef u =>
    refine .silent (.get_bind fun k hk => ?_)
    split
    · exact Edit.Upholds.refuse _ _ k hk
    · next b hb =>
      split
      · exact hk
      · exact Edit.Upholds.bind (resolveAt_upholds hI (hP k hk b hb) _)
          (fun _ => .bind hget fun _ => .pure _) k hk
  | reachingAt b position v =>
    refine .silent (.get_bind fun k hk => ?_)
    split
    · exact hk
    · exact Edit.Upholds.bind (resolve_upholds hI (hP k hk _ rfl) v)
        (fun _ => .bind hget fun _ => .pure _) k hk
  | reachingElsewhere decided =>
    refine .silent ?_
    cases decided with
    | some i => exact .pure _
    | none => exact .bind hget fun _ => .refuse _ _
  | outgoing t =>
    refine .silent (.get_bind fun k hk => ?_)
    exact Edit.Upholds.ite (.pure _) (.bind (resolveAt_upholds hI (hP k hk _ rfl) _)
      fun _ => .bind hget fun _ => .pure _) k hk
  | member loop role =>
    refine .silent (.bind hget fun k => ?_)
    split
    all_goals first | exact .pure _ | exact .refuse _ _
  | verify => exact .silent (.ask _)
  | print => exact .silent (.ask _)
  | _ => cases hr

theorem Request.asks_upholds {I : Func → Prop} (hI : ∀ q, Edit.Upholds I (Edit.answer q))
    {r : Request} (hr : r.asks = true) : Edit.Upholds I r.run :=
  asks_keep (P := fun _ => True) (fun _ => hI _) (fun _ _ _ _ => trivial) hr

theorem Request.asks_reads {r : Request} (hr : r.asks = true) (hf : f.frozen = true) :
    Edit.Upholds f.UpToMemo r.run :=
  asks_upholds (answer_reads hf) hr

end

/-! ## Edits -/

section

variable {α β : Type} {f : Func}

def Edit.Refused (x : Edit α) (f : Func) : Prop := ∃ op, x f = .error ⟨op, .frozen f.name⟩ f

namespace Edit.Refused

theorem bind {x : Edit α} {g : α → Edit β} (h : Refused x f) : Refused (x >>= g) f := by
  obtain ⟨op, hx⟩ := h
  exact ⟨op, bind_error hx⟩

theorem after {x : Edit α} {g : α → Edit β} {a : α} (hx : x f = .ok a f) (h : Refused (g a) f) :
    Refused (x >>= g) f := by
  obtain ⟨op, hg⟩ := h
  exact ⟨op, by rw [bind_eq hx, hg]⟩

theorem unfrozen (hf : f.frozen = true) (op : Operation) : Refused (Edit.unfrozen op) f := by
  refine ⟨op, ?_⟩
  rw [Edit.unfrozen, bind_eq get_eq, require, hf]
  rfl

theorem insertInst (hf : f.frozen = true) (op : Operation) (b : NodeId) (position : Nat)
    (code : Opcode) (dest : Option Variable) (args : List Arg) :
    Refused (Edit.insertInst op b position code dest args) f :=
  .bind (.bind (.unfrozen hf op))

theorem insertElement (hf : f.frozen = true) (s : NodeId) (i : Int) (c : ComponentRef) :
    Refused (Edit.insertElement s i c) f :=
  .bind (.unfrozen hf _)

end Edit.Refused

/-- The requests that bind nodes without looking whether the function is frozen. -/
def Request.rebinds : Request → Bool
  | .bind _ _ | .propagateFor _ _ _ | .refer _ _ => true
  | _ => false

/-- The requests that change trees, code, timelines or nodes, those that bind nodes apart. -/
def Request.edits (r : Request) : Bool := !r.asks && !r.rebinds

/-- Why an edit of a frozen function is refused: it is frozen, unless the place of a new
instruction is looked at first and turned down. -/
def Func.RefusesFor (f : Func) (why : Refusal) : Prop :=
  why = .frozen f.name ∨ why = .amongPhis ∨ ∃ label, why = .notInBlock label

theorem insertInstBefore_refused (hf : f.frozen = true) (b : NodeId) (i : InstRef) (code : Opcode)
    (dest : Option Variable) (args : List Arg) : ∃ op why,
    Edit.insertInstBefore b i code dest args f = .error ⟨op, why⟩ f ∧ f.RefusesFor why := by
  rw [Edit.insertInstBefore, Edit.bind_eq Edit.get_eq, Edit.standsIn, bind_assoc,
    Edit.bind_eq Edit.get_eq, pure_bind]
  by_cases hstands : (i.owner = f.handle && (f.inst i.id).block = some b) = true
  · rw [Edit.bind_eq (Edit.require_eq hstands _ _)]
    by_cases hphi : (f.inst i.id).op = .phi
    · exact ⟨_, .amongPhis, by rw [hphi]; rfl, Or.inr (Or.inl rfl)⟩
    · rw [Edit.bind_eq (Edit.require_eq (by simpa using hphi) _ _)]
      obtain ⟨op, hrun⟩ := Edit.Refused.insertInst hf .insertInstBefore b (f.indexOf i.id) code
        dest args
      exact ⟨op, _, hrun, Or.inl rfl⟩
  · rw [Bool.not_eq_true] at hstands
    exact ⟨_, _, by rw [hstands]; rfl, Or.inr (Or.inr ⟨_, rfl⟩)⟩

theorem Request.edits_refused {r : Request} (hr : r.edits = true) (hf : f.frozen = true) :
    ∃ op why, r.run f = .error ⟨op, why⟩ f ∧ f.RefusesFor why := by
  have frozen {x : Edit Unit} (h : Edit.Refused x f) :
      ∃ op why, x f = .error ⟨op, why⟩ f ∧ f.RefusesFor why := by
    obtain ⟨op, hx⟩ := h
    exact ⟨op, _, hx, Or.inl rfl⟩
  have first (op : Operation) := Edit.Refused.unfrozen hf op
  cases r with
  | addVariable name type => exact frozen (.bind (.bind (first _)))
  | addArgument name type => exact frozen (.bind (.bind (.bind (first _))))
  | addReturn name type => exact frozen (.bind (.bind (.bind (first _))))
  | newBlock label => exact frozen (.bind (.bind (first _)))
  | newSequence elements => exact frozen (.bind (.bind (first _)))
  | newFork cond cases => exact frozen (.bind (.bind (first _)))
  | newLoop start cond body update after => exact frozen (.bind (.bind (first _)))
  | setBody c => exact frozen (.bind (first _))
  | insertElement s i c => exact frozen (.insertElement hf s i c)
  | appendElement s c =>
    have hread : ∃ es, Edit.elementsOf s f = .ok es f := by
      rw [Edit.elementsOf, Edit.bind_eq Edit.get_eq]
      cases f.find? s with
      | none => exact ⟨_, rfl⟩
      | some c => cases c <;> exact ⟨_, rfl⟩
    obtain ⟨es, hread⟩ := hread
    exact frozen (.after hread (.insertElement hf _ _ _))
  | removeElement s i => exact frozen (.bind (.bind (first _)))
  | replaceElement s i c => exact frozen (.bind (.bind (.bind (first _))))
  | addCase s c => exact frozen (.bind (first _))
  | removeCase s i => exact frozen (.bind (.bind (first _)))
  | appendInst b code dest args =>
    exact frozen (.bind (.after Edit.get_eq (.insertInst hf _ _ _ _ _ _)))
  | prependInst b code dest args =>
    exact frozen (.bind (.after Edit.get_eq (.insertInst hf _ _ _ _ _ _)))
  | insertInstBefore b i code dest args =>
    obtain ⟨op, why, hrun, hwhy⟩ := insertInstBefore_refused hf b i code dest args
    exact ⟨op, why, Edit.bind_error hrun, hwhy⟩
  | removeInst b i => exact frozen (.bind (first _))
  | createPhi b v => exact frozen (.bind (.bind (first _)))
  | split b position => exact frozen (.bind (.bind (first _)))
  | flatten c => exact frozen (.bind (.bind (first _)))
  | pruneIncoming => exact frozen (.bind (.bind (first _)))
  | defineUndefined => exact frozen (.bind (.bind (first _)))
  | appendLocal t i => exact frozen (.bind (first _))
  | appendIncoming t pred target => exact frozen (.bind (.bind (first _)))
  | propagate t cache => exact frozen (.bind (.bind (first _)))
  | freeze => exact frozen (.bind (first _))
  | _ => cases hr

end

/-! ## Bindings -/

def Timeline.unlisted (x : Timeline) : Timeline := { x with referrers := [] }

def Incoming.unbound (i : Incoming) : Incoming := { i with target := none }

section

variable {f g : Func} {n : IncomingId} {t : TimelineId}

/-- Nothing but what nodes are bound to, and the resolutions that are remembered, has changed. -/
structure Func.UpToBindings (f g : Func) : Prop where
  rest : g = { f with timelines := g.timelines, incoming := g.incoming, memo := g.memo }
  timelines : ∀ t, (g.timelines.get? t).map Timeline.unlisted =
    (f.timelines.get? t).map Timeline.unlisted
  nodes : ∀ n, (g.incoming.get? n).map Incoming.unbound = (f.incoming.get? n).map Incoming.unbound

theorem Func.UpToBindings.refl (f : Func) : f.UpToBindings f := ⟨rfl, fun _ => rfl, fun _ => rfl⟩

theorem Func.UpToBindings.frozen (h : f.UpToBindings g) : g.frozen = f.frozen := by rw [h.rest]

theorem Func.UpToBindings.name (h : f.UpToBindings g) : g.name = f.name := by rw [h.rest]

theorem Func.UpToBindings.handle (h : f.UpToBindings g) : g.handle = f.handle := by rw [h.rest]

theorem Func.UpToBindings.upToMemo {k : Func} (h : f.UpToBindings g) (hk : g.UpToMemo k) :
    f.UpToBindings k := by
  rw [UpToMemo] at hk
  rw [hk]
  exact ⟨by rw [h.rest], h.timelines, h.nodes⟩

theorem Func.UpToBindings.trans {k : Func} (h : f.UpToBindings g) (h' : g.UpToBindings k) :
    f.UpToBindings k where
  rest := by rw [h'.rest, h.rest]
  timelines t := (h'.timelines t).trans (h.timelines t)
  nodes n := (h'.nodes n).trans (h.nodes n)

def Func.SparesBindings (I : Func → Prop) : Prop :=
  ∀ {k k'}, I k → k.UpToBindings k' → (k'.memo = k.memo ∨ k'.memo = []) → I k'

theorem Func.UpToBindings.spares (f : Func) : SparesBindings f.UpToBindings :=
  fun h h' _ => h.trans h'

section

variable {I : Func → Prop} (hI : SparesBindings I)

include hI

theorem changeReferrers_upholds (t : TimelineId) (change : List IncomingId → List IncomingId) :
    Edit.Upholds I
      (Edit.changeTimeline t fun x => { x with referrers := change x.referrers }) := by
  refine .change fun k hk => hI hk ⟨rfl, fun u => ?_, fun _ => rfl⟩ (Or.inl rfl)
  rw [Arena.get?_modify_map, Option.map_map]
  congr 1
  funext x
  by_cases hu : t = u
  · simp [hu, Timeline.unlisted]
  · simp [hu]

theorem bump_upholds : Edit.Upholds I Edit.bump :=
  .change fun k hk => hI hk ((UpToBindings.refl k).upToMemo rfl) (Or.inr rfl)

theorem aim_upholds (n : IncomingId) (target : Option TimelineId) :
    Edit.Upholds I (Edit.aim n target) := by
  have hset : Edit.Upholds I (modify fun f =>
      { f with incoming := f.incoming.modify n fun x => { x with target } } : Edit PUnit) := by
    refine .change fun k hk => hI hk ⟨rfl, fun _ => rfl, fun m => ?_⟩ (Or.inl rfl)
    rw [Arena.get?_modify_map, Option.map_map]
    congr 1
    funext x
    by_cases hm : n = m
    · simp [hm, Incoming.unbound]
    · simp [hm]
  refine .get_bind fun k hk => ?_
  cases (k.incomingAt n).target with
  | none => exact hset k hk
  | some old =>
    exact Edit.Upholds.bind (changeReferrers_upholds hI old (·.erase n)) (fun _ => hset) k hk

theorem addReferrer_upholds (t : TimelineId) (n : IncomingId) :
    Edit.Upholds I (Edit.addReferrer t n) :=
  changeReferrers_upholds hI t (· ++ [n])

theorem rebind_upholds (n : IncomingId) (target : Option TimelineId) :
    Edit.Upholds I (Edit.rebind n target) := by
  refine .get_bind fun k hk => ?_
  cases target with
  | none =>
    exact Edit.Upholds.ite (.pure _) (.bind (aim_upholds hI n none) fun _ =>
      .bind (bump_upholds hI) fun _ => .pure _) k hk
  | some t =>
    exact Edit.Upholds.bind (.require _ _ _) (fun _ => .ite (.pure _) (.bind (aim_upholds hI n _)
      fun _ => .bind (addReferrer_upholds hI t n) fun _ => .bind (bump_upholds hI) fun _ =>
        .pure _)) k hk

theorem bindTo_upholds (n : IncomingId) (target : Option TimelineRef) :
    Edit.Upholds I (Edit.bindTo n target) := by
  have hget : Edit.Upholds I (get : Edit Func) := fun _ hk => hk
  cases target with
  | none => exact rebind_upholds hI n none
  | some t =>
    exact .bind hget fun _ => .ite (rebind_upholds hI n _) (.bind hget fun _ =>
      .bind (.require _ _ _) fun _ => .ite (.pure _) (.bind (aim_upholds hI n _) fun _ =>
        .bind (bump_upholds hI) fun _ => .pure _))

theorem rebindNodes_upholds {o : Edit.Outlook} (ho : ∀ b v, Edit.Upholds I (o.leaving b v))
    (v : VarId) (admitted : List NodeId) (step : PropagationStep) (nodes : List IncomingId) :
    Edit.Upholds I (Edit.rebindNodes o v admitted step nodes) := by
  refine .foldlM (fun count n => .get_bind fun k hk => ?_) nodes 0
  have hbind (T : Option TimelineId) : Edit.Upholds I
      (do if ← Edit.rebind n T then return count + 1 else return count : Edit Nat) :=
    .bind (rebind_upholds hI n T) fun _ => .ite (.pure _) (.pure _)
  refine Edit.Upholds.ite (.pure _) ?_ k hk
  exact .ite (.bind (.pure _) hbind) (.bind (ho _ v) hbind)

omit hI in
theorem carriedOn_upholds (v : VarId) (mark : IncomingId) (step : PropagationStep) :
    Edit.Upholds I (Edit.carriedOn v mark step) := by
  refine .get_bind fun k hk => ?_
  cases k.timelineId? step.block v with
  | none => exact Edit.Upholds.ite (.pure _) (.pure _) k hk
  | some t =>
    exact Edit.Upholds.ite (.ite (.pure _) (.pure _))
      (.ite (.pure _) (.ite (.pure _) (.pure _))) k hk

theorem spread_upholds {o : Edit.Outlook} (ho : ∀ b v, Edit.Upholds I (o.leaving b v))
    (v : VarId) (fuel : Nat) (queue : List PropagationStep) (visited : List (NodeId × NodeId))
    (count : Nat) : Edit.Upholds I (Edit.spread o v fuel queue visited count) := by
  have hget : Edit.Upholds I (get : Edit Func) := fun _ hk => hk
  induction fuel generalizing queue visited count with
  | zero =>
    rw [Edit.spread]
    exact .pure _
  | succ fuel ih =>
    cases queue with
    | nil =>
      rw [Edit.spread]
      · exact .pure _
      · exact Nat.succ_ne_zero fuel
    | cons step queue =>
      rw [Edit.spread]
      refine .bind hget fun _ => .bind (rebindNodes_upholds hI ho v _ step _) fun _ =>
        .bind (carriedOn_upholds v o.mark step) fun carried => ?_
      cases carried with
      | none => exact ih _ _ _
      | some value => exact .bind hget fun _ => ih _ _ _

theorem announce_upholds {o : Edit.Outlook} (ho : ∀ b v, Edit.Upholds I (o.leaving b v))
    (t : TimelineId) (cache : Option IncomingCache) : Edit.Upholds I (Edit.announce o t cache) := by
  refine .get_bind fun k hk => ?_
  exact Edit.Upholds.ite (.pure _) (spread_upholds hI ho _ _ _ _ _) k hk

theorem propagateFor_upholds (asking : Func) (t : TimelineId) (cache : Option IncomingCache) :
    Edit.Upholds I (Edit.propagateFor asking t cache) := by
  have hleaving (b : NodeId) (v : VarId) :
      Edit.Upholds I ((Edit.Outlook.foreign asking).leaving b v) := by
    refine .get_bind fun k hk => ?_
    cases k.explicit? b v with
    | some t => exact hk
    | none => exact hk
  exact announce_upholds hI hleaving t cache

theorem Request.rebinds_upholds {r : Request} (hr : r.rebinds = true) : Edit.Upholds I r.run := by
  cases r with
  | bind n target => exact .silent (bindTo_upholds hI n target)
  | propagateFor asking t cache => exact .silent (propagateFor_upholds hI asking t cache)
  | refer t n => exact addReferrer_upholds hI t n
  | _ => cases hr

end

/-- A node can be bound to any timeline of its variable, frozen or not. -/
theorem bindTo_granted {i : Incoming} (hi : f.incoming.get? n = some i)
    {target : Option TimelineRef} (htarget : ∀ t ∈ target, t.owner = f.handle ∧
      (f.timelineAt t.id).var = (f.timelineAt i.owner).var) :
    ∃ c f', Edit.bindTo n target f = .ok c f' ∧
      (f'.incomingAt n).target = target.map TimelineRef.id := by
  rw [bindTo_eq fun t ht => (htarget t ht).1]
  have hvar : ∀ t, target.map TimelineRef.id = some t →
      (f.timelineAt t).var = (f.timelineAt i.owner).var := by
    intro t ht
    obtain ⟨x, hx, rfl⟩ := Option.map_eq_some_iff.mp ht
    exact (htarget x hx).2
  by_cases hsame : i.target = target.map TimelineRef.id
  · exact ⟨_, _, rebind_of_eq hi hsame hvar, by rw [incomingAt_of_get? hi, hsame]⟩
  · exact ⟨_, _, rebind_of_ne hi hsame hvar, by
      rw [incomingAt, get?_rebound hi, if_pos rfl, Option.getD_some]⟩

/-! ## Sequences of requests -/

def Request.serve (f : Func) (r : Request) : Func := r.run.outcome f

def Request.serveAll (f : Func) (rs : List Request) : Func := rs.foldl serve f

theorem Func.UpToMemo.serve (h : f.UpToMemo g) (hf : f.frozen = true) {r : Request}
    (hr : r.rebinds = false) : f.UpToMemo (r.serve g) := by
  cases ha : r.asks with
  | true => exact Request.asks_reads ha hf g h
  | false =>
    have hedits : r.edits = true := by rw [Request.edits, ha, hr]; rfl
    obtain ⟨op, why, hrun, -⟩ := Request.edits_refused hedits (h.frozen.trans hf)
    rw [Request.serve, Edit.outcome_error hrun]
    exact h

theorem Func.UpToBindings.serve (h : f.UpToBindings g) (hf : f.frozen = true) (r : Request) :
    f.UpToBindings (r.serve g) := by
  cases hr : r.rebinds with
  | true => exact Request.rebinds_upholds (UpToBindings.spares f) hr g h
  | false => exact h.upToMemo ((UpToMemo.refl g).serve (h.frozen.trans hf) hr)

theorem Func.UpToMemo.serveAll (hf : f.frozen = true) {rs : List Request}
    (hrs : ∀ r ∈ rs, r.rebinds = false) (h : f.UpToMemo g) :
    f.UpToMemo (Request.serveAll g rs) := by
  induction rs generalizing g with
  | nil => exact h
  | cons r rs ih =>
    obtain ⟨hr, hrs⟩ := List.forall_mem_cons.mp hrs
    exact ih hrs (h.serve hf hr)

theorem Func.UpToBindings.serveAll (hf : f.frozen = true) (rs : List Request)
    (h : f.UpToBindings g) : f.UpToBindings (Request.serveAll g rs) := by
  induction rs generalizing g with
  | nil => exact h
  | cons r rs ih => exact ih (h.serve hf r)

/-- After any requests to a frozen function it has its tree, its code, its timelines and its
nodes as they were frozen, but for what the nodes are bound to; if no node has been bound by
hand or for another function, also that. Every edit is refused and changes nothing, except
that any node can be bound to any timeline of its variable, or to none. -/
theorem freeze_seals_but_bindings {f₀ f : Func} {u : Unit} (h : Edit.freeze f₀ = .ok u f)
    (rs : List Request) :
    f.UpToBindings (Request.serveAll f rs) ∧
    ((∀ r ∈ rs, r.rebinds = false) → f.UpToMemo (Request.serveAll f rs)) ∧
    (∀ r : Request, r.edits = true → ∃ op why,
      r.run (Request.serveAll f rs) = .error ⟨op, why⟩ (Request.serveAll f rs) ∧
        f.RefusesFor why) ∧
    ∀ n i, (Request.serveAll f rs).incoming.get? n = some i → ∀ target : Option TimelineRef,
      (∀ t ∈ target, t.owner = f.handle ∧ ((Request.serveAll f rs).timelineAt t.id).var =
        ((Request.serveAll f rs).timelineAt i.owner).var) →
      ∃ c g, Edit.bindTo n target (Request.serveAll f rs) = .ok c g ∧
        (g.incomingAt n).target = target.map TimelineRef.id := by
  obtain ⟨_, f₁, -, -, rfl⟩ := freeze_ok h
  have hsame := (UpToBindings.refl { f₁ with frozen := true }).serveAll rfl rs
  refine ⟨hsame, fun hrs => (UpToMemo.refl _).serveAll rfl hrs, fun r hr => ?_, ?_⟩
  · obtain ⟨op, why, hrun, hwhy⟩ := Request.edits_refused hr hsame.frozen
    refine ⟨op, why, hrun, ?_⟩
    rwa [RefusesFor, hsame.name] at hwhy
  · intro n i hi target htarget
    exact bindTo_granted hi fun t ht => ⟨(htarget t ht).1.trans hsame.handle.symm, (htarget t ht).2⟩

def sealedDiamond : List Request :=
  let x : Variable := ⟨0, 1, "x", .int 64, 0⟩
  [.addVariable "x" (.int 64), .newBlock "left", .newBlock "right",
    .newFork none [⟨0, 3, .block, "left"⟩, ⟨0, 4, .block, "right"⟩], .newBlock "join",
    .appendElement 2 ⟨0, 6, .fork, ""⟩, .appendElement 2 ⟨0, 7, .block, "join"⟩,
    .appendInst 3 .undef (some x) [], .appendInst 4 .undef (some x) [],
    .appendInst 7 .copy (some x) [.var x]]

theorem sealedDiamond_unbound : ∃ f₀ f g, Reached f₀ ∧ Edit.freeze f₀ = .ok () f ∧
    (f.incomingAt 1).target = some 1 ∧
    f.UpToMemo (Request.serveAll f [.newBlock "new", .split ⟨0, 7, .block, "join"⟩ 0,
      .resolveAll, .pruneIncoming, .verify]) ∧
    Edit.bindTo 1 none f = .ok true g ∧ (g.incomingAt 1).target = none := by
  obtain ⟨f₀, hf₀, hpass⟩ := Reached.exists_of_requests 0 "f" sealedDiamond
    (Edit.passes Edit.freeze fun _ f => Edit.passes (Edit.bindTo 1 none)
      (fun c _ => decide (c = true ∧ (f.incomingAt 1).target = some 1 ∧
        (f.incoming.get? 1).isSome)) f) (by decide +kernel)
  obtain ⟨_, f, hfreeze, hpass⟩ := Edit.of_passes hpass
  obtain ⟨c, g, hbind, hfacts⟩ := Edit.of_passes hpass
  obtain ⟨rfl, htarget, hnode⟩ := of_decide_eq_true hfacts
  obtain ⟨i, hi⟩ := Option.isSome_iff_exists.mp hnode
  refine ⟨f₀, f, g, hf₀, hfreeze, htarget, (freeze_seals_but_bindings hfreeze _).2.1 (by decide),
    hbind, ?_⟩
  obtain ⟨c, g', hbind', hnone⟩ := (freeze_seals_but_bindings hfreeze []).2.2.2 1 i hi none nofun
  cases hbind.symm.trans hbind'
  exact hnone

end

end DefFlow.Flow
