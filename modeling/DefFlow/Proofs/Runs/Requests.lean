import DefFlow.Flow.Printer
import DefFlow.Flow.Verify
import DefFlow.Proofs.State.Run

/-!
# Requests

Everything that can be asked of a function from outside, as data. A function is reached
by requests that name what there is and are granted.
-/

set_option autoImplicit false

namespace DefFlow.Flow

inductive Request where
  | addVariable (name : String) (type : ValueType)
  | addArgument (name : String) (type : ValueType)
  | addReturn (name : String) (type : ValueType)
  | newBlock (label : String)
  | newSequence (elements : List ComponentRef)
  | newFork (cond : Option ComponentRef) (cases : List ComponentRef)
  | newLoop (start cond body update after : Option ComponentRef)
  | setBody (c : ComponentRef)
  | insertElement (s : NodeId) (i : Int) (c : ComponentRef)
  | appendElement (s : NodeId) (c : ComponentRef)
  | removeElement (s : NodeId) (i : Int)
  | replaceElement (s : NodeId) (i : Int) (c : ComponentRef)
  | addCase (s : NodeId) (c : ComponentRef)
  | removeCase (s : NodeId) (i : Int)
  | appendInst (b : NodeId) (code : Opcode) (dest : Option Variable) (args : List Arg)
  | prependInst (b : NodeId) (code : Opcode) (dest : Option Variable) (args : List Arg)
  | insertInstBefore (b : NodeId) (i : InstRef) (code : Opcode) (dest : Option Variable)
      (args : List Arg)
  | removeInst (b : NodeId) (i : InstRef)
  | createPhi (b : NodeId) (v : Variable)
  | split (b : ComponentRef) (position : Int)
  | flatten (c : NodeId)
  | pruneIncoming
  | defineUndefined
  | appendLocal (t : TimelineId) (i : InstRef)
  | appendIncoming (t : TimelineId) (pred : ComponentRef) (target : Option TimelineRef)
  | propagate (t : TimelineId) (cache : Option IncomingCache)
  | freeze
  | bind (n : IncomingId) (target : Option TimelineRef)
  /-- A propagation that another function asks for. -/
  | propagateFor (asking : Func) (t : TimelineId) (cache : Option IncomingCache)
  /-- A node of another function has been bound to the timeline. -/
  | refer (t : TimelineId) (n : IncomingId)
  | resolve (b : ComponentRef) (v : Variable)
  | resolveStack (b : ComponentRef) (v : Variable)
  | resolveAll
  | probe (b : ComponentRef) (v : Variable)
  | reachingDef (u : UseSite)
  | reachingAt (b : ComponentRef) (position : Nat) (v : Variable)
  /-- A question about a place in another function. -/
  | reachingElsewhere (decided : Option InstId)
  | outgoing (t : TimelineId)
  | member (loop : NodeId) (role : Role)
  | verify
  | print

def Edit.silent {α : Type} (x : Edit α) : Edit Unit := do
  let _ ← x

namespace Request

open Edit

def run : Request → Edit Unit
  | .addVariable name type => silent (Edit.addVariable name type)
  | .addArgument name type => silent (Edit.addArgument name type)
  | .addReturn name type => silent (Edit.addReturn name type)
  | .newBlock label => silent (Edit.newBlock label)
  | .newSequence elements => silent (Edit.newSequence elements)
  | .newFork cond cases => silent (Edit.newFork cond cases)
  | .newLoop start cond body update after => silent (Edit.newLoop start cond body update after)
  | .setBody c => Edit.setBody c
  | .insertElement s i c => Edit.insertElement s i c
  | .appendElement s c => Edit.appendElement s c
  | .removeElement s i => silent (Edit.removeElement s i)
  | .replaceElement s i c => silent (Edit.replaceElement s i c)
  | .addCase s c => Edit.addCase s c
  | .removeCase s i => silent (Edit.removeCase s i)
  | .appendInst b code dest args => silent (Edit.appendInst b code dest args)
  | .prependInst b code dest args => silent (Edit.prependInst b code dest args)
  | .insertInstBefore b i code dest args => silent (Edit.insertInstBefore b i code dest args)
  | .removeInst b i => Edit.removeInst b i
  | .createPhi b v => silent (Edit.createPhi b v)
  | .split b position => silent (Edit.split b position)
  | .flatten c => silent (Edit.flatten c)
  | .pruneIncoming => silent Edit.pruneIncoming
  | .defineUndefined => silent Edit.defineUndefined
  | .appendLocal t i => Edit.appendLocal t i
  | .appendIncoming t pred target => silent (Edit.appendIncoming t pred target)
  | .propagate t cache => silent (Edit.propagate t cache)
  | .freeze => Edit.freeze
  | .bind n target => silent (Edit.bindTo n target)
  | .propagateFor asking t cache => silent (Edit.propagateFor asking t cache)
  | .refer t n => Edit.addReferrer t n
  | .resolve b v => silent (Edit.resolve b v)
  | .resolveStack b v => silent (Edit.resolveStack b v)
  | .resolveAll => silent Edit.resolveAll
  | .probe b v => silent (Edit.reprobe b v)
  | .reachingDef u => silent (Edit.reachingDef u)
  | .reachingAt b position v => silent (Edit.reachingAt b position v)
  | .reachingElsewhere decided => silent (Edit.reachingElsewhere decided)
  | .outgoing t => silent (Edit.outgoing t)
  | .member loop role => silent (Edit.member loop role)
  | .verify => silent (ask Func.verify)
  | .print => silent (ask Func.print)

end Request

namespace Func

def hasBlock (f : Func) (b : NodeId) : Bool := (f.nodes.get? b).isSome

def hasTimeline (f : Func) (t : TimelineId) : Bool := (f.timelines.get? t).isSome

def hasNode (f : Func) (n : IncomingId) : Bool := (f.incoming.get? n).isSome

def hasKind (f : Func) (c : NodeId) (k : Kind) : Bool :=
  (f.find? c).any fun d => d.kind = k

def ownTarget (f : Func) (target : Option TimelineRef) : Bool :=
  target.all fun t => t.owner = f.handle && f.hasTimeline t.id

end Func

namespace Request

/-- Whether a request names only what the function has, each thing by its kind. Components to be
put into a structure are checked by the request itself, but for their kind. -/
def live (f : Func) : Request → Bool
  | .newFork cond _ => cond.all fun c => f.hasBlock c.id
  | .newLoop _ cond _ _ after =>
    (cond.all fun c => f.hasBlock c.id) && after.all fun c => f.hasBlock c.id
  | .insertElement s _ _ | .appendElement s _ | .removeElement s _ | .replaceElement s _ _ =>
    f.hasKind s .seq
  | .addCase s _ | .removeCase s _ => f.hasKind s .fork
  | .appendInst b _ _ _ | .prependInst b _ _ _ | .insertInstBefore b _ _ _ _ | .removeInst b _
  | .createPhi b _ => f.hasBlock b
  | .split b _ | .resolve b _ | .resolveStack b _ | .probe b _ | .reachingAt b _ _ =>
    f.hasBlock b.id
  | .flatten c => c = Func.rootId || (f.find? c).isSome
  | .appendLocal t _ | .propagate t _ | .outgoing t => f.hasTimeline t
  | .appendIncoming t pred target => f.hasTimeline t && f.hasBlock pred.id && f.ownTarget target
  | .bind n target => f.hasNode n && f.ownTarget target
  | .propagateFor _ _ _ | .refer _ _ => false
  | .reachingDef u => (f.insts.get? u.inst).isSome
  | .member loop _ => f.hasKind loop .loop
  | .addVariable _ _ | .addArgument _ _ | .addReturn _ _ | .newBlock _ | .newSequence _
  | .setBody _ | .pruneIncoming | .defineUndefined | .freeze | .resolveAll
  | .reachingElsewhere _ | .verify | .print => true

def grant (f : Func) (r : Request) : Option Func :=
  if r.live f then
    match r.run f with
    | .ok _ f' => some f'
    | .error _ _ => none
  else none

end Request

/-- The functions that live requests lead to, each granted in its turn. -/
inductive Reached : Func → Prop
  | new (handle : Nat) (name : String) : Reached (.new handle name)
  | step {f f' : Func} {r : Request} (h : Reached f) (hr : r.grant f = some f') : Reached f'

section

variable {α : Type} {f f' : Func} {r : Request}

theorem Edit.silent_ok {x : Edit α} {u : Unit} (h : Edit.silent x f = .ok u f') :
    ∃ a, x f = .ok a f' := by
  obtain ⟨a, f₁, hx, h⟩ := Edit.bind_ok h
  cases h
  exact ⟨a, hx⟩

theorem Edit.silent_eq {x : Edit α} {a : α} (h : x f = .ok a f') : Edit.silent x f = .ok () f' :=
  Edit.bind_eq h

theorem Request.grant_eq (hl : r.live f = true) (h : r.run f = .ok () f') :
    r.grant f = some f' := by
  rw [Request.grant, if_pos hl, h]

theorem Request.live_of_grant (h : r.grant f = some f') : r.live f = true := by
  rw [Request.grant] at h
  split at h
  · assumption
  · cases h

theorem Request.run_of_grant (h : r.grant f = some f') : r.run f = .ok () f' := by
  rw [Request.grant] at h
  split at h
  · split at h
    · next hrun =>
      cases h
      exact hrun
    · cases h
  · cases h

/-- An invariant of the requests holds of every function that is reached. -/
theorem Reached.invariant (I : Func → Prop) (hnew : ∀ handle name, I (.new handle name))
    (hstep : ∀ {f f' : Func} (r : Request), I f → r.live f = true → r.run f = .ok () f' → I f')
    (h : Reached f) : I f := by
  induction h with
  | new handle name => exact hnew handle name
  | step _ hr ih => exact hstep _ ih (Request.live_of_grant hr) (Request.run_of_grant hr)

theorem Reached.of_requests {handle : Nat} {name : String} {rs : List Request}
    (h : rs.foldlM Request.grant (.new handle name) = some f) : Reached f := by
  suffices key : ∀ (rs : List Request) (g : Func), Reached g → rs.foldlM Request.grant g = some f →
      Reached f from key rs _ (.new handle name) h
  intro rs
  induction rs with
  | nil =>
    intro g hg h
    cases h
    exact hg
  | cons r rs ih =>
    intro g hg h
    rw [List.foldlM_cons] at h
    obtain ⟨g', hr, h⟩ := Option.bind_eq_some_iff.mp h
    exact ih g' (hg.step hr) h

/-- A run of requests that can be evaluated, with what can be checked at its end. -/
theorem Reached.exists_of_requests (handle : Nat) (name : String) (rs : List Request)
    (p : Func → Bool) (h : (rs.foldlM Request.grant (.new handle name)).any p = true) :
    ∃ f, Reached f ∧ p f = true := by
  cases hf : rs.foldlM Request.grant (.new handle name) with
  | none =>
    rw [hf] at h
    cases h
  | some f =>
    rw [hf] at h
    exact ⟨f, .of_requests hf, h⟩

end

end DefFlow.Flow
