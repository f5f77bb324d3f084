import DefFlow.Proofs.Runs.WellFormed
import DefFlow.Proofs.Verification.Frozen

/-!
# Edits of the trees

Before an edit moves a tree it records a touch, and afterwards it may move trees as it likes. New
trees that it sets aside need no touch, as long as they have no edges. Main statement: what touches
and such trees do not disturb is upheld by every request that reshapes the trees.
-/

set_option autoImplicit false

namespace DefFlow.Flow

open Func Component

section

variable {α β : Type} {I T : Func → Prop} {op : Operation} {s : NodeId} {c : ComponentRef} {i : Int}

namespace Edit.Upholds

theorem get : Upholds I (MonadState.get : Edit Func) := fun _ hk => hk

theorem unfrozen : Upholds I (Edit.unfrozen op) := .bind .get fun _ => .require _ _ _

theorem refTo (id : NodeId) : Upholds I (Edit.refTo id) := .get_bind fun _ hk => hk

theorem elementsOf (s : NodeId) : Upholds I (Edit.elementsOf s) := by
  refine .get_bind fun k hk => ?_
  split
  · exact hk
  · exact hk

theorem casesOf (s : NodeId) : Upholds I (Edit.casesOf s) := by
  refine .get_bind fun k hk => ?_
  split
  · exact hk
  · exact hk

theorem forM {g : α → Edit Unit} (h : ∀ a, Upholds I (g a)) (l : List α) :
    Upholds I (l.forM g) := by
  induction l with
  | nil => exact .pure _
  | cons a l ih => exact .bind (h a) fun _ => ih

/-- Where the first step leads from `I` to the stronger `T`, only that has to be upheld by the
others. -/
theorem after {x : Edit α} {g : α → Edit β} (hI : ∀ {k}, T k → I k) (hx : Upholds I x)
    (hT : ∀ {k a k'}, I k → x k = .ok a k' → T k') (hg : ∀ a, Upholds T (g a)) :
    Upholds I (x >>= g) := by
  intro k hk
  have hout := hx k hk
  cases hrun : x k with
  | ok a k' =>
    have heq : (x >>= g).outcome k = (g a).outcome k' := by rw [outcome, outcome, bind_eq hrun]
    rw [heq]
    exact hI (hg a k' (hT hk hrun))
  | error e k' =>
    rw [outcome_error hrun] at hout
    rw [outcome_error (bind_error hrun)]
    exact hout

end Edit.Upholds

/-! ## Touches -/

structure Func.Touching (I T : Func → Prop) : Prop where
  weak : ∀ {k}, T k → I k
  touch : ∀ {k : Func} (body : Component) (held : Bool) (detached : List Component), I k →
    T { k with body := body, bodyHeld := held, detached := detached,
               generation := k.generation + 1, memo := [] }
  free : ∀ {k : Func} (body : Component) (held : Bool) (detached : List Component), T k →
    T { k with body := body, bodyHeld := held, detached := detached }

theorem Func.Touching.self (h : Touching I T) : Touching T T where
  weak hk := hk
  touch body held detached hk := h.touch body held detached (h.weak hk)
  free := h.free

open Edit

variable (h : Touching I T)

include h

theorem changeAt_free (target : NodeId) (change : Component → Component) :
    Upholds T (changeAt target change) := fun k hk => h.free (k := k) _ _ _ hk

theorem adopt_touches {p : NodeId} {d : Component} {k k' : Func} (hk : I k)
    (hrun : adopt p c k = .ok d k') : T k' := by
  obtain ⟨_, k₁, hask, hrun⟩ := bind_ok hrun
  rw [adoptable_ok hask] at hrun
  cases hrun
  exact h.touch (k := k) _ _ _ hk

theorem adopt_upholds (p : NodeId) (c : ComponentRef) : Upholds I (adopt p c) := by
  refine .bind ?_ fun _ => .get_bind fun k hk => h.weak (h.touch (k := k) _ _ _ hk)
  exact .bind .get fun _ => .bind (.require _ _ _) fun _ => .bind (.require _ _ _) fun _ =>
    .bind (.require _ _ _) fun _ => .require _ _ _

theorem adopt_bind (p : NodeId) (c : ComponentRef) {g : Component → Edit β}
    (hg : ∀ d, Upholds T (g d)) : Upholds I (adopt p c >>= g) :=
  .after h.weak (adopt_upholds h p c) (adopt_touches h) hg

theorem insertElement_upholds (s : NodeId) (i : Int) (c : ComponentRef) :
    Upholds I (insertElement s i c) :=
  .bind .unfrozen fun _ => .bind (.elementsOf s) fun _ => .bind (.require _ _ _) fun _ =>
    adopt_bind h s c fun _ => .bind (.elementsOf s) fun _ => changeAt_free h _ _

theorem appendElement_upholds (s : NodeId) (c : ComponentRef) : Upholds I (appendElement s c) :=
  .bind (.elementsOf s) fun _ => insertElement_upholds h _ _ _

theorem removeElement_upholds (s : NodeId) (i : Int) : Upholds I (removeElement s i) :=
  .bind .unfrozen fun _ => .bind (.elementsOf s) fun _ => .bind (.require _ _ _) fun _ k hk =>
    h.weak (h.touch (k := k) _ _ _ hk)

theorem replaceElement_upholds (s : NodeId) (i : Int) (c : ComponentRef) :
    Upholds I (replaceElement s i c) :=
  .bind (removeElement_upholds h s i) fun _ => .bind (insertElement_upholds h s i c) fun _ =>
    .pure _

theorem addCase_upholds (s : NodeId) (c : ComponentRef) : Upholds I (addCase s c) :=
  .bind .unfrozen fun _ => adopt_bind h s c fun _ => .bind (.casesOf s) fun _ =>
    changeAt_free h _ _

theorem removeCase_upholds (s : NodeId) (i : Int) : Upholds I (removeCase s i) :=
  .bind .unfrozen fun _ => .bind (.casesOf s) fun _ => .bind (.require _ _ _) fun _ k hk =>
    h.weak (h.touch (k := k) _ _ _ hk)

theorem setBody_upholds (c : ComponentRef) : Upholds I (setBody c) := by
  refine .bind .unfrozen fun _ => .get_bind fun k hk => ?_
  have hrest : Upholds T (if c.owner = k.handle && c.id = k.body.id then do
      modify fun f => { f with bodyHeld := true }
      touch
    else do
      let taken ← adopt rootId c
      modify fun f => { f with
        body := taken, bodyHeld := true, detached := f.detached ++ [f.body] }) :=
    .ite (fun k hk => h.self.touch (k := k) _ _ _ hk)
      (adopt_bind h.self _ c fun _ k hk => h.free (k := k) _ _ _ hk)
  exact h.weak (hrest { k with bodyHeld := false, generation := k.generation + 1, memo := [] }
    (h.touch (k := k) _ _ _ hk))

end

/-! ## New trees -/

structure Component.Edgeless (d : Component) : Prop where
  preds : ∀ x, d.predsIn x [] = none ∨ d.predsIn x [] = some []
  blocks : ∀ b ∈ d.blocks, b = d.id

theorem Component.edgeless_block (id : NodeId) : (Component.block id).Edgeless where
  preds x := by
    rw [predsIn]
    split
    · exact Or.inr rfl
    · exact Or.inl rfl
  blocks _ hb := List.mem_singleton.mp hb

theorem Component.edgeless_seq (id : NodeId) : (Component.seq id []).Edgeless where
  preds x := by
    rw [predsIn]
    split
    · exact Or.inr rfl
    · exact Or.inl rfl
  blocks _ hb := nomatch hb

structure Func.Growing (I : Func → Prop) : Prop where
  skip : ∀ {k : Func}, I k → I { k with nodes := k.nodes.skip }
  grow : ∀ {k : Func} (nodes : Arena Block) (count : Nat) {d : Component}, d.Edgeless → I k →
    I { k with nodes := nodes, blockCount := count, detached := k.detached ++ [d] }

section

variable {I T : Func → Prop} (h : Touching I T) (hg : Growing I)

open Edit

include hg

theorem register_upholds : Upholds I register := .get_bind fun _ hk => hg.skip hk

theorem newBlock_upholds (label : String) : Upholds I (newBlock label) :=
  .bind .unfrozen fun _ => .get_bind fun k hk => hg.grow (k := k) _ _ (edgeless_block _) hk

include h

theorem newSequence_upholds (elements : List ComponentRef) :
    Upholds I (newSequence elements) :=
  .bind .unfrozen fun _ => .bind (register_upholds hg) fun id =>
    .bind (.change fun k hk => hg.grow k.nodes k.blockCount (edgeless_seq id) hk) fun _ =>
      .bind (.forM (fun c => appendElement_upholds h id c) _) fun _ => .pure _

theorem newFork_upholds (cond : Option ComponentRef) (cases : List ComponentRef) :
    Upholds I (newFork cond cases) := by
  have hrest (cond : ComponentRef) : Upholds I (do
      let id ← register
      let block ← adopt id cond
      modify fun f => { f with detached := f.detached ++ [.fork id block.id []] }
      cases.forM (addCase id)
      return id) :=
    .bind (register_upholds hg) fun id => adopt_bind h id cond fun _ =>
      .bind (.change fun k hk => h.free (k := k) _ _ _ hk) fun _ =>
        .bind (.forM (fun c => addCase_upholds h.self id c) _) fun _ => .pure _
  refine .bind .unfrozen fun _ => ?_
  cases cond with
  | some c => exact .bind (.pure c) hrest
  | none => exact .bind (newBlock_upholds hg "cond") fun id => .bind (.refTo id) hrest

theorem orNewSequence_upholds (c : Option ComponentRef) : Upholds I (orNewSequence c) := by
  cases c with
  | some c => exact .pure c
  | none => exact .bind (newSequence_upholds h hg []) fun _ => .refTo _

omit h in
theorem orNewBlock_upholds (label : String) (c : Option ComponentRef) :
    Upholds I (orNewBlock label c) := by
  cases c with
  | some c => exact .pure c
  | none => exact .bind (newBlock_upholds hg label) fun _ => .refTo _

theorem newLoop_upholds (start cond body update after : Option ComponentRef) :
    Upholds I (newLoop start cond body update after) :=
  .bind .unfrozen fun _ => .bind (orNewSequence_upholds h hg start) fun start =>
    .bind (orNewBlock_upholds hg _ cond) fun _ => .bind (orNewSequence_upholds h hg body) fun _ =>
    .bind (orNewSequence_upholds h hg update) fun _ => .bind
        (orNewBlock_upholds hg _ after) fun _ =>
    .bind (register_upholds hg) fun id => adopt_bind h id start fun _ =>
      have adopts (c : ComponentRef) := adopt_upholds h.self id c
      .bind (adopts _) fun _ => .bind (adopts _) fun _ => .bind (adopts _) fun _ =>
        .bind (adopts _) fun _ => .bind
            (.change fun k hk => h.free (k := k) _ _ _ hk) fun _ => .pure _

theorem Request.reshapes_upholds {r : Request} (hr : r.reshapes = true) : Upholds I r.run := by
  cases r with
  | newBlock label => exact .silent (newBlock_upholds hg label)
  | newSequence elements => exact .silent (newSequence_upholds h hg elements)
  | newFork cond cases => exact .silent (newFork_upholds h hg cond cases)
  | newLoop start cond body update after =>
    exact .silent (newLoop_upholds h hg start cond body update after)
  | setBody c => exact setBody_upholds h c
  | insertElement s i c => exact insertElement_upholds h s i c
  | appendElement s c => exact appendElement_upholds h s c
  | removeElement s i => exact .silent (removeElement_upholds h s i)
  | replaceElement s i c => exact .silent (replaceElement_upholds h s i c)
  | addCase s c => exact addCase_upholds h s c
  | removeCase s i => exact .silent (removeCase_upholds h s i)
  | _ => cases hr

end

end DefFlow.Flow
