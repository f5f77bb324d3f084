import DefFlow.Proofs.Runs.Trees

/-!
# The age of the trees

The age of the trees is the number of touches so far. Main statement: a request, granted or refused,
makes the trees older, or leaves them as they are but for new ones at the end. Most edits leave the
trees and their age alone; those that do not are made of the edits of trees.
-/

set_option autoImplicit false

namespace DefFlow.Flow

open Func

def Func.OfTrees (I : Func → Prop) : Prop :=
  ∀ {k k' : Func}, I k → k.SameGraph k' → k'.generation = k.generation → I k'

theorem Func.OfTrees.spares {I : Func → Prop} (hI : OfTrees I) : SparesBindings I := by
  intro k k' hk h _
  rw [h.rest]
  exact hI hk ⟨rfl, rfl, rfl, rfl, rfl, rfl, fun _ => rfl⟩ rfl

section

variable {α β : Type} {I : Func → Prop} {b : NodeId} {v : VarId} {t : TimelineId} {i : InstId}

theorem Edit.Upholds.set {k : Func} (hk : I k) : Upholds I (MonadStateOf.set k : Edit PUnit) :=
  fun _ _ => hk

theorem Edit.Upholds.read {g : Func → Edit β} (h : ∀ k, I k → Upholds I (g k)) :
    Upholds I (MonadState.get >>= g) := fun k hk => h k hk k hk

theorem Edit.Upholds.mapM {g : α → Edit β} (h : ∀ a, Upholds I (g a)) (l : List α) :
    Upholds I (l.mapM g) := by
  induction l with
  | nil => exact .pure _
  | cons a l ih =>
    rw [List.mapM_cons]
    exact .bind (h a) fun _ => .bind ih fun _ => .pure _

theorem Edit.Upholds.filterMapM {g : α → Edit (Option β)} (h : ∀ a, Upholds I (g a)) (l : List α) :
    Upholds I (l.filterMapM g) := by
  have key : ∀ (l : List α) (acc : List β), Upholds I (List.filterMapM.loop g l acc) := by
    intro l
    induction l with
    | nil => exact fun acc => .pure _
    | cons a l ih =>
      intro acc
      rw [List.filterMapM.loop]
      refine .bind (h a) fun r => ?_
      cases r with
      | none => exact ih acc
      | some x => exact ih (x :: acc)
  exact key l []

open Edit

/-! ## Timelines and nodes -/

section

variable (hI : OfTrees I)

include hI

theorem changeTimeline_upholds (t : TimelineId) (change : Timeline → Timeline) :
    Upholds I (changeTimeline t change) := .change fun _ hk => hI hk
        ⟨rfl, rfl, rfl, rfl, rfl, rfl, fun _ => rfl⟩ rfl

theorem changeBlock_upholds (b : NodeId) (change : Block → Block) :
    Upholds I (changeBlock b change) := .change fun _ hk => hI hk
      ⟨rfl, rfl, rfl, rfl, rfl, Arena.size_modify .., fun _ => isSome_get?_modify ..⟩ rfl

theorem changeInst_upholds (i : InstId) (change : Instruction → Instruction) :
    Upholds I (changeInst i change) := .change fun _ hk => hI hk
        ⟨rfl, rfl, rfl, rfl, rfl, rfl, fun _ => rfl⟩ rfl

theorem timelineFor_upholds (b : NodeId) (v : VarId) : Upholds I (timelineFor b v) := by
  refine .get_bind fun k hk => ?_
  cases k.timelineId? b v with
  | some t => exact hk
  | none =>
    exact hI hk ⟨rfl, rfl, rfl, rfl, rfl, Arena.size_modify .., fun _ => isSome_get?_modify ..⟩ rfl

theorem linkBound_upholds (t : TimelineId) (pred : NodeId) {bound : IncomingId → Edit Bool}
    (hbound : ∀ n, Upholds I (bound n)) : Upholds I (linkBound t pred bound) := by
  refine .bind .get fun k => ?_
  cases k.incomingFrom? t pred with
  | some n => exact .bind (hbound n) fun _ => .pure _
  | none =>
    refine .read fun k hk => .bind (.set (hI hk
        ⟨rfl, rfl, rfl, rfl, rfl, rfl, fun _ => rfl⟩ rfl)) fun _ => .bind (hbound _) fun _ => ?_
    exact .bind (changeTimeline_upholds hI t _) fun _ => .bind (bump_upholds hI.spares) fun _ =>
      .pure _

theorem linkIncoming_upholds (t : TimelineId) (pred : NodeId) (target : Option TimelineId) :
    Upholds I (linkIncoming t pred target) :=
  .bind (linkBound_upholds hI t pred fun n => rebind_upholds hI.spares n target) fun _ => .pure _

theorem removeIncoming_upholds (n : IncomingId) : Upholds I (removeIncoming n) :=
  .bind .get fun _ => .bind (changeTimeline_upholds hI _ _) fun _ =>
    .bind (rebind_upholds hI.spares n none) fun _ =>
      .bind (.change fun _ hk => hI hk
          ⟨rfl, rfl, rfl, rfl, rfl, rfl, fun _ => rfl⟩ rfl) fun _ => bump_upholds hI.spares

/-! ## Questions -/

theorem pathTarget_upholds (s : Stack) (join : NodeId) (r : Reach) :
    Upholds I (pathTarget s join r) := by
  refine .bind (.ask _) fun c => ?_
  cases c with
  | undefined => exact .pure _
  | timeline t => exact .pure _
  | join b => exact .bind (timelineFor_upholds hI b _) fun _ => .pure _
  | pending b => exact .bind .get fun _ => .refuse _ _

theorem buildJoins_upholds (s : Stack) : Upholds I (buildJoins s) := by
  refine .bind (.mapM (fun join => ?_) _) fun _ => .pure _
  exact .bind (timelineFor_upholds hI _ _) fun t => .mapM (fun p =>
    .bind (pathTarget_upholds hI _ _ _) fun _ => linkIncoming_upholds hI _ _ _) _

theorem answer_upholds (q : Question) : Upholds I (answer q) := by
  refine .bind (.ask _) fun _ => .get_bind fun k hk => ?_
  have hrest (s : Stack) : Upholds I (do
      modify fun f => { f with memo := (q, s) :: f.memo }
      return s) :=
    .bind (.change fun _ hk => hI hk
        ⟨rfl, rfl, rfl, rfl, rfl, rfl, fun _ => rfl⟩ rfl) fun _ => .pure s
  cases k.memo.lookup q with
  | some s => exact hk
  | none =>
    refine Upholds.bind (.ask _) (fun s => ?_) k hk
    dsimp only
    split
    · exact .bind (.pure s) hrest
    · exact .bind (buildJoins_upholds hI s) hrest

theorem resolvesAt_upholds (b : NodeId) (v : VarId) : Upholds I (resolveAt b v) :=
  .bind (answer_upholds hI _) fun _ => .ask _

theorem valueLeaving_upholds (b : NodeId) (v : VarId) : Upholds I (valueLeaving b v) := by
  refine .get_bind fun k hk => ?_
  cases k.explicit? b v with
  | some t => exact hk
  | none => exact Upholds.bind (resolvesAt_upholds hI b v) (fun _ => .pure _) k hk

theorem propagate_upholds (t : TimelineId) (cache : Option IncomingCache) :
    Upholds I (propagate t cache) :=
  .bind .unfrozen fun _ => .bind .get fun _ =>
    announce_upholds hI.spares (valueLeaving_upholds hI) t cache

theorem retarget_upholds (t : TimelineId) : Upholds I (retarget t) := by
  refine .bind .get fun _ => .ite (.pure _) ?_
  refine .bind (resolvesAt_upholds hI _ _) fun r => .ite (.pure _) ?_
  exact .bind .get fun _ => .bind (.forIn (fun n _ =>
    .bind (rebind_upholds hI.spares n _) fun _ => .pure _) _) fun _ => .pure _

/-! ## Instructions -/

theorem addUse_upholds (t : TimelineId) (holder : Option InstId) (u : UseSite) :
    Upholds I (addUse t holder u) := .bind .get fun _ => changeTimeline_upholds hI t _

theorem reindex_upholds (b : NodeId) : Upholds I (reindex b) :=
  .bind .get fun _ => .bind
      (.forIn (fun _ _ => .bind (changeInst_upholds hI _ _) fun _ => .pure _) _)
    fun _ => .pure _

theorem placeInst_upholds (b : NodeId) (position : Nat) (op : Opcode) :
    Upholds I (placeInst b position op) := by
  refine .read fun k hk => .bind (.set (hI hk
      ⟨rfl, rfl, rfl, rfl, rfl, rfl, fun _ => rfl⟩ rfl)) fun _ => ?_
  exact .bind (changeBlock_upholds hI b _) fun _ => .bind (reindex_upholds hI b) fun _ => .pure _

theorem insertLocal_upholds (t : TimelineId) (i : InstId) : Upholds I (insertLocal t i) := by
  have hrest (locals : List Local) : Upholds I (do
      changeTimeline t fun x => { x with locals := locals }
      bump) :=
    .bind (changeTimeline_upholds hI t _) fun _ => bump_upholds hI.spares
  refine .bind .get fun f => ?_
  dsimp only
  split
  · exact .bind (.require _ _ _) fun _ => hrest _
  · exact hrest _

theorem defineAt_upholds (t : TimelineId) (i : InstId) (v : VarId) :
    Upholds I (defineAt t i v) := by
  refine .bind .get fun _ => .bind (.get_bind fun _ hk => hI hk
      ⟨rfl, rfl, rfl, rfl, rfl, rfl, fun _ => rfl⟩ rfl) fun _ => ?_
  exact .bind (changeInst_upholds hI i _) fun _ => .bind (insertLocal_upholds hI t i) fun _ =>
    .bind .get fun _ => .bind (changeTimeline_upholds hI t _) fun _ => changeTimeline_upholds hI t _

theorem define_upholds (b : NodeId) (i : InstId) (v : VarId) : Upholds I (define b i v) :=
  .bind (timelineFor_upholds hI b v) fun t => .bind .get fun _ =>
    .bind (defineAt_upholds hI t i v) fun _ => .ite (.pure _)
      (.bind (propagate_upholds hI t none) fun _ => .pure _)

theorem addOperand_upholds (op : Operation) (b : NodeId) (i : InstId) (position slot : Nat)
    (a : Arg) : Upholds I (addOperand op b i position slot a) := by
  cases a with
  | constant c => exact changeInst_upholds hI i _
  | var v =>
    exact .bind .get fun _ => .bind (.require _ _ _) fun _ =>
      .bind (timelineFor_upholds hI b v.id) fun t => .bind (changeInst_upholds hI i _) fun _ =>
        .bind .get fun _ => addUse_upholds hI t _ _

omit hI in
theorem insertable_upholds (op : Operation) (b : NodeId) (position : Nat) (code : Opcode)
    (dest : Option Variable) (args : List Arg) :
    Upholds I (insertable op b position code dest args) := by
  refine .bind .unfrozen fun _ => .bind (.require _ _ _) fun _ => .bind ?_ fun _ =>
    .bind (.require _ _ _) fun _ => .bind (.require _ _ _) fun _ => .bind ?_ fun _ => ?_
  · rw [checkArity]
    split
    · exact .require _ _ _
    · exact .pure _
  · refine .get_bind fun k hk => ?_
    cases k.terminator? b with
    | some last => exact Upholds.require _ _ _ k hk
    | none => exact hk
  · cases dest with
    | some v => exact .bind .get fun _ => .bind (.require _ _ _) fun _ => .require _ _ _
    | none => exact .pure _

theorem insertInst_upholds (op : Operation) (b : NodeId) (position : Nat) (code : Opcode)
    (dest : Option Variable) (args : List Arg) :
    Upholds I (insertInst op b position code dest args) := by
  refine .bind (insertable_upholds op b position code dest args) fun _ =>
    .bind (placeInst_upholds hI b position code) fun i => .bind (.forIn (fun _ _ =>
      .bind (addOperand_upholds hI _ _ _ _ _ _) fun _ => .pure _) _) fun _ => ?_
  have hrest : Upholds I (do bump; return i) := .bind (bump_upholds hI.spares) fun _ => .pure i
  cases dest with
  | some v => exact .bind (define_upholds hI b i v.id) fun _ => hrest
  | none => exact hrest

theorem appendInst_upholds (b : NodeId) (code : Opcode) (dest : Option Variable)
    (args : List Arg) : Upholds I (appendInst b code dest args) :=
  .bind .get fun _ => insertInst_upholds hI _ _ _ _ _ _

theorem prependInst_upholds (b : NodeId) (code : Opcode) (dest : Option Variable)
    (args : List Arg) : Upholds I (prependInst b code dest args) :=
  .bind .get fun _ => insertInst_upholds hI _ _ _ _ _ _

theorem insertInstBefore_upholds (b : NodeId) (i : InstRef) (code : Opcode)
    (dest : Option Variable) (args : List Arg) :
    Upholds I (insertInstBefore b i code dest args) :=
  .bind .get fun _ => .bind (.bind .get fun _ => .pure _) fun _ => .bind (.require _ _ _) fun _ =>
    .bind (.require _ _ _) fun _ => insertInst_upholds hI _ _ _ _ _ _

theorem dropUnused_upholds (b : NodeId) (v : VarId) (t : TimelineId) :
    Upholds I (dropUnused b v t) :=
  .bind .get fun _ => .ite (.bind (changeBlock_upholds hI b _) fun _ =>
    .bind (.change fun _ hk => hI hk
        ⟨rfl, rfl, rfl, rfl, rfl, rfl, fun _ => rfl⟩ rfl) fun _ => bump_upholds hI.spares) (.pure _)

theorem undefine_upholds (t : TimelineId) (i : InstId) : Upholds I (undefine t i) :=
  .bind .get fun _ => .bind (changeTimeline_upholds hI t _) fun _ =>
    .bind (bump_upholds hI.spares) fun _ => .bind .get fun _ =>
      .bind (.forIn (fun _ _ => .bind (addUse_upholds hI t _ _) fun _ => .pure _)
          _) fun _ => .pure _

theorem removeInst_upholds (b : NodeId) (i : InstRef) : Upholds I (removeInst b i) := by
  refine .bind .unfrozen fun _ => .bind .get fun f => .bind (.bind .get fun _ => .pure _) fun _ =>
    .bind (.require _ _ _) fun _ => .bind (.forIn (fun e _ => ?_) _) fun _ => ?_
  · obtain ⟨u, v⟩ := e
    dsimp only
    split
    · exact .bind (changeTimeline_upholds hI _ _) fun _ => .pure _
    · exact .bind (.pure _) fun _ => .pure _
  have hdrop (l : List (VarId × TimelineId)) : Upholds I (ForIn.forIn l PUnit.unit fun e _ => do
      dropUnused b e.1 e.2
      return ForInStep.yield PUnit.unit) :=
    .forIn (fun _ _ => .bind (dropUnused_upholds hI _ _ _) fun _ => .pure _) l
  have hcode {x : Edit Unit} (hx : Upholds I x) : Upholds I (do
      changeBlock b fun y => { y with
        phiCount := if f.indexOf i.id < y.phiCount then y.phiCount - 1 else y.phiCount
        instructions := y.instructions.eraseIdx (f.indexOf i.id) }
      reindex b
      changeInst i.id fun y => { y with block := none }
      bump
      x) :=
    .bind (changeBlock_upholds hI b _) fun _ => .bind (reindex_upholds hI b) fun _ =>
      .bind (changeInst_upholds hI _ _) fun _ => .bind (bump_upholds hI.spares) fun _ => hx
  dsimp only
  cases (f.inst i.id).dest.bind fun d => (f.timelineId? b d.var).map fun t => (d.var, t) with
  | none => exact hcode (.bind (hdrop _) fun _ => .pure _)
  | some e =>
    exact .bind (undefine_upholds hI _ _) fun _ => hcode (.bind (retarget_upholds hI _) fun _ =>
      .bind (hdrop _) fun _ => .pure _)

theorem createPhi_upholds (b : NodeId) (v : Variable) : Upholds I (createPhi b v) := by
  refine .bind .unfrozen fun _ => .bind .get fun f => .bind (.require _ _ _) fun _ =>
    .bind (.require _ _ _) fun _ => .bind (.require _ _ _) fun _ =>
    .bind (timelineFor_upholds hI b _) fun t => .bind .get fun _ =>
    .bind (placeInst_upholds hI b _ _) fun i => .bind (changeBlock_upholds hI b _) fun _ =>
    .bind (defineAt_upholds hI t i _) fun _ => .bind (bump_upholds hI.spares) fun _ => ?_
  have hjoin : Upholds I (do
      if ((← MonadState.get).timelineAt t).incoming.isEmpty then
        for p in (← MonadState.get).preds b do
          let _ ← linkIncoming t p (← valueLeaving p v.id)
      return i) :=
    .bind .get fun _ => .ite (.bind .get fun _ => .bind (.forIn (fun p _ =>
      .bind (valueLeaving_upholds hI p _) fun _ => .bind (linkIncoming_upholds hI _ _ _) fun _ =>
        .pure _) _) fun _ => .pure _) (.pure _)
  exact .ite hjoin (.bind (propagate_upholds hI t none) fun _ => hjoin)

theorem appendLocal_upholds (t : TimelineId) (i : InstRef) : Upholds I (appendLocal t i) :=
  .bind .unfrozen fun _ => .bind .get fun _ => .bind (.bind .get fun _ => .pure _) fun _ =>
    .bind (.require _ _ _) fun _ => .bind (.require _ _ _) fun _ => .bind (.require _ _ _) fun _ =>
      .bind (.require _ _ _) fun _ => .bind (changeTimeline_upholds hI t _) fun _ =>
        bump_upholds hI.spares

theorem appendIncoming_upholds (t : TimelineId) (pred : ComponentRef)
    (target : Option TimelineRef) : Upholds I (appendIncoming t pred target) :=
  .bind .unfrozen fun _ => .bind .get fun _ => .bind (.require _ _ _) fun _ =>
    linkBound_upholds hI t _ fun n => bindTo_upholds hI.spares n target

/-! ## Declarations and sweeps -/

theorem addVariable_upholds (name : String) (type : ValueType) :
    Upholds I (addVariable name type) :=
  .bind .unfrozen fun _ => .read fun _ hk => .bind (.require _ _ _) fun _ =>
    .bind (.set (hI hk ⟨rfl, rfl, rfl, rfl, rfl, rfl, fun _ => rfl⟩ rfl)) fun _ => .pure _

theorem addArgument_upholds (name : String) (type : ValueType) :
    Upholds I (addArgument name type) :=
  .bind (addVariable_upholds hI name type) fun _ => .bind (.change fun _ hk => hI hk
      ⟨rfl, rfl, rfl, rfl, rfl, rfl, fun _ => rfl⟩ rfl) fun _ =>
    .pure _

theorem addReturn_upholds (name : String) (type : ValueType) : Upholds I (addReturn name type) :=
  .bind (addVariable_upholds hI name type) fun _ => .bind (.change fun _ hk => hI hk
      ⟨rfl, rfl, rfl, rfl, rfl, rfl, fun _ => rfl⟩ rfl) fun _ =>
    .pure _

theorem pruneIncoming_upholds : Upholds I pruneIncoming := by
  refine .bind .unfrozen fun _ => .bind .get fun _ => .bind (.mapM (fun t => ?_) _) fun _ => ?_
  · exact .bind (.bind .get fun _ => .bind (.forM (removeIncoming_upholds hI) _) fun _ =>
      .bind .get fun _ => .pure _) fun _ => .pure _
  · refine .bind (.forIn (fun e _ => ?_) _) fun _ => .pure _
    obtain ⟨t, _, emptied⟩ := e
    dsimp only
    split
    · exact .bind (retarget_upholds hI t) fun _ => .pure _
    · exact .pure _

theorem freeze_upholds (hseal : ∀ {k}, I k → I { k with frozen := true }) : Upholds I freeze := by
  refine .bind .unfrozen fun _ => .bind (resolveAll_upholds (P := fun _ => True)
    (fun v _ => answer_upholds hI _) fun _ _ _ _ => trivial) fun _ => .bind (.ask _) fun found => ?_
  have hclose : Upholds I (modify fun f => { f with frozen := true } : Edit PUnit) :=
    .change fun _ hk => hseal hk
  cases found with
  | nil => exact hclose
  | cons x found => exact .bind .get fun _ => .bind (.refuse _ _) fun _ => hclose

theorem moveEdges_upholds (b b' : NodeId) : Upholds I (moveEdges b b') := by
  refine .bind .get fun _ => .bind (.forIn (fun n _ => .ite ?_ (.pure _)) _) fun _ => .pure _
  exact .bind (.change fun _ hk => hI hk
      ⟨rfl, rfl, rfl, rfl, rfl, rfl, fun _ => rfl⟩ rfl) fun _ => .pure _

theorem splitTimeline_upholds (t : TimelineId) (b' : NodeId) : Upholds I (splitTimeline t b') := by
  refine .bind .get fun _ => .ite (.pure _) (.bind (timelineFor_upholds hI b' _) fun t' => ?_)
  exact .bind (changeTimeline_upholds hI t _) fun _ => .bind
      (changeTimeline_upholds hI t' _) fun _ =>
    .bind (bump_upholds hI.spares) fun _ => .pure _

/-- What a split does behind the change of the trees minds the trees only as it touches them. -/
theorem settleHalves_upholds (htouch : ∀ {k}, I k → I { k with
      generation := k.generation + 1, memo := [] }) (b b' : NodeId)
    (lists : List (VarId × TimelineId)) : Upholds I (settleHalves b b' lists) := by
  refine .bind (.filterMapM (fun _ => splitTimeline_upholds hI _ _) _) fun moved =>
    .bind (moveEdges_upholds hI _ _) fun _ => .bind (.change fun _ hk => htouch hk) fun _ =>
    .bind (.forIn (fun t _ => ?_) _) fun _ => .pure _
  exact .bind (propagate_upholds hI t _) fun _ => .pure _

/-- The definitions that the new block at the start gives, and the edges that lead from it. -/
theorem supply_upholds (entry : NodeId) (vars : List Variable) : Upholds I (do
    let f ← MonadState.get
    for s in f.succs entry do
      for (_, t) in (f.blockAt s).timelines do
        if !(f.timelineAt t).incoming.isEmpty && (f.incomingFrom? t entry).isNone then
          let _ ← linkIncoming t entry none
    for v in vars do
      let _ ← appendInst entry .undef (some v) []
    return vars) := by
  refine .bind .get fun f =>
    .bind (.forIn (fun s _ => .bind (.forIn (fun e _ => ?_) _) fun _ => .pure _) _) fun _ =>
    .bind (.forIn (fun v _ => .bind (appendInst_upholds hI _ _ _ _) fun _ => .pure _) _) fun _ =>
    .pure _
  exact .ite (.bind (linkIncoming_upholds hI _ _ _) fun _ => .pure _) (.pure _)

end

/-! ## Requests -/

def Request.composed : Request → Bool
  | .split _ _ | .flatten _ | .defineUndefined | .freeze => true
  | _ => false

/-- Every other request that does not change trees leaves them alone. -/
theorem Request.quiet_upholds (hI : OfTrees I) {r : Request} (hr : r.reshapes = false)
    (hc : r.composed = false) : Upholds I r.run := by
  cases ha : r.asks with
  | true => exact Request.asks_upholds (answer_upholds hI) ha
  | false =>
  cases hb : r.rebinds with
  | true => exact Request.rebinds_upholds hI.spares hb
  | false =>
  cases r with
  | addVariable name type => exact .silent (addVariable_upholds hI name type)
  | addArgument name type => exact .silent (addArgument_upholds hI name type)
  | addReturn name type => exact .silent (addReturn_upholds hI name type)
  | appendInst b code dest args => exact .silent (appendInst_upholds hI b code dest args)
  | prependInst b code dest args => exact .silent (prependInst_upholds hI b code dest args)
  | insertInstBefore b i code dest args =>
    exact .silent (insertInstBefore_upholds hI b i code dest args)
  | removeInst b i => exact removeInst_upholds hI b i
  | createPhi b v => exact .silent (createPhi_upholds hI b v)
  | pruneIncoming => exact .silent (pruneIncoming_upholds hI)
  | appendLocal t i => exact appendLocal_upholds hI t i
  | appendIncoming t pred target => exact .silent (appendIncoming_upholds hI t pred target)
  | propagate t cache => exact .silent (propagate_upholds hI t cache)
  | _ => first | cases hr; done | cases hc; done | cases ha; done | cases hb

/-! ## Edits of trees and timelines -/

section

variable {T : Func → Prop} (h : Touching I T) (hg : Growing I) (hI : OfTrees I)

include h

theorem orphan_touches (c : Component) : Upholds T (orphan c) :=
  fun k hk => h.self.touch (k := k) _ _ _ hk

theorem replaceCondition_upholds (fork : NodeId) (b : ComponentRef) :
    Upholds I (replaceCondition fork b) := by
  refine .bind .get fun f => ?_
  split
  · exact adopt_bind h fork b fun _ => .bind (changeAt_free h _ _) fun _ => orphan_touches h _
  · exact .pure _

theorem replaceInParent_upholds (old : NodeId) (c : ComponentRef) :
    Upholds I (replaceInParent old c) := by
  refine .bind .get fun f => ?_
  dsimp only
  split
  · exact .refuse _ _
  · exact setBody_upholds h c
  · exact adopt_bind h old c fun _ => .bind (changeAt_free h _ _) fun _ => orphan_touches h _

include hg

/-- A new sequence takes a place, and then gets its elements. -/
theorem wrap_upholds (target : NodeId) {fill : NodeId → Edit Unit}
    (hfill : ∀ seq, Upholds I (fill seq)) : Upholds I (do
      let seq ← newSequence []
      replaceInParent target (← refTo seq)
      fill seq) :=
  .bind (newSequence_upholds h hg []) fun _ => .bind (.refTo _) fun _ =>
    .bind (replaceInParent_upholds h target _) fun _ => hfill _

theorem insertBefore_upholds (target : NodeId) (c : ComponentRef) :
    Upholds I (insertBefore target c) := by
  refine .bind .get fun f => ?_
  split
  · exact insertElement_upholds h _ _ c
  · exact wrap_upholds h hg target fun seq => .bind (appendElement_upholds h seq c) fun _ =>
      .bind (.refTo _) fun _ => appendElement_upholds h seq _

theorem insertAfter_upholds (target : NodeId) (c : ComponentRef) :
    Upholds I (insertAfter target c) := by
  refine .bind .get fun f => ?_
  split
  · exact insertElement_upholds h _ _ c
  · exact wrap_upholds h hg target fun seq => .bind (.refTo _) fun _ =>
      .bind (appendElement_upholds h seq _) fun _ => appendElement_upholds h seq c

theorem placeSecondHalf_upholds (b b' : NodeId) : Upholds I (placeSecondHalf b b') := by
  refine .bind .get fun f => ?_
  split
  · exact .pure _
  · exact .bind (.refTo _) fun _ => insertElement_upholds h _ _ _
  · exact .bind (.refTo _) fun _ => .bind (replaceCondition_upholds h _ _) fun _ =>
      .bind (.refTo _) fun _ => insertBefore_upholds h hg _ _
  · exact .bind (.refTo _) fun _ => insertAfter_upholds h hg _ _
  · exact wrap_upholds h hg b fun seq => .bind (.refTo _) fun _ =>
      .bind (appendElement_upholds h seq _) fun _ => .bind (.refTo _) fun _ =>
        appendElement_upholds h seq _

theorem prependBlock_upholds (entry : NodeId) : Upholds I (prependBlock entry) := by
  refine .bind .get fun f => ?_
  split
  · exact .bind (.refTo _) fun _ => insertElement_upholds h _ _ _
  · exact .bind (newSequence_upholds h hg []) fun seq => .bind (.refTo _) fun _ =>
      .bind (setBody_upholds h _) fun _ => .bind (.refTo _) fun _ =>
      .bind (appendElement_upholds h _ _) fun _ => .bind (.refTo _) fun _ =>
        appendElement_upholds h _ _

include hI

theorem split_upholds (b : ComponentRef) (position : Int) : Upholds I (split b position) := by
  refine .bind .unfrozen fun _ => .bind .get fun f => .bind (.require _ _ _) fun _ =>
    .bind (.require _ _ _) fun _ => .bind (.require _ _ _) fun _ =>
    .bind (newBlock_upholds hg _) fun b' => .bind (changeBlock_upholds hI _ _) fun _ =>
    .bind (changeBlock_upholds hI _ _) fun _ => .bind (reindex_upholds hI _) fun _ =>
    .bind (placeSecondHalf_upholds h hg _ _) fun _ => ?_
  exact settleHalves_upholds hI (fun {k} hk => h.weak (h.touch (k := k) _ _ _ hk)) _ _ _

theorem flatten_upholds (c : NodeId) : Upholds I (flatten c) := by
  have hprune (d : NodeId) : Upholds I (do let _ ← pruneIncoming; return d) :=
    .bind (pruneIncoming_upholds hI) fun _ => .pure _
  refine .bind .unfrozen fun _ => .bind .get fun f => ?_
  dsimp only
  split
  · exact hprune _
  · refine .bind (.bind .get fun _ => .bind (.forIn (fun _ _ =>
      .bind (register_upholds hg) fun _ => .pure _) _) fun _ => .pure _) fun _ => .ite ?_ (hprune _)
    exact fun k hk => hprune _ _ (h.weak (h.touch (k := k) _ _ _ hk))

theorem defineUndefined_upholds : Upholds I defineUndefined := by
  refine .bind .unfrozen fun _ => .bind (.ask _) fun found => .bind .get fun f => .ite (.pure _) ?_
  exact .bind (newBlock_upholds hg _) fun entry => .bind (prependBlock_upholds h hg entry) fun _ =>
    supply_upholds hI entry _

/-- A request, granted or refused, upholds what depends on the trees and their age alone and minds
neither touches, nor new trees without edges, nor the seal. -/
theorem Request.run_upholds (hseal : ∀ {k}, I k → I { k with frozen := true }) (r : Request) :
    Upholds I r.run := by
  cases hr : r.reshapes with
  | true => exact Request.reshapes_upholds h hg hr
  | false =>
  cases hc : r.composed with
  | false => exact Request.quiet_upholds hI hr hc
  | true =>
  cases r with
  | split b position => exact .silent (split_upholds h hg hI b position)
  | flatten c => exact .silent (flatten_upholds h hg hI c)
  | defineUndefined => exact .silent (defineUndefined_upholds h hg hI)
  | freeze => exact freeze_upholds hI hseal
  | _ => cases hc

end

end

/-! ## Older or the same -/

def Func.Ages (f g : Func) : Prop :=
  f.generation < g.generation ∨ (g.generation = f.generation ∧ f.trees <+: g.trees)

section

variable {f : Func}

theorem Func.Ages.refl (f : Func) : f.Ages f := Or.inr ⟨rfl, List.prefix_refl _⟩

theorem Func.Ages.touching : Touching f.Ages (f.generation < ·.generation) where
  weak hk := Or.inl hk
  touch _ _ _ hk := by
    rcases hk with hk | ⟨hk, -⟩
    · exact Nat.lt_succ_of_lt hk
    · exact hk ▸ Nat.lt_succ_self _
  free _ _ _ hk := hk

theorem Func.Ages.growing : Growing f.Ages where
  skip hk := hk
  grow _ _ _ _ hk := hk.imp_right fun ⟨hage, htrees⟩ =>
    ⟨hage, htrees.trans (List.prefix_append (_ :: _) [_])⟩

theorem Func.Ages.ofTrees : OfTrees f.Ages := by
  intro k k' hk hg hage
  rw [Ages, hg.trees, hage]
  exact hk

/-- A request makes the trees older, or leaves them but for new ones at the end. -/
theorem Request.ages (r : Request) (f : Func) : f.Ages (r.serve f) :=
  run_upholds Ages.touching Ages.growing Ages.ofTrees id r f (.refl f)

end

end DefFlow.Flow
