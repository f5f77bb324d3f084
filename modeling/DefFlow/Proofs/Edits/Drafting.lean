import DefFlow.Proofs.Edits.Assemble
import DefFlow.Proofs.Edits.Progress

/-!
# What a draft accepts

While a function is being built, trees that were set aside are accepted by a sequence, a fork or a
loop, and an instruction by every block that has not been ended. The instruction has to be made of
variables of the function and has to fit its opcode. Main statement: `appendInst_granted`.
-/

set_option autoImplicit false

namespace DefFlow.Flow

open Func Component

section

variable {f f' : Func} {l r ts cs es : List Component} {c x : Component} {p q b : NodeId}
  {ref : ComponentRef}

/-! ## Trees -/

theorem adopt_tree_granted (ht : f.trees = c :: l ++ x :: r) (hn : (idsAll f.trees).Nodup)
    (href : Refers x f ref) (hp : p ∉ x.ids) : (Edit.adopt p ref).Granted f := by
  obtain ⟨-, hd⟩ := List.cons.inj ht
  exact adopt_aside_granted hn (hd ▸ List.mem_append_right _ List.mem_cons_self) href hp

theorem elementsOf_root (ht : f.trees = l ++ .seq q es :: r) (hn : (idsAll f.trees).Nodup) :
    Edit.elementsOf q f = .ok es f := by
  rw [Edit.elementsOf, Edit.bind_eq Edit.get_eq,
    show f.find? q = some (.seq q es) from find?_root (x := .seq q es) ht hn]
  rfl

theorem appendElement_root_granted (hu : f.frozen = false) (ht : f.trees = l ++ [.seq q es, x])
    (hn : (idsAll f.trees).Nodup) (href : Refers x f ref) :
    (Edit.appendElement q ref).Granted f := by
  have helems := elementsOf_root ht hn
  have hplace :
      (decide (0 ≤ (es.length : Int)) && decide ((es.length : Int) ≤ es.length)) = true := by simp
  have hq : q ∉ x.ids := by
    intro hq
    rw [ht, List.append_cons] at hn
    refine (beside_of_nodup hn hq).1 ?_
    rw [idsAll_append, idsAll_singleton, ids]
    exact List.mem_append_right _ List.mem_cons_self
  obtain ⟨c, l', hcl⟩ : ∃ c l', l ++ [.seq q es] = c :: l' := by
    cases l with
    | nil => exact ⟨_, _, rfl⟩
    | cons c l => exact ⟨_, _, rfl⟩
  obtain ⟨taken, f₁, htake⟩ := adopt_tree_granted (c := c) (l := l') (r := [])
    (by rw [ht, ← hcl, List.append_assoc]; rfl) hn href hq
  obtain ⟨es', hread⟩ := elementsOf_granted f₁ q
  exact .step helems <| .step (Edit.unfrozen_eq hu _) <| .step helems <|
    .step (Edit.require_eq hplace _ _) <| .step htake <| .step hread ⟨_, _, rfl⟩

theorem newSequence_granted (hu : f.frozen = false) : (Edit.newSequence []).Granted f :=
  ⟨_, _, newSequence_eq hu⟩

theorem newBlock_granted (hu : f.frozen = false) (label : String) :
    (Edit.newBlock label).Granted f := by
  obtain ⟨name, h⟩ := newBlock_eq hu label
  exact ⟨_, _, h⟩

def RefersAll (f : Func) (ts : List Component) (refs : List ComponentRef) : Prop :=
  List.Forall₂ (fun x ref => Refers x f ref) ts refs

theorem Refers.congr (h : Refers x f ref) (hh : f'.handle = f.handle) : Refers x f' ref :=
  ⟨h.id, h.owner.trans hh.symm, h.kind⟩

theorem RefersAll.ids {refs : List ComponentRef} (h : RefersAll f ts refs) :
    refs.map ComponentRef.id = ts.map Component.id := by
  induction h with
  | nil => rfl
  | cons h _ ih => rw [List.map_cons, List.map_cons, h.id, ih]

theorem refers_all (ts : List Component) (h : ∀ x ∈ ts, x ∈ f.trees) :
    ∃ refs, (ts.map Component.id).mapM Edit.refTo f = .ok refs f ∧ RefersAll f ts refs := by
  induction ts with
  | nil => exact ⟨[], rfl, .nil⟩
  | cons x ts ih =>
    obtain ⟨ref, href, hx⟩ := refers_tree (h x List.mem_cons_self)
    obtain ⟨refs, hrefs, hts⟩ := ih fun y hy => h y (List.mem_cons_of_mem _ hy)
    refine ⟨ref :: refs, ?_, .cons hx hts⟩
    rw [List.map_cons, List.mapM_cons, Edit.bind_eq href, Edit.bind_eq hrefs]
    rfl

/-- The fork that was set aside last accepts the trees before it as its cases. -/
theorem addCases_granted {cond : NodeId} {refs : List ComponentRef} :
    ∀ {f : Func} {P cs ts : List Component}, f.frozen = false → P.Perm ts →
    f.trees = c :: l ++ (P ++ [.fork q cond cs]) → (idsAll f.trees).Nodup → RefersAll f ts refs →
    Edit.Granted (refs.forM (Edit.addCase q)) f := by
  induction refs with
  | nil => exact fun _ _ _ _ _ => ⟨_, _, rfl⟩
  | cons ref refs ih =>
    intro f P cs ts hu hperm ht hn hrefs
    cases hrefs with
    | @cons x _ ts _ hx hrest =>
    obtain ⟨P₁, P₂, rfl⟩ := List.append_of_mem (hperm.symm.subset List.mem_cons_self)
    have ht' : f.trees = c :: (l ++ P₁) ++ x :: (P₂ ++ [.fork q cond cs]) := by
      rw [ht]
      simp
    have hq : q ∉ x.ids := by
      intro hq
      rw [ht'] at hn
      refine (beside_of_nodup hn hq).2 ?_
      rw [idsAll_append, idsAll_singleton, Component.ids]
      exact List.mem_append_right _ List.mem_cons_self
    obtain ⟨taken, f₁, htake⟩ := adopt_tree_granted ht' hn hx hq
    have hcases : ∃ cs', Edit.casesOf q f₁ = .ok cs' f₁ := by
      rw [Edit.casesOf, Edit.bind_eq Edit.get_eq]
      cases f₁.find? q with
      | none => exact ⟨_, rfl⟩
      | some y => cases y <;> exact ⟨_, rfl⟩
    obtain ⟨cs', hcases⟩ := hcases
    obtain ⟨u, f₂, hadd⟩ : (Edit.addCase q ref).Granted f :=
      .step (Edit.unfrozen_eq hu _) <| .step htake <| .step hcases ⟨_, _, rfl⟩
    have h₂ := addCase_assembles ht' hn hx.id hadd
    have hn₂ : (idsAll f₂.trees).Nodup := by
      rw [h₂.trees]
      rw [ht'] at hn
      refine (List.Perm.nodup_iff (List.perm_iff_count.mpr fun a => ?_)).mp hn
      simp only [idsAll_append, idsAll, Component.ids, List.append_nil, List.count_append,
        List.count_cons, List.cons_append]
      omega
    have ht₂ : f₂.trees = c :: l ++ ((P₁ ++ P₂) ++ [.fork q cond (cs ++ [x])]) := by
      rw [h₂.trees]
      simp
    exact .step hadd (ih (h₂.frozen.trans hu) (List.perm_middle.symm.trans hperm).cons_inv ht₂ hn₂
      (hrest.imp fun _ _ h => h.congr h₂.handle))

theorem newFork_granted {cond : NodeId} {P : List Component}
    {refs : List ComponentRef} (h : f.Draft)
    (ht : f.trees = c :: l ++ .block cond :: P) (hperm : P.Perm ts)
    (href : Refers (.block cond) f ref) (hrefs : RefersAll f ts refs) :
    (Edit.newFork (some ref) refs).Granted f := by
  have hnext : f.nodes.next ∉ (Component.block cond).ids := by
    intro hm
    refine h.next_not_mem ?_
    rw [ht, idsAll_append, idsAll]
    exact List.mem_append_right _ (List.mem_append_left _ hm)
  obtain ⟨taken, f₁, htake⟩ := adopt_tree_granted (f := { f with nodes := f.nodes.skip })
    (p := f.nodes.next) ht h.forest.nodup ⟨href.id, href.owner, href.kind⟩ hnext
  obtain ⟨rfl, hasm⟩ := adopt_assembles (f := { f with nodes := f.nodes.skip }) (x := .block cond)
    ht h.forest.nodup href.id htake
  have h₂ := hasm.trans (assembles_aside f₁ (.fork f.nodes.next cond []))
  rw [hasm.trees, List.append_assoc] at h₂
  have hn₂ : (idsAll (c :: l ++ (P ++ [.fork f.nodes.next cond []]))).Nodup := by
    have hids : (idsAll (c :: l ++ (P ++ [.fork f.nodes.next cond []]))).Perm
        (f.nodes.next :: idsAll f.trees) := by
      rw [ht]
      refine List.perm_iff_count.mpr fun a => ?_
      simp only [idsAll_append, idsAll, Component.ids, List.append_nil, List.count_append,
        List.count_cons, List.cons_append, List.count_nil]
      omega
    exact hids.nodup_iff.mpr (List.nodup_cons.mpr ⟨h.next_not_mem, h.forest.nodup⟩)
  obtain ⟨u, f₃, hcases⟩ : Edit.Granted (refs.forM (Edit.addCase f.nodes.next)) _ :=
    addCases_granted (h₂.frozen.trans h.unfrozen) hperm h₂.trees (h₂.trees ▸ hn₂)
      (hrefs.imp fun _ _ hr => hr.congr h₂.handle)
  exact .step (Edit.unfrozen_eq h.unfrozen _) <| .step rfl <| .step rfl <| .step htake <|
    .step rfl <| .step hcases ⟨_, _, rfl⟩

theorem adopt_last_granted {P Q : List Component} (ht : f.trees = c :: l ++ P)
    (hperm : P.Perm (x :: Q)) (hn : (idsAll f.trees).Nodup) (href : Refers x f ref)
    (hp : p ∉ idsAll P) : ∃ f₁ P', Edit.adopt p ref f = .ok x f₁ ∧ P'.Perm Q ∧
      f₁.trees = c :: l ++ P' ∧ (idsAll f₁.trees).Nodup ∧ f₁.handle = f.handle ∧
      p ∉ idsAll P' := by
  obtain ⟨P₁, P₂, rfl⟩ := List.append_of_mem (hperm.symm.subset List.mem_cons_self)
  have hx : p ∉ x.ids := fun hm => hp (by
    rw [idsAll_append, idsAll]
    exact List.mem_append_right _ (List.mem_append_left _ hm))
  obtain ⟨taken, f₁, htake⟩ := adopt_tree_granted (c := c) (l := l ++ P₁) (r := P₂)
    (by rw [ht]; simp) hn href hx
  obtain ⟨rfl, hn₁, P', hp', hasm⟩ := adopt_last ht hperm hn href.id htake
  refine ⟨f₁, P', htake, hp', hasm.trees, hn₁, hasm.handle, fun hm => hp ?_⟩
  have hall := idsAll_perm (hperm.trans (hp'.symm.cons taken))
  rw [hall.mem_iff, idsAll]
  exact List.mem_append_right _ hm

theorem loop_granted {P : List Component} {start body update : Component} {cond after : NodeId}
    {rstart rcond rbody rupdate rafter : ComponentRef} (h : f.Draft) (ht : f.trees = c :: l ++ P)
    (hperm : P.Perm [start, .block cond, body, update, .block after])
    (hstart : Refers start f rstart) (hcond : Refers (.block cond) f rcond)
    (hbody : Refers body f rbody) (hupdate : Refers update f rupdate)
    (hafter : Refers (.block after) f rafter) :
    Edit.Granted (do
      let id ← Edit.register
      let start ← Edit.adopt id rstart
      let cond ← Edit.adopt id rcond
      let body ← Edit.adopt id rbody
      let update ← Edit.adopt id rupdate
      let after ← Edit.adopt id rafter
      modify fun f => { f with
        detached := f.detached ++ [.loop id start cond.id body update after.id] }
      return id : Edit NodeId) f := by
  have hnext : f.nodes.next ∉ idsAll P := fun hm => h.next_not_mem (by
    rw [ht, idsAll_append]
    exact List.mem_append_right _ hm)
  have hid : Edit.register f = .ok f.nodes.next { f with nodes := f.nodes.skip } := rfl
  obtain ⟨f₁, P₁, h₁, hp₁, ht₁, hn₁, hh₁, hq₁⟩ := adopt_last_granted
    (f := { f with nodes := f.nodes.skip }) ht hperm h.forest.nodup (hstart.congr rfl) hnext
  obtain ⟨f₂, P₂, h₂, hp₂, ht₂, hn₂, hh₂, hq₂⟩ := adopt_last_granted ht₁ hp₁ hn₁
    (hcond.congr hh₁) hq₁
  obtain ⟨f₃, P₃, h₃, hp₃, ht₃, hn₃, hh₃, hq₃⟩ := adopt_last_granted ht₂ hp₂ hn₂
    (hbody.congr (hh₂.trans hh₁)) hq₂
  obtain ⟨f₄, P₄, h₄, hp₄, ht₄, hn₄, hh₄, hq₄⟩ := adopt_last_granted ht₃ hp₃ hn₃
    (hupdate.congr (hh₃.trans (hh₂.trans hh₁))) hq₃
  obtain ⟨f₅, P₅, h₅, -⟩ := adopt_last_granted ht₄ hp₄ hn₄
    (hafter.congr (hh₄.trans (hh₃.trans (hh₂.trans hh₁)))) hq₄
  exact .step hid <| .step h₁ <| .step h₂ <| .step h₃ <| .step h₄ <| .step h₅ ⟨_, _, rfl⟩

/-- A loop accepts the last trees; what is missing is new. -/
theorem newLoop_granted {P : List Component} {given : Option (ComponentRef × Component)}
    {body update : Component} {cond : NodeId} {rcond rbody rupdate : ComponentRef} (h : f.Draft)
    (ht : f.trees = c :: l ++ P)
    (hperm : P.Perm ((given.map Prod.snd).toList ++ [.block cond, body, update]))
    (hgiven : ∀ e ∈ given, Refers e.2 f e.1) (hcond : Refers (.block cond) f rcond)
    (hbody : Refers body f rbody) (hupdate : Refers update f rupdate) :
    (Edit.newLoop (given.map Prod.fst) (some rcond) (some rbody) (some rupdate)
        none).Granted f := by
  obtain ⟨ref, f₁, s, P₁, hstart, hbuilds, ht₁, hp₁, href⟩ : ∃ ref f₁ s P₁,
      Edit.orNewSequence (given.map Prod.fst) f = .ok ref f₁ ∧ Builds none f f₁ ∧
      f₁.trees = c :: l ++ P₁ ∧ P₁.Perm (s :: [.block cond, body, update]) ∧ Refers s f₁ ref := by
    cases given with
    | some e => exact ⟨e.1, f, e.2, P, rfl, .refl h none, ht, hperm, hgiven e rfl⟩
    | none =>
      obtain ⟨q, f₁, hnew⟩ := newSequence_granted h.unfrozen
      obtain ⟨hb, htrees⟩ := newSequence_builds h hnew
      obtain ⟨ref, href, hrefers⟩ := refers_tree (f := f₁) (x := .seq q []) (by rw [htrees]; simp)
      refine ⟨ref, f₁, .seq q [], P ++ [.seq q []], ?_, hb, ?_, ?_, hrefers⟩
      · exact (Edit.bind_eq hnew).trans href
      · rw [htrees, ht, List.append_assoc]
      · exact (List.perm_append_singleton _ _).trans (hperm.cons _)
  obtain ⟨after, f₂, hnew⟩ := newBlock_granted hbuilds.draft.unfrozen "loop_after"
  obtain ⟨hb₂, ht₂, -⟩ := newBlock_builds hbuilds.draft hnew
  obtain ⟨rafter, hafter, hrefers⟩ := refers_tree (f := f₂) (x := .block after) (by rw [ht₂]; simp)
  have hlast : Edit.orNewBlock "loop_after" none f₁ = .ok rafter f₂ :=
    (Edit.bind_eq hnew).trans hafter
  have hhandle : f₂.handle = f.handle := hb₂.handle.trans hbuilds.handle
  refine .step (Edit.unfrozen_eq h.unfrozen _) <| .step hstart <| .step rfl <| .step rfl <|
    .step rfl <| .step hlast ?_
  exact loop_granted (P := P₁ ++ [.block after]) hb₂.draft
    (by rw [ht₂, ht₁, List.append_assoc]) (hp₁.append_right _) (href.congr hb₂.handle)
    (hcond.congr hhandle) (hbody.congr hhandle) (hupdate.congr hhandle) hrefers

/-! ## Instructions -/

def Func.ended (f : Func) (b : NodeId) : Bool := (f.terminator? b).isSome

end

section

variable {f f' : Func} {b : NodeId} {v : VarId} {t : TimelineId} {i : InstId} {k : Nat}

theorem varAt_congr (h : f'.vars = f.vars) (v : VarId) : f'.varAt v = f.varAt v := by
  cases v with
  | zero => rfl
  | succ n => rw [Func.varAt, Func.varAt, Func.var?, Func.var?, h]

theorem addOperand_granted (ht : f.Tables) (hb : (f.nodes.get? b).isSome) {op : Operation}
    {n slot : Nat} {a : Arg} (hown : ∀ v, a = .var v → v.owner = f.handle) :
    (Edit.addOperand op b i n slot a).Granted f := by
  cases a with
  | constant c => exact ⟨_, _, rfl⟩
  | var v =>
    obtain ⟨t, f₁, htl, -⟩ := Edit.timelineFor_ok ht hb v.id
    exact .step Edit.get_eq <| .step (Edit.require_eq (by simpa using hown v rfl) _ _) <|
      .step htl <| .step rfl <| .step rfl ⟨_, _, rfl⟩

/-- The operands of a new instruction, one after the other. -/
theorem addOperands_granted (ht : f.Tables) (hb : (f.nodes.get? b).isSome) {op : Operation}
    {n : Nat} {args : List Arg} (hown : ∀ v, .var v ∈ args → v.owner = f.handle) :
    ∃ f₁, (forIn args.zipIdx PUnit.unit (fun (x : Arg × Nat) _ => do
      Edit.addOperand op b i n x.2 x.1
      pure (ForInStep.yield PUnit.unit)) : Edit PUnit) f = .ok ⟨⟩ f₁ := by
  refine (Edit.forIn_eq (fun _ g => g.Tables ∧ (g.nodes.get? b).isSome ∧ g.handle = f.handle)
    (fun done x rest g hsplit hg => ?_) ⟨ht, hb, rfl⟩).imp fun _ h => h.1
  obtain ⟨a, slot⟩ := x
  obtain ⟨htg, hbg, hh⟩ := hg
  have ha : ∀ v, a = .var v → v.owner = g.handle := by
    rintro v rfl
    rw [hh]
    refine hown v ?_
    have hmem : (Arg.var v, slot) ∈ args.zipIdx := by
      rw [hsplit]
      exact List.mem_append_right _ List.mem_cons_self
    exact List.fst_mem_of_mem_zipIdx hmem
  obtain ⟨u, g', hadd⟩ : (Edit.addOperand op b i n slot a).Granted g :=
    addOperand_granted htg hbg ha
  have hop := addOperand_ok htg hbg hadd
  exact ⟨g', Edit.bind_eq hadd, hop.tables, by rw [hop.stored]; exact hbg, hop.handle.trans hh⟩

theorem defineAt_granted (ht : f.Tables) (hid : f.timelineId? b v = some t)
    (htype : (f.varAt v).type.isVoid = false) : (Edit.defineAt t i v).Granted f := by
  let count (x : Variable) : Variable := if x.id = v then { x with defs := x.defs + 1 } else x
  have hcount : ∀ x, (count x).type = x.type := fun x => by
    dsimp only [count]
    split <;> rfl
  let d : Def := ⟨v, (f.varAt v).defs + 1⟩
  have hnext : Edit.nextDef v f = .ok d { f with vars := f.vars.map count } := rfl
  let f₁ : Func := { f with
    vars := f.vars.map count, insts := f.insts.modify i fun x => { x with dest := some d } }
  have hvar : (f₁.timelineAt t).var = v := ht.var_eq hid
  have hvoid : (!(f₁.varAt (f₁.timelineAt t).var).type.isVoid) = true := by
    rw [hvar, Bool.not_eq_true']
    cases v with
    | zero => exact htype
    | succ n =>
      rw [Func.varAt, Func.var?, List.getElem?_map]
      rw [Func.varAt, Func.var?] at htype
      cases hv : f.vars[n]? with
      | none => rw [hv] at htype; exact htype
      | some x =>
        rw [hv] at htype
        exact (congrArg ValueType.isVoid (hcount x)).trans htype
  have hinsert : (Edit.insertLocal t i).Granted f₁ := by
    refine .step Edit.get_eq ?_
    dsimp only
    split
    · exact .step (Edit.require_eq hvoid _ _) ⟨_, _, rfl⟩
    · exact ⟨_, _, rfl⟩
  obtain ⟨u, f₂, hinsert⟩ := hinsert
  exact .step Edit.get_eq <| .step hnext <| .step (Edit.changeInst_eq _ _) <|
    .step hinsert <| .step Edit.get_eq <| .step (Edit.changeTimeline_eq _ _) ⟨_, _, rfl⟩

theorem define_granted (h : f.Scheduled) (ht : f.Tables) (hf : f.frozen = false)
    (hn : ∀ n, f.incoming.get? n = none) (hb : (f.nodes.get? b).isSome)
    (hi : (f.code b)[k]? = some i) (hd : (f.inst i).dest = none)
    (htype : (f.varAt v).type.isVoid = false) : (Edit.define b i v).Granted f := by
  obtain ⟨t, f₁, htl, ht₁, hlists⟩ := Edit.timelineFor_ok ht hb v
  have hop := hlists.operates ht ht₁
  have htype₁ : (f₁.varAt v).type.isVoid = false := by
    rw [varAt_congr hlists.keeps.vars]
    exact htype
  obtain ⟨u, f₂, hat⟩ := defineAt_granted (i := i) ht₁ hlists.self htype₁
  have hassigns := assigns_defineAt (h.congr hop.code hop.phiCount hop.locals hop.standing) ht₁
    hlists.self (hop.code b ▸ hi) ((hop.dest i).trans hd) hat
  refine .step htl <| .step Edit.get_eq <| .step hat ?_
  split
  · exact ⟨_, _, rfl⟩
  · have hnodes : ∀ n, f₂.incoming.get? n = none := by
      rw [hassigns.incoming, hlists.incoming]
      exact hn
    obtain ⟨c, hc⟩ := propagate_of_no_nodes (hassigns.tables.joinNodes_of_no_nodes hnodes)
      (hassigns.frozen.trans (hop.frozen.trans hf)) t none
    exact .step hc ⟨_, _, rfl⟩

/-- What an instruction has to be like to stand in a block of a function. -/
structure Fits (op : Opcode) (dest : Option Variable) (args : List Arg) (f : Func) : Prop where
  code : op ≠ .invalid ∧ op ≠ .phi
  arity : op.arity.all (args.length = ·) = true
  defines : dest.isSome → op.hasDef = true
  defined : op.hasDef = true → dest.isSome ∨ op = .call
  dest : ∀ v ∈ dest, v.owner = f.handle ∧ v.type.isVoid = false ∧
    (f.varAt v.id).type.isVoid = false
  args : ∀ v, .var v ∈ args → v.owner = f.handle

theorem insertable_granted {op : Opcode} {dest : Option Variable} {args : List Arg}
    (hu : f.frozen = false) (hfits : Fits op dest args f) (hend : f.ended b = false)
    (n : Nat) : Edit.insertable .appendInst b n op dest args f = .ok () f := by
  have harity : Edit.checkArity .appendInst op args f = .ok () f := by
    have ha := hfits.arity
    rw [Edit.checkArity]
    cases hop : op.arity with
    | none => rfl
    | some arity =>
      rw [hop] at ha
      exact Edit.require_eq ha _ _
  have hplace : Edit.checkPlace .appendInst b n f = .ok () f := by
    rw [Edit.checkPlace, Edit.bind_eq Edit.get_eq,
      Option.isSome_eq_false_iff.mp hend |> Option.isNone_iff_eq_none.mp]
    rfl
  have hdest : Edit.checkDest .appendInst dest f = .ok () f := by
    cases dest with
    | none => rfl
    | some v =>
      obtain ⟨hv, htype, -⟩ := hfits.dest v rfl
      rw [Edit.checkDest, Edit.bind_eq Edit.get_eq,
        Edit.bind_eq (Edit.require_eq (by simpa using hv) _ _)]
      exact Edit.require_eq (by rw [htype]; rfl) _ _
  rw [Edit.insertable, Edit.bind_eq (Edit.unfrozen_eq hu _),
    Edit.bind_eq (Edit.require_eq (by simpa using hfits.code) _ _), Edit.bind_eq harity,
    Edit.bind_eq (Edit.require_eq (by have := hfits.defines; cases dest <;> simp_all) _ _),
    Edit.bind_eq (Edit.require_eq ?_ _ _), Edit.bind_eq hplace]
  · exact hdest
  · have := hfits.defined
    cases hh : op.hasDef <;> simp_all

/-- A draft accepts an instruction behind the others of a block. -/
theorem appendInst_granted (h : f.Draft) (hb : (f.nodes.get? b).isSome) {op : Opcode}
    {dest : Option Variable} {args : List Arg}
    (hfits : Fits op dest args f) (hend : f.ended b = false) :
    (Edit.appendInst b op dest args).Granted f := by
  obtain ⟨j, f₁, hplace, hpl⟩ := placeInst_ok h.scheduled hb (Nat.le_refl _) op
  have hs₁ := hpl.scheduled h.scheduled
  have hat := hpl.getElem? (Nat.le_refl _)
  have hb₁ : (f₁.nodes.get? b).isSome := by rw [hpl.stored]; exact hb
  obtain ⟨f₂, hargs⟩ : ∃ f₂, (forIn args.zipIdx PUnit.unit (fun (x : Arg × Nat) _ => do
      Edit.addOperand .appendInst b j (f.code b).length x.2 x.1
      pure (ForInStep.yield PUnit.unit)) : Edit PUnit) f₁ = .ok ⟨⟩ f₂ :=
    addOperands_granted (hpl.tables h.tables) hb₁ fun v hv =>
      (hfits.args v hv).trans hpl.handle.symm
  obtain ⟨x, hx, hxb, hxi⟩ := hs₁.place hat
  have hcontent := hpl.content j
  rw [if_pos rfl] at hcontent
  -- the operands leave the instruction without a definition
  have htakes : Takes j (args.map Arg.operand) f₁ f₂ := by
    have hargs' := hargs
    rw [← hs₁.indexOf hat] at hargs'
    have hrun : _ = EStateM.Result.ok j f₂ := Edit.bind_eq (g := fun _ => pure j) hargs'
    obtain ⟨f₃, htakes, hrun⟩ := takes_operands (hpl.tables h.tables) hs₁ hb₁
      (by rw [Func.inst, hx]; exact hxb) (by rw [hx]; rfl)
      (congrArg (fun x => x.2.1) hcontent) hrun
    cases hrun
    exact htakes
  refine .step Edit.get_eq <| .step (insertable_granted h.unfrozen hfits hend _) <|
    .step hplace <| .step hargs ?_
  cases dest with
  | none => exact .step rfl ⟨_, _, rfl⟩
  | some v =>
    have hvar := varAt_congr (htakes.vars.trans hpl.vars) v.id
    have hnodes : ∀ n, f₂.incoming.get? n = none := by
      rw [htakes.incoming, hpl.incoming]
      exact h.nodes
    obtain ⟨u, f₃, hdef⟩ := define_granted (v := v.id)
      (hs₁.congr htakes.code htakes.phiCount htakes.locals htakes.standing) htakes.tables
      (htakes.frozen.trans (hpl.frozen.trans h.unfrozen)) hnodes (by rw [htakes.stored]; exact hb₁)
      (by rw [htakes.code]; exact hat) ((htakes.dest j).trans hpl.dest_eq_none)
      (by rw [hvar]; exact (hfits.dest v rfl).2.2)
    exact .step hdef <| .step rfl ⟨_, _, rfl⟩

theorem appendInst_refused {v : Variable} (hvoid : v.type.isVoid = true) (b : NodeId) (op : Opcode)
    (args : List Arg) (f : Func) : ∃ e f', Edit.appendInst b op (some v) args f = .error e f' := by
  cases hrun : Edit.appendInst b op (some v) args f with
  | error e f' => exact ⟨e, f', rfl⟩
  | ok j f' =>
    rw [Edit.appendInst, Edit.bind_eq Edit.get_eq, Edit.insertInst] at hrun
    obtain ⟨_, f₁, hcheck, -⟩ := Edit.bind_ok hrun
    obtain ⟨_, h₁⟩ := Edit.unfrozen_bind_ok hcheck
    obtain ⟨_, h₂⟩ := Edit.require_bind_ok h₁
    obtain ⟨_, f₂, -, h₃⟩ := Edit.bind_ok h₂
    obtain ⟨_, h₄⟩ := Edit.require_bind_ok h₃
    obtain ⟨_, h₅⟩ := Edit.require_bind_ok h₄
    obtain ⟨_, f₃, -, hdest⟩ := Edit.bind_ok h₅
    rw [Edit.checkDest, Edit.bind_eq Edit.get_eq] at hdest
    obtain ⟨_, hdest⟩ := Edit.require_bind_ok hdest
    have htype := (Edit.require_ok hdest).1
    rw [hvoid] at htype
    cases htype

end

end DefFlow.Flow
