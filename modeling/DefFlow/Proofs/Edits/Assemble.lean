import DefFlow.Proofs.Edits.Append
import DefFlow.Proofs.Edits.Undefined

/-!
# Assembling trees

New blocks and sequences are set aside behind all other trees. A structure is made of trees
that were set aside, and takes its place behind those that are left. The last sequence gets
what stands behind it as one more element.
-/

set_option autoImplicit false

namespace DefFlow.Flow

open Func Component

structure Assembles (ts : List Component) (f f' : Func) : Prop extends Reroots f f' where
  trees : f'.trees = ts
  held : f'.bodyHeld = f.bodyHeld
  size : f.nodes.size ≤ f'.nodes.size
  vars : f'.vars = f.vars
  head : f'.head = f.head
  memo : f.memo = [] → f'.memo = []

section

variable {f f' f'' : Func} {l r ts ts' cs es : List Component} {c x taken : Component}
  {p q cond : NodeId} {ref : ComponentRef} {u : Unit}

theorem Assembles.trans (h : Assembles ts f f') (h' : Assembles ts' f' f'') :
    Assembles ts' f f'' where
  toReroots := h.toReroots.trans h'.toReroots
  trees := h'.trees
  held := h'.held.trans h.held
  size := Nat.le_trans h.size h'.size
  vars := h'.vars.trans h.vars
  head := h'.head.trans h.head
  memo hm := h'.memo (h.memo hm)

theorem SameRecords.waits (h : SameRecords f f') (hinsts : f'.insts = f.insts)
    (hcode : ∀ b, f'.code b = f.code b) (hw : f.Waits) : f'.Waits := by
  have hinst : f'.inst = f.inst := funext fun i => by rw [Func.inst, Func.inst, hinsts]
  have hdefines : f'.defines = f.defines := funext fun w => funext fun i => by
    rw [Func.defines, Func.defines, hinst]
  have hwaiting : f'.waiting = f.waiting := funext fun b => funext fun v => by
    rw [Func.waiting, Func.waiting, h.timeline?]
  refine ⟨fun b v => hwaiting ▸ hw.nodup b v, fun b v u => ?_⟩
  rw [hwaiting, hw.mem, usedAt_iff, usedAt_iff, Func.Quiet, Func.Quiet, Func.indexOf,
    Func.indexOf, hinst, hcode, hdefines]

theorem Reroots.code (h : Reroots f f') (b : NodeId) : f'.code b = f.code b := by
  rw [Func.code, Func.code, h.blockAt]

theorem Reroots.draft (h : Reroots f f') (hd : f.Draft) (hf : f'.Forest) (hm : f'.memo = []) :
    f'.Draft where
  forest := hf
  tables := h.sameRecords.tables hd.tables
  scheduled := h.scheduled hd.scheduled
  unfrozen := h.frozen.trans hd.unfrozen
  memo := hm
  nodes n := by rw [h.incoming]; exact hd.nodes n
  waits := h.sameRecords.waits h.insts h.code hd.waits

/-- Trees made of the numbers that there were, each used once, and of new ones. -/
theorem Assembles.draft (h : Assembles ts f f') (hd : f.Draft) (extra : List NodeId)
    (hids : (idsAll ts).Subperm (idsAll f.trees ++ extra)) (hextra : extra.Nodup)
    (hnew : ∀ i ∈ extra, f.nodes.size < i ∧ i ≤ f'.nodes.size)
    (hblocks : ∀ b ∈ blocksAll ts, b ∈ blocksAll f.trees) : f'.Draft := by
  refine h.toReroots.draft hd (hd.forest.renumbered h.held (h.trees ▸ hids) hextra hnew h.size
    fun b hb => ?_) (h.memo hd.memo)
  rw [h.block]
  exact hd.forest.stored b (hblocks b (h.trees ▸ hb))

/-! ## Steps -/

theorem id_ne_of_nodup (hn : (idsAll (l ++ x :: r)).Nodup) : ∀ y ∈ l ++ r, y.id ≠ x.id := by
  intro y hy he
  obtain ⟨hl, hr⟩ := beside_of_nodup hn (id_mem_ids x)
  rcases List.mem_append.mp hy with hy | hy
  · exact hl (he ▸ mem_idsAll_of_mem hy)
  · exact hr (he ▸ mem_idsAll_of_mem hy)

theorem adopt_assembles (ht : f.trees = c :: l ++ x :: r) (hn : (idsAll f.trees).Nodup)
    (href : ref.id = x.id) (hrun : Edit.adopt p ref f = .ok taken f') :
    taken = x ∧ Assembles (c :: l ++ r) f f' := by
  obtain ⟨hbody, hd⟩ := List.cons.inj ht
  rw [ht] at hn
  obtain ⟨htaken, rfl⟩ := adopt_ok hd
    (fun y hy => id_ne_of_nodup hn y (by rw [List.cons_append]; exact .tail _ hy)) href hrun
  refine ⟨htaken, ⟨rfl, rfl, fun _ => rfl, rfl, rfl, rfl⟩, ?_, rfl, Nat.le_refl _, rfl, rfl,
    fun _ => rfl⟩
  rw [Func.trees, hbody]
  rfl

theorem assembles_changeAt {g : Component → Component} (p : NodeId) :
    ∃ f', Edit.changeAt p g f = .ok () f' ∧ Assembles (modifyAll p g f.trees) f f' :=
  ⟨_, rfl, ⟨rfl, rfl, fun _ => rfl, rfl, rfl, rfl⟩, rfl, rfl, Nat.le_refl _, rfl, rfl, id⟩

theorem changeAt_assembles {g : Component → Component} (ht : f.trees = l ++ x :: r)
    (hn : (idsAll f.trees).Nodup) (hrun : Edit.changeAt x.id g f = .ok u f') :
    Assembles (l ++ g x :: r) f f' := by
  obtain ⟨f₁, h₁, hasm⟩ := assembles_changeAt (f := f) (g := g) x.id
  rw [h₁] at hrun
  cases hrun
  rw [ht] at hasm hn
  rwa [modifyAll_middle hn (id_mem_ids x), modify_self] at hasm

theorem find?_root (ht : f.trees = l ++ x :: r) (hn : (idsAll f.trees).Nodup) :
    f.find? x.id = some x := by
  rw [ht] at hn
  obtain ⟨hl, hr⟩ := beside_of_nodup hn (id_mem_ids x)
  rw [Func.find?, ht, findAll?_beside hl hr, find?_self]

theorem assembles_aside (f : Func) (x : Component) :
    Assembles (f.trees ++ [x]) f { f with detached := f.detached ++ [x] } :=
  ⟨⟨rfl, rfl, fun _ => rfl, rfl, rfl, rfl⟩, rfl, rfl, Nat.le_refl _, rfl, rfl, id⟩

theorem assembles_register (f : Func) : Assembles f.trees f { f with nodes := f.nodes.skip } :=
  ⟨⟨rfl, rfl, fun b => f.nodes.get?_skip b, rfl, rfl, rfl⟩, rfl, rfl,
    by rw [Arena.size_skip]; exact Nat.le_succ _, rfl, rfl, id⟩

/-! ## Sequences -/

/-- The last sequence gets the tree behind it as one more element. -/
theorem appendElement_assembles (ht : f.trees = l ++ [.seq q es, x]) (hn : (idsAll f.trees).Nodup)
    (href : ref.id = x.id) (hrun : Edit.appendElement q ref f = .ok u f') :
    Assembles (l ++ [.seq q (es ++ [x])]) f f' := by
  have helems : ∀ {g : Func} {r}, g.trees = l ++ .seq q es :: r → (idsAll g.trees).Nodup →
      Edit.elementsOf q g = .ok es g := by
    intro g r ht hn
    rw [Edit.elementsOf, Edit.bind_eq Edit.get_eq,
      show g.find? q = some (.seq q es) from find?_root (x := .seq q es) ht hn]
    rfl
  rw [Edit.appendElement, Edit.bind_eq (helems ht hn), Edit.insertElement] at hrun
  obtain ⟨_, hrun⟩ := Edit.unfrozen_bind_ok hrun
  rw [Edit.bind_eq (helems ht hn)] at hrun
  obtain ⟨_, hrun⟩ := Edit.require_bind_ok hrun
  obtain ⟨taken, f₁, htake, hrun⟩ := Edit.bind_ok hrun
  obtain ⟨c, l', hcl⟩ : ∃ c l', l ++ [.seq q es] = c :: l' := by
    cases l with
    | nil => exact ⟨_, _, rfl⟩
    | cons c l => exact ⟨_, _, rfl⟩
  obtain ⟨rfl, hasm⟩ := adopt_assembles (c := c) (l := l') (r := [])
    (by rw [ht, ← hcl, List.append_assoc]; rfl) hn href htake
  rw [← hcl, List.append_nil] at hasm
  have hn₁ : (idsAll f₁.trees).Nodup := by
    rw [hasm.trees]
    rw [ht, show l ++ [Component.seq q es, taken] = l ++ [.seq q es] ++ [taken] by simp,
      idsAll_append] at hn
    exact hn.of_append_left
  rw [Edit.bind_eq (helems hasm.trees hn₁), Int.toNat_natCast,
    List.insertIdx_length_self] at hrun
  exact hasm.trans (changeAt_assembles (x := .seq q es) hasm.trees hn₁ hrun)

theorem newSequence_assembles (hrun : Edit.newSequence [] f = .ok q f') :
    q = f.nodes.next ∧ f'.nodes.size = f.nodes.size + 1 ∧
      Assembles (f.trees ++ [.seq q []]) f f' := by
  obtain ⟨rfl, rfl⟩ := newSequence_ok hrun
  exact ⟨rfl, Arena.size_skip _, (assembles_register f).trans
    (assembles_aside { f with nodes := f.nodes.skip } _)⟩

/-! ## Forks -/

theorem addCase_assembles (ht : f.trees = c :: l ++ x :: (r ++ [.fork q cond cs]))
    (hn : (idsAll f.trees).Nodup) (href : ref.id = x.id)
    (hrun : Edit.addCase q ref f = .ok u f') :
    Assembles (c :: l ++ (r ++ [.fork q cond (cs ++ [x])])) f f' := by
  obtain ⟨_, hrun⟩ := Edit.unfrozen_bind_ok hrun
  obtain ⟨taken, f₁, htake, hrun⟩ := Edit.bind_ok hrun
  obtain ⟨rfl, hasm⟩ := adopt_assembles ht hn href htake
  have hn₁ : (idsAll f₁.trees).Nodup := by
    rw [hasm.trees]
    rw [ht, idsAll_append, idsAll] at hn
    rw [idsAll_append]
    exact hn.sublist ((List.sublist_append_right _ _).append_left _)
  have ht₁ : f₁.trees = (c :: l ++ r) ++ .fork q cond cs :: [] := by
    rw [hasm.trees, List.append_assoc]
  have hcases : Edit.casesOf q f₁ = .ok cs f₁ := by
    rw [Edit.casesOf, Edit.bind_eq Edit.get_eq,
      show f₁.find? q = some (.fork q cond cs) from find?_root (x := .fork q cond cs) ht₁ hn₁]
    rfl
  rw [Edit.bind_eq hcases] at hrun
  have h := hasm.trans (changeAt_assembles (x := .fork q cond cs) ht₁ hn₁ hrun)
  rwa [List.append_assoc] at h

/-- The trees between the others and the fork become its cases. -/
theorem addCases_assembles {refs : List ComponentRef} : ∀ {f f' : Func} {P cs ts : List Component}
    {u : Unit}, P.Perm ts → f.trees = c :: l ++ (P ++ [.fork q cond cs]) → (idsAll f.trees).Nodup →
    refs.map ComponentRef.id = ts.map Component.id → refs.forM (Edit.addCase q) f = .ok u f' →
    Assembles (c :: l ++ [.fork q cond (cs ++ ts)]) f f' := by
  induction refs with
  | nil =>
    intro f f' P cs ts u hperm ht hn href hrun
    obtain rfl : ts = [] := List.map_eq_nil_iff.mp href.symm
    obtain rfl := hperm.eq_nil
    cases hrun
    exact ⟨.refl f, by rw [ht]; simp, rfl, Nat.le_refl _, rfl, rfl, id⟩
  | cons ref refs ih =>
    intro f f' P cs ts u hperm ht hn href hrun
    obtain ⟨x, ts, rfl⟩ : ∃ x ts', ts = x :: ts' := by
      cases ts with
      | nil => cases href
      | cons x ts => exact ⟨x, ts, rfl⟩
    obtain ⟨hx, hrefs⟩ := List.cons.inj href
    obtain ⟨P₁, P₂, rfl⟩ := List.append_of_mem (hperm.symm.subset List.mem_cons_self)
    have hrest : (P₁ ++ P₂).Perm ts := (List.perm_middle.symm.trans hperm).cons_inv
    obtain ⟨_, f₁, hadd, hrun⟩ := Edit.bind_ok (x := Edit.addCase q ref) hrun
    have h₁ : Assembles (c :: l ++ (P₁ ++ P₂ ++ [.fork q cond (cs ++ [x])])) f f₁ := by
      have ht' : f.trees = c :: (l ++ P₁) ++ x :: (P₂ ++ [.fork q cond cs]) := by
        rw [ht]
        simp
      simpa using addCase_assembles ht' hn hx hadd
    have hn₁ : (idsAll f₁.trees).Nodup := by
      rw [h₁.trees]
      rw [ht] at hn
      refine (List.Perm.nodup_iff (List.perm_iff_count.mpr fun a => ?_)).mp hn
      simp only [idsAll_append, idsAll, ids, List.append_nil, List.count_append, List.count_cons,
        List.cons_append]
      omega
    have h := h₁.trans (ih hrest h₁.trees hn₁ hrefs hrun)
    simpa using h

theorem idsAll_perm (h : ts.Perm ts') : (idsAll ts).Perm (idsAll ts') := by
  induction h with
  | nil => exact .refl _
  | cons x _ ih => exact ih.append_left _
  | swap x y l =>
    simp only [idsAll, ← List.append_assoc]
    exact List.perm_append_comm.append_right _
  | trans _ _ ih ih' => exact ih.trans ih'

theorem blocksAll_perm (h : ts.Perm ts') : (blocksAll ts).Perm (blocksAll ts') := by
  induction h with
  | nil => exact .refl _
  | cons x _ ih => exact ih.append_left _
  | swap x y l =>
    simp only [blocksAll, ← List.append_assoc]
    exact List.perm_append_comm.append_right _
  | trans _ _ ih ih' => exact ih.trans ih'

theorem Func.Draft.next_not_mem (h : f.Draft) : f.nodes.next ∉ idsAll f.trees := fun hm =>
  absurd (h.forest.bounded _ hm).2 (Nat.not_succ_le_self _)

/-- A structure with the next number takes the place of the trees that it is made of. -/
theorem Assembles.draft_of_parts {P parts : List Component} (h : Assembles (c :: l ++ [x]) f f')
    (hd : f.Draft) (ht : f.trees = c :: l ++ P) (hperm : P.Perm parts)
    (hsize : f.nodes.skip.size ≤ f'.nodes.size)
    (hids : x.ids.Perm (f.nodes.next :: idsAll parts))
    (hblocks : ∀ b ∈ x.blocks, b ∈ blocksAll parts) : f'.Draft := by
  refine h.draft hd [f.nodes.next] (List.Perm.subperm ?_) (List.nodup_singleton _) ?_ ?_
  · have hp := (idsAll_perm hperm).symm
    rw [ht]
    refine List.perm_iff_count.mpr fun a => ?_
    have := (hids.trans (hp.cons _)).count_eq a
    simp only [idsAll_append, idsAll, List.append_nil, List.count_append, List.count_cons,
      List.cons_append, List.count_nil] at this ⊢
    omega
  · intro i hi
    obtain rfl := List.mem_singleton.mp hi
    rw [Arena.size_skip] at hsize
    exact ⟨Nat.lt_succ_self _, hsize⟩
  · intro b hb
    rw [ht, blocksAll_append, List.mem_append]
    rw [blocksAll_append, List.mem_append, blocksAll_singleton] at hb
    exact hb.imp_right fun hx => (blocksAll_perm hperm).mem_iff.mpr (hblocks b hx)

theorem newFork_draft {P : List Component} {refs : List ComponentRef} (h : f.Draft)
    (ht : f.trees = c :: l ++ .block cond :: P) (hperm : P.Perm ts) (href : ref.id = cond)
    (hrefs : refs.map ComponentRef.id = ts.map Component.id)
    (hrun : Edit.newFork (some ref) refs f = .ok q f') :
    f'.Draft ∧ Assembles (c :: l ++ [.fork q cond ts]) f f' := by
  obtain ⟨_, hrun⟩ := Edit.unfrozen_bind_ok hrun
  obtain ⟨taken, f₁, htake, hrun⟩ := Edit.bind_ok
    (show (Edit.adopt f.nodes.next ref >>= _) { f with nodes := f.nodes.skip } = _ from hrun)
  obtain ⟨rfl, hasm⟩ := adopt_assembles (f := { f with nodes := f.nodes.skip }) (x := .block cond)
    ht h.forest.nodup href htake
  obtain ⟨_, f₂, hmod, hrun⟩ := Edit.bind_ok hrun
  cases hmod
  obtain ⟨_, f₃, hcases, hrun⟩ := Edit.bind_ok hrun
  cases hrun
  have h₂ := hasm.trans (assembles_aside f₁ (.fork f.nodes.next cond []))
  rw [hasm.trees, List.append_assoc] at h₂
  have hids : (idsAll (c :: l ++ (P ++ [.fork f.nodes.next cond []]))).Perm
      (f.nodes.next :: idsAll f.trees) := by
    rw [ht]
    refine List.perm_iff_count.mpr fun a => ?_
    simp only [idsAll_append, idsAll, ids, List.append_nil, List.count_append, List.count_cons,
      List.cons_append, List.count_nil]
    omega
  have h₃ := h₂.trans (addCases_assembles hperm h₂.trees (by
    rw [h₂.trees]
    exact hids.nodup_iff.mpr (List.nodup_cons.mpr ⟨h.next_not_mem, h.forest.nodup⟩)) hrefs hcases)
  rw [List.nil_append] at h₃
  have hall := (assembles_register f).trans h₃
  exact ⟨hall.draft_of_parts h ht (hperm.cons _) h₃.size (.refl _) fun b hb => hb, hall⟩

/-! ## Loops -/

theorem adopt_last {P Q : List Component} (ht : f.trees = c :: l ++ P) (hperm : P.Perm (x :: Q))
    (hn : (idsAll f.trees).Nodup) (href : ref.id = x.id)
    (hrun : Edit.adopt p ref f = .ok taken f') :
    taken = x ∧ (idsAll f'.trees).Nodup ∧
      ∃ P', P'.Perm Q ∧ Assembles (c :: l ++ P') f f' := by
  obtain ⟨P₁, P₂, rfl⟩ := List.append_of_mem (hperm.symm.subset List.mem_cons_self)
  obtain ⟨htaken, hasm⟩ := adopt_assembles (c := c) (l := l ++ P₁) (r := P₂)
    (by rw [ht]; simp) hn href hrun
  rw [← List.cons_append, List.append_assoc] at hasm
  refine ⟨htaken, ?_, P₁ ++ P₂, (List.perm_middle.symm.trans hperm).cons_inv, hasm⟩
  rw [ht] at hn
  rw [hasm.trees]
  simp only [idsAll_append, idsAll] at hn ⊢
  exact hn.sublist (((List.sublist_append_right _ _).append_left _).append_left _)

theorem loop_assembles {P : List Component} {start body update : Component} {after : NodeId}
    {rstart rcond rbody rupdate rafter : ComponentRef} (h : f.Draft) (ht : f.trees = c :: l ++ P)
    (hperm : P.Perm [start, .block cond, body, update, .block after])
    (hstart : rstart.id = start.id) (hcond : rcond.id = cond) (hbody : rbody.id = body.id)
    (hupdate : rupdate.id = update.id) (hafter : rafter.id = after)
    (hrun : (do
      let id ← Edit.register
      let start ← Edit.adopt id rstart
      let cond ← Edit.adopt id rcond
      let body ← Edit.adopt id rbody
      let update ← Edit.adopt id rupdate
      let after ← Edit.adopt id rafter
      modify fun f => { f with
        detached := f.detached ++ [.loop id start cond.id body update after.id] }
      return id : Edit NodeId) f = .ok q f') :
    f'.Draft ∧ Assembles (c :: l ++ [.loop q start cond body update after]) f f' := by
  have hid : Edit.register f = .ok f.nodes.next { f with nodes := f.nodes.skip } := rfl
  rw [Edit.bind_eq hid] at hrun
  obtain ⟨start, f₁, h₁, hrun⟩ := Edit.bind_ok hrun
  obtain ⟨rfl, hn₁, P₁, hp₁, hasm₁⟩ := adopt_last (f := { f with nodes := f.nodes.skip }) ht hperm
    h.forest.nodup hstart h₁
  obtain ⟨_, f₂, h₂, hrun⟩ := Edit.bind_ok hrun
  obtain ⟨rfl, hn₂, P₂, hp₂, hasm₂⟩ := adopt_last hasm₁.trees hp₁ hn₁ hcond h₂
  obtain ⟨body, f₃, h₃, hrun⟩ := Edit.bind_ok hrun
  obtain ⟨rfl, hn₃, P₃, hp₃, hasm₃⟩ := adopt_last hasm₂.trees hp₂ hn₂ hbody h₃
  obtain ⟨update, f₄, h₄, hrun⟩ := Edit.bind_ok hrun
  obtain ⟨rfl, hn₄, P₄, hp₄, hasm₄⟩ := adopt_last hasm₃.trees hp₃ hn₃ hupdate h₄
  obtain ⟨_, f₅, h₅, hrun⟩ := Edit.bind_ok hrun
  obtain ⟨rfl, hn₅, P₅, hp₅, hasm₅⟩ := adopt_last hasm₄.trees hp₄ hn₄ hafter h₅
  obtain rfl := hp₅.eq_nil
  cases hrun
  have hasm := (((hasm₁.trans hasm₂).trans hasm₃).trans hasm₄).trans hasm₅
  have hlast := hasm.trans (assembles_aside f₅ (.loop f.nodes.next start cond body update after))
  rw [hasm₅.trees, List.append_nil] at hlast
  have hall := (assembles_register f).trans hlast
  refine ⟨hall.draft_of_parts h ht hperm hlast.size ?_ fun b hb => ?_, hall⟩
  · simp [ids, idsAll]
  · simpa [Component.blocks, blocksAll] using hb

/-! ## Functions that grow -/

def Func.told (f : Func) (b : NodeId) : List (Opcode × List Operand × Option VarId) :=
  (f.code b).map fun i => (f.inst i).told

/-- More has been built: the blocks that there were keep their code, apart from the block `busy`,
and the variables stay. -/
structure Builds (busy : Option NodeId) (f f' : Func) : Prop where
  draft : f'.Draft
  stored : ∀ {b}, (f.nodes.get? b).isSome → (f'.nodes.get? b).isSome
  handle : f'.handle = f.handle
  head : f'.head = f.head
  grows : ∀ b, f.code b <+: f'.code b
  code : ∀ {b}, (f.nodes.get? b).isSome → busy ≠ some b → f'.code b = f.code b
  kept : ∀ {b i}, i ∈ f.code b → (f'.inst i).told = (f.inst i).told
  vars : f'.vars.map Variable.plain = f.vars.map Variable.plain

theorem Builds.told {busy : Option NodeId} {b : NodeId} (h : Builds busy f f')
    (hb : (f.nodes.get? b).isSome) (hne : busy ≠ some b) : f'.told b = f.told b := by
  rw [Func.told, h.code hb hne, Func.told]
  exact List.map_congr_left fun i hi => h.kept hi

theorem Assembles.builds (h : Assembles ts f f') (hd : f'.Draft) (busy : Option NodeId) :
    Builds busy f f' where
  draft := hd
  stored hb := by rw [h.block]; exact hb
  handle := h.handle
  head := h.head
  grows b := ⟨[], by rw [List.append_nil, h.toReroots.code]⟩
  code _ _ := h.toReroots.code _
  kept _ := by rw [Func.inst, Func.inst, h.insts]
  vars := by rw [h.vars]

theorem Builds.refl (h : f.Draft) (busy : Option NodeId) : Builds busy f f :=
  ⟨h, id, rfl, rfl, fun _ => List.prefix_rfl, fun _ _ => rfl, fun _ => rfl, rfl⟩

/-- What is busy in a later step was busy before or did not exist. -/
theorem Builds.trans {busy busy' : Option NodeId} (h : Builds busy f f') (h' : Builds busy' f' f'')
    (hb : ∀ b, busy' = some b → (f.nodes.get? b).isSome → busy = some b) :
    Builds busy f f'' where
  draft := h'.draft
  stored hs := h'.stored (h.stored hs)
  handle := h'.handle.trans h.handle
  head := h'.head.trans h.head
  grows b := (h.grows b).trans (h'.grows b)
  code hs hne := (h'.code (h.stored hs) fun he => hne (hb _ he hs)).trans (h.code hs hne)
  kept hi := (h'.kept ((h.grows _).subset hi)).trans (h.kept hi)
  vars := h'.vars.trans h.vars

theorem Builds.idle {busy : Option NodeId} (h : Builds none f f') (h' : Builds busy f' f'') :
    Builds busy f f'' :=
  Builds.trans { h with code := fun hs _ => h.code hs nofun } h' fun _ hb _ => hb

theorem newSequence_builds (h : f.Draft) (hrun : Edit.newSequence [] f = .ok q f') :
    Builds none f f' ∧ f'.trees = f.trees ++ [.seq q []] := by
  obtain ⟨rfl, hsize, hasm⟩ := newSequence_assembles hrun
  refine ⟨hasm.builds (hasm.draft h [f.nodes.next] (List.Perm.subperm ?_)
    (List.nodup_singleton _) (fun i hi => ?_) fun b hb => ?_) none, hasm.trees⟩
  · rw [idsAll_append, idsAll_singleton, ids, idsAll]
  · obtain rfl := List.mem_singleton.mp hi
    exact ⟨Nat.lt_succ_self _, Nat.le_of_eq hsize.symm⟩
  · rwa [blocksAll_append, blocksAll_singleton, Component.blocks, blocksAll, List.append_nil] at hb

theorem newBlock_builds {label : String} {b : NodeId} (h : f.Draft)
    (hrun : Edit.newBlock label f = .ok b f') :
    Builds none f f' ∧ f'.trees = f.trees ++ [.block b] ∧ f'.told b = [] ∧
      (f.nodes.get? b).isSome = false ∧ (f'.nodes.get? b).isSome := by
  obtain ⟨ho, hrec, _, hfrozen, hinsts, hcode, hphi⟩ := newBlock_ok hrun
  obtain ⟨name, heq⟩ := newBlock_eq h.unfrozen label
  have hsame := hrun.symm.trans heq
  have hnone : f.nodes.get? b = none := ho.fresh ▸ f.nodes.get?_next
  refine ⟨⟨{
    forest := ho.forest h.forest
    tables := hrec.tables h.tables
    scheduled := h.scheduled.congr hcode hphi hrec.locals fun i => by rw [hinsts]
    unfrozen := hfrozen.trans h.unfrozen
    memo := by cases hsame; exact h.memo
    nodes := fun n => by rw [hrec.incoming]; exact h.nodes n
    waits := hrec.waits hinsts hcode h.waits }, fun hb => ?_, ?_, ?_, fun b => ?_,
    fun _ _ => hcode _, fun _ => ?_, ?_⟩, ho.trees, ?_, by rw [hnone]; rfl, ?_⟩
  · rw [ho.stored, hb, Bool.or_true]
  · cases hsame
    rfl
  · cases hsame
    rfl
  · exact ⟨[], by rw [List.append_nil, hcode]⟩
  · rw [Func.inst, Func.inst, hinsts]
  · cases hsame
    rfl
  · rw [Func.told, hcode, Func.code, Func.blockAt, hnone]
    rfl
  · rw [ho.stored]
    simp

/-- A part of a loop that is given, or an empty sequence. -/
theorem orNewSequence_builds {P Q : List Component} {given : Option (ComponentRef × Component)}
    (h : f.Draft) (ht : f.trees = c :: l ++ P) (hperm : P.Perm ((given.map Prod.snd).toList ++ Q))
    (hid : ∀ e ∈ given, e.1.id = e.2.id)
    (hrun : Edit.orNewSequence (given.map Prod.fst) f = .ok ref f') :
    ∃ s P', Builds none f f' ∧ f'.trees = c :: l ++ P' ∧ P'.Perm (s :: Q) ∧ ref.id = s.id ∧
      (given.map Prod.snd = some s ∨ given = none ∧ ∃ i, s = .seq i []) := by
  cases given with
  | some e =>
    cases hrun
    exact ⟨e.2, P, .refl h none, ht, hperm, hid e rfl, .inl rfl⟩
  | none =>
    obtain ⟨i, f₁, hnew, hrun⟩ := Edit.bind_ok hrun
    cases hrun
    obtain ⟨hb, htrees⟩ := newSequence_builds h hnew
    refine ⟨.seq i [], P ++ [.seq i []], hb, by rw [htrees, ht, List.append_assoc], ?_, rfl,
      .inr ⟨rfl, i, rfl⟩⟩
    exact (List.perm_append_singleton _ _).trans (hperm.cons _)

/-- A loop is made of the last trees; what is missing is new and empty. -/
theorem newLoop_builds {P : List Component} {given : Option (ComponentRef × Component)}
    {body update : Component} {rcond rbody rupdate : ComponentRef} (h : f.Draft)
    (ht : f.trees = c :: l ++ P)
    (hperm : P.Perm ((given.map Prod.snd).toList ++ [.block cond, body, update]))
    (hid : ∀ e ∈ given, e.1.id = e.2.id) (hcond : rcond.id = cond) (hbody : rbody.id = body.id)
    (hupdate : rupdate.id = update.id)
    (hrun : Edit.newLoop (given.map Prod.fst) (some rcond) (some rbody) (some rupdate) none f =
      .ok q f') :
    ∃ s after, Builds none f f' ∧ f'.trees = c :: l ++ [.loop q s cond body update after] ∧
      f'.told after = [] ∧ (given.map Prod.snd = some s ∨ given = none ∧ ∃ i, s = .seq i []) := by
  obtain ⟨_, hrun⟩ := Edit.unfrozen_bind_ok hrun
  obtain ⟨rstart, f₁, hstart, hrun⟩ := Edit.bind_ok hrun
  obtain ⟨s, P₁, hb₁, ht₁, hp₁, hs, hgiven⟩ := orNewSequence_builds h ht hperm hid hstart
  obtain ⟨rafter, f₂, hafter, hrun⟩ := Edit.bind_ok
    (show (Edit.orNewBlock "loop_after" none >>= _) f₁ = _ from hrun)
  obtain ⟨after, f₃, hnew, hafter⟩ := Edit.bind_ok hafter
  cases hafter
  obtain ⟨hb₂, ht₂, htold, hfresh, hstored⟩ := newBlock_builds hb₁.draft hnew
  obtain ⟨hd, hasm⟩ := loop_assembles (P := P₁ ++ [.block after]) hb₂.draft
    (by rw [ht₂, ht₁, List.append_assoc]) (hp₁.append_right _) hs hcond hbody hupdate rfl hrun
  have hb₃ := hasm.builds hd none
  refine ⟨s, after, (hb₁.idle hb₂).idle hb₃, hasm.trees, ?_, hgiven⟩
  rw [hb₃.told hstored nofun, htold]

end

end DefFlow.Flow
