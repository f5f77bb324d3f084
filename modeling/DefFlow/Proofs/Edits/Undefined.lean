import DefFlow.Flow.Verify
import DefFlow.Proofs.Edits.Split

/-!
# Defining what may be undefined

A new block at the start of the function defines the variables that some use may see
undefined. Until it does, it passes on that nothing is defined, as the start did before.
-/

set_option autoImplicit false

namespace DefFlow.Flow

open Func Component

/-! ## A block in front of the body -/

structure Precedes (e : NodeId) (f f' : Func) : Prop extends SameRecords f f' where
  handle : f'.handle = f.handle
  frozen : f'.frozen = f.frozen
  insts : f'.insts = f.insts
  code : ∀ c, f'.code c = f.code c
  phiCount : ∀ c, (f'.blockAt c).phiCount = (f.blockAt c).phiCount
  forest : f'.Forest
  new : e ∉ f.blocks
  unlisted : ∀ v, f.timelineId? e v = none
  blocks : f'.blocks = e :: f.blocks
  edge : ∀ p s, f'.body.Edge p s ↔ f.body.Edge p s ∨ (p = e ∧ f.entry = some s)

namespace Precedes

variable {e c p : NodeId} {v : VarId} {f f' : Func}

theorem entry (h : Precedes e f f') : f'.entry = some e := by
  rw [Func.entry, entry_eq_head, ← Func.blocks, h.blocks]
  rfl

theorem mem_preds (h : Precedes e f f') (hf : f.Forest) (hc : c ∈ f.blocks) :
    p ∈ f'.preds c ↔ p ∈ f.preds c ∨ (p = e ∧ f.entry = some c) := by
  rw [h.forest.mem_preds (h.blocks ▸ List.mem_cons_of_mem _ hc), h.edge, hf.mem_preds hc]

theorem preds_new (h : Precedes e f f') : f'.preds e = [] := by
  refine List.eq_nil_iff_forall_not_mem.mpr fun p hp => ?_
  rw [h.forest.mem_preds (h.blocks ▸ List.mem_cons_self), h.edge] at hp
  rcases hp with hp | ⟨_, hp⟩
  · exact h.new (Edge.mem f.body hp).2
  · exact h.new (mem_blocks_of_entry hp)

theorem not_decides_new (h : Precedes e f f') : ¬ f'.Decides v e := by
  rw [Decides, h.explicit?, Func.explicit?, h.unlisted]
  simp

theorem decides (h : Precedes e f f') : f'.Decides v = f.Decides v :=
  decides_congr fun b => h.explicit? b v

/-- What arrives at a block arrived there before, if the new block stops nothing. -/
theorem arrives_iff (h : Precedes e f f') (hf : f.Forest) (he : f.Enters) {opq opq' : NodeId → Prop}
    (hsame : ∀ {z}, z ∈ f.blocks → (opq' z ↔ opq z)) (hnew : ¬ opq' e) {a : Option NodeId}
    (hc : c ∈ f.blocks) : Arrives f'.preds opq' c a ↔ Arrives f.preds opq c a := by
  constructor
  · intro ha
    induction ha with
    | start hnil =>
      refine .start (List.eq_nil_iff_forall_not_mem.mpr fun p hp => ?_)
      have := (h.mem_preds hf hc).mpr (Or.inl hp)
      rw [hnil] at this
      cases this
    | leaves hp ho =>
      rcases (h.mem_preds hf hc).mp hp with hp | ⟨rfl, _⟩
      · exact .leaves hp ((hsame (hf.pred_mem hc hp)).mp ho)
      · exact absurd ho hnew
    | passes hp ho hs ih =>
      rcases (h.mem_preds hf hc).mp hp with hp | ⟨rfl, hentry⟩
      · have hm := hf.pred_mem hc hp
        exact .passes hp (mt (hsame hm).mpr ho) (ih hm)
      · -- Nothing leaves the new block, as nothing came to the old entry.
        cases hs with
        | start _ => exact .start (he _ hentry)
        | leaves hq _ =>
          rw [h.preds_new] at hq
          cases hq
        | passes hq _ _ =>
          rw [h.preds_new] at hq
          cases hq
  · intro ha
    induction ha with
    | @start x hnil =>
      by_cases hentry : f.entry = some x
      · exact .passes ((h.mem_preds hf hc).mpr (Or.inr ⟨rfl, hentry⟩)) hnew (.start h.preds_new)
      · refine .start (List.eq_nil_iff_forall_not_mem.mpr fun p hp => ?_)
        rcases (h.mem_preds hf hc).mp hp with hp | ⟨-, hp⟩
        · rw [hnil] at hp
          cases hp
        · exact hentry hp
    | leaves hp ho =>
      exact .leaves ((h.mem_preds hf hc).mpr (Or.inl hp)) ((hsame (hf.pred_mem hc hp)).mpr ho)
    | passes hp ho _ ih =>
      have hm := hf.pred_mem hc hp
      exact .passes ((h.mem_preds hf hc).mpr (Or.inl hp)) (mt (hsame hm).mp ho) (ih hm)

theorem not_arrives_none (h : Precedes e f f') (hf : f.Forest) {opq : NodeId → Prop} (hnew : opq e)
    (hc : c ∈ f.blocks) : ¬ Arrives f'.preds opq c none := by
  intro ha
  generalize hnone : (none : Option NodeId) = a at ha
  induction ha with
  | @start x hnil =>
    obtain ⟨p, hp⟩ : ∃ p, p ∈ f'.preds x := by
      rcases hf.eq_entry_or_forward hc with hentry | ⟨p, hp, -⟩
      · exact ⟨e, (h.mem_preds hf hc).mpr (Or.inr ⟨rfl, hentry⟩)⟩
      · exact ⟨p, (h.mem_preds hf hc).mpr (Or.inl hp)⟩
    rw [hnil] at hp
    cases hp
  | leaves _ _ => cases hnone
  | passes hp ho _ ih =>
    rcases (h.mem_preds hf hc).mp hp with hp | ⟨rfl, -⟩
    · exact ih (hf.pred_mem hc hp) hnone
    · exact ho hnew

theorem fresh (h : Precedes e f f') (hf : f.Forest) (he : f.Enters) {T : Option TimelineId}
    (hp : p ∈ f.blocks) (hfresh : f.Fresh v p T) : f'.Fresh v p T := by
  intro a ha
  have hold : Departs f.preds (f.Decides v) p a := by
    rw [Departs, h.decides] at ha
    exact ha.imp_right fun ha => ⟨ha.1, (h.arrives_iff hf he (fun _ => Iff.rfl)
      (h.decides ▸ h.not_decides_new) hp).mp ha.2⟩
  rw [hfresh a hold]
  cases a with
  | none => rfl
  | some c => rw [Option.bind_some, Option.bind_some, h.explicit?]

theorem sound (h : Precedes e f f') (hs : f.Sound) (hm : f'.memo = []) : f'.Sound := by
  have hcalm := hs.nodesFresh.calm
  refine ⟨Calm.nodesFresh {
    forest := h.forest
    enters := fun b hb => ?_
    tables := h.toSameRecords.tables hcalm.tables
    unfrozen := h.frozen.trans hcalm.unfrozen
    complete := fun {b v} hne => ?_
    fresh := fun {b v} x hx => ?_ } (remembers_of_nil hm), ?_⟩
  · rw [h.entry, Option.some.injEq] at hb
    exact hb ▸ h.preds_new
  · rw [h.joinNodes] at hne
    obtain ⟨hb, hperm⟩ := hcalm.complete hne
    have hb' : b ∈ f'.blocks := h.blocks ▸ List.mem_cons_of_mem _ hb
    refine ⟨hb', ?_⟩
    rw [h.feeds]
    refine hperm.trans ((List.perm_ext_iff_of_nodup (hcalm.forest.preds_nodup hb)
      (h.forest.preds_nodup hb')).mpr fun p => ?_)
    -- The old entry has no predecessors, and so no nodes.
    rw [h.mem_preds hcalm.forest hb, or_iff_left]
    rintro ⟨_, hentry⟩
    rw [hcalm.enters b hentry, List.perm_nil, List.map_eq_nil_iff, feeds_eq_nil_iff] at hperm
    exact hne hperm
  · rw [h.feeds] at hx
    exact h.fresh hcalm.forest hcalm.enters (hs.nodesFresh.pred_mem hx) (hcalm.fresh x hx)
  · exact hs.scheduled.congr h.code h.phiCount h.locals fun i => by rw [h.insts]

end Precedes

section

variable {f g f' : Func} {e : NodeId} {u : Unit}

def StartsWith (e : NodeId) (body : Component) (new : List NodeId) (body' : Component) : Prop :=
  ∃ q cs, body' = .seq q (.block e :: cs) ∧ blocksAll cs = body.blocks ∧
    entryAll cs = body.entry ∧ (∀ p s, EdgeElements p s cs ↔ body.Edge p s) ∧
    (q :: idsAll cs).Perm (body.ids ++ new)

theorem startsWith_seq (s : NodeId) (es : List Component) :
    StartsWith e (.seq s es) [] (.seq s (.block e :: es)) := by
  refine ⟨s, es, rfl, ?_, ?_, fun p x => ?_, ?_⟩
  · rw [Component.blocks]
  · rw [Component.entry]
  · rw [Edge]
  · rw [ids, List.append_nil]

theorem startsWith_wrap (q : NodeId) (body : Component) :
    StartsWith e body [q] (.seq q [.block e, body]) := by
  refine ⟨q, [body], rfl, blocksAll_singleton body, ?_, fun p x => edgeElements_singleton, ?_⟩
  · rw [entryAll, entryAll, Option.or_none]
  · rw [idsAll_singleton]
    exact @List.perm_append_comm _ [q] _

theorem elementsOf_state {s : NodeId} {es : List Component}
    (hrun : Edit.elementsOf s f = .ok es f') : f' = f := by
  rw [Edit.elementsOf, Edit.bind_eq Edit.get_eq] at hrun
  cases hfind : f.find? s with
  | none =>
    rw [hfind] at hrun
    exact (Edit.pure_ok hrun).2
  | some c =>
    rw [hfind] at hrun
    cases c <;> exact (Edit.pure_ok hrun).2

theorem insertElement_memo {s : NodeId} {i : Int} {ref : ComponentRef}
    (hrun : Edit.insertElement s i ref f = .ok u f') : f'.memo = [] := by
  obtain ⟨_, hrun⟩ := Edit.unfrozen_bind_ok hrun
  obtain ⟨_, f₁, _, hrun⟩ := Edit.bind_ok hrun
  obtain ⟨_, hrun⟩ := Edit.require_bind_ok hrun
  obtain ⟨taken, f₂, htake, hrun⟩ := Edit.bind_ok hrun
  obtain ⟨_, f₃, _, htake⟩ := Edit.bind_ok htake
  rw [Edit.bind_eq Edit.get_eq] at htake
  cases htake
  obtain ⟨es, f₄, helements, hrun⟩ := Edit.bind_ok hrun
  obtain rfl := elementsOf_state helements
  cases hrun
  rfl

theorem appendElement_memo {s : NodeId} {ref : ComponentRef}
    (hrun : Edit.appendElement s ref f = .ok u f') : f'.memo = [] := by
  obtain ⟨_, f₁, _, hrun⟩ := Edit.bind_ok hrun
  exact insertElement_memo hrun

/-- Around the body as a whole there is nothing but the function. -/
theorem replaceInParent_body {ref : ComponentRef} (hheld : f.bodyHeld = true) :
    Edit.replaceInParent f.body.id ref f = Edit.setBody ref f := by
  have hpath : f.path f.body.id = [] := by
    rw [Func.path, Func.trees, List.findSome?_cons, pathIn_self]
    rfl
  have hparent : f.parent? f.body.id = some (rootId, .functionBody) := by
    rw [Func.parent?, hpath, Func.isBody, hheld]
    simp
  rw [Edit.replaceInParent, Edit.bind_eq Edit.get_eq, hparent]

theorem prependBlock_eq (hheld : f.bodyHeld = true) :
    (∃ s es, f.body = .seq s es ∧ Edit.prependBlock e f = (do
      Edit.insertElement s 0 (← Edit.refTo e) : Edit Unit) f) ∨
    Edit.prependBlock e f = (do
      let seq ← Edit.newSequence []
      Edit.replaceInParent f.body.id (← Edit.refTo seq)
      Edit.appendElement seq (← Edit.refTo e)
      Edit.appendElement seq (← Edit.refTo f.body.id) : Edit Unit) f := by
  have hwrap : (do
      let seq ← Edit.newSequence []
      Edit.setBody (← Edit.refTo seq)
      Edit.appendElement seq (← Edit.refTo e)
      Edit.appendElement seq (← Edit.refTo f.body.id) : Edit Unit) f = (do
      let seq ← Edit.newSequence []
      Edit.replaceInParent f.body.id (← Edit.refTo seq)
      Edit.appendElement seq (← Edit.refTo e)
      Edit.appendElement seq (← Edit.refTo f.body.id) : Edit Unit) f := by
    refine Edit.bind_congr fun q f₁ hnew => ?_
    obtain ⟨rfl, rfl⟩ := newSequence_ok hnew
    rw [Edit.bind_eq (refTo_eq _ _), Edit.bind_eq (refTo_eq _ _)]
    have hset := fun ref => @replaceInParent_body { f with
      nodes := f.nodes.skip, detached := f.detached ++ [.seq f.nodes.next []] } ref hheld
    change (Edit.setBody _ >>= _) _ = (Edit.replaceInParent _ _ >>= _) _
    change EStateM.bind _ _ _ = EStateM.bind _ _ _
    rw [EStateM.bind, EStateM.bind, hset]
  rw [Edit.prependBlock, Edit.bind_eq Edit.get_eq]
  cases hbody : f.body with
  | seq s es => exact Or.inl ⟨s, es, rfl, rfl⟩
  | block i =>
    rw [hbody] at hwrap
    exact Or.inr hwrap
  | fork i cond cs =>
    rw [hbody] at hwrap
    exact Or.inr hwrap
  | loop i a c b u x =>
    rw [hbody] at hwrap
    exact Or.inr hwrap

theorem prependBlock_ok (hf : f.Forest) (ho : Adds e f g)
    (hrun : Edit.prependBlock e g = .ok u f') :
    (∃ new, StartsWith e f.body new f'.body ∧ new.Nodup ∧
      ∀ i ∈ new, g.nodes.size < i ∧ i ≤ f'.nodes.size) ∧ Planted f'.body f.detached g f' ∧
      f'.memo = [] := by
  have hg := ho.forest hf
  have hid := id_mem_ids g.body
  have ha := aside_block hg (e := g.body) ho.detached hid
  rcases prependBlock_eq (e := e) hg.held with ⟨s, es, hbody, heq⟩ | heq
  · rw [heq, Edit.bind_eq (refTo_eq _ _)] at hrun
    have hfind : g.body.find? s = some (.seq s es) := by
      rw [hbody]
      exact find?_self (.seq s es)
    have hplant := insertElement_ok hfind
      (ha.apart s (by rw [hbody]; exact id_mem_ids (.seq s es))) ha.detached ha.others rfl hrun
    have hnew : (g.body.modify s (Edit.setElements (es.insertIdx (0 : Int).toNat (.block e)))) =
        .seq s (.block e :: es) := by
      rw [hbody]
      exact modify_self (.seq s es) _
    rw [hnew, List.append_nil] at hplant
    refine ⟨⟨[], ?_, List.nodup_nil, fun i hi => by cases hi⟩, hplant.body_eq ▸ hplant,
      insertElement_memo hrun⟩
    rw [hplant.body_eq, ← ho.body, hbody]
    exact startsWith_seq s es
  · rw [heq] at hrun
    have h := wrapBefore_ok (Stands.self .here hg) ha (names_refTo _) (names_refTo _) hrun
    rw [List.append_nil] at h
    obtain ⟨new, hputs, hnodup, hfresh⟩ := h.puts
    refine ⟨⟨new, ?_, hnodup, hfresh⟩, h.planted, ?_⟩
    · generalize f'.body = body' at hputs ⊢
      cases hputs with
      | spliced hin =>
        -- No sequence of the body holds the body itself.
        have hs := hin.mem_ids (id_mem_ids _)
        have hself := hin.nodup hg.body_nodup
        rw [ids, List.nodup_cons, idsAll_append, idsAll] at hself
        exact absurd (List.mem_append_right _ (List.mem_append_left _ hs)) hself.1
      | wrapped q _ =>
        rw [modify_self, ← ho.body]
        exact startsWith_wrap q g.body
    · obtain ⟨_, _, _, hrun⟩ := Edit.bind_ok hrun
      rw [Edit.bind_eq (refTo_eq _ _)] at hrun
      obtain ⟨_, _, _, hrun⟩ := Edit.bind_ok hrun
      rw [Edit.bind_eq (refTo_eq _ _)] at hrun
      obtain ⟨_, _, _, hrun⟩ := Edit.bind_ok hrun
      rw [Edit.bind_eq (refTo_eq _ _)] at hrun
      exact appendElement_memo hrun

theorem newBlock_ok {label : String} (hrun : Edit.newBlock label f = .ok e g) :
    Adds e f g ∧ SameRecords f g ∧ g.handle = f.handle ∧ g.frozen = f.frozen ∧
      g.insts = f.insts ∧ (∀ c, g.code c = f.code c) ∧
      ∀ c, (g.blockAt c).phiCount = (f.blockAt c).phiCount := by
  obtain ⟨hunfrozen, _⟩ := Edit.unfrozen_bind_ok hrun
  obtain ⟨name, heq⟩ := newBlock_eq hunfrozen label
  cases hrun.symm.trans heq
  have hget : ∀ c, (f.nodes.push ⟨name, [], 0, []⟩).get? c =
      if c = f.nodes.next then some ⟨name, [], 0, []⟩ else f.nodes.get? c := f.nodes.get?_push _
  -- A block that does not exist reads as an empty one.
  have hview : ∀ {α : Type} (g : Block → α), g ⟨name, [], 0, []⟩ = g default →
      ∀ c, g (((f.nodes.push ⟨name, [], 0, []⟩).get? c).getD default) = g (f.blockAt c) := by
    intro α g hg c
    rw [hget]
    split
    · next hc => rw [hc, blockAt_next, Option.getD_some, hg]
    · rfl
  refine ⟨⟨rfl, rfl, rfl, rfl, Arena.size_push _ _, fun c => ?_⟩,
    ⟨hview Block.timelines rfl, rfl, rfl⟩, rfl, rfl, rfl, hview Block.instructions rfl,
    hview Block.phiCount rfl⟩
  rw [hget]
  split
  · next hc => simp [hc]
  · next hc => simp [hc]

theorem precedes_ok {label : String} (hf : f.Forest)
    (hnew : Edit.newBlock label f = .ok e g) (hrun : Edit.prependBlock e g = .ok u f') :
    Precedes e f f' ∧ f'.memo = [] := by
  obtain ⟨ho, hrec, hhandle, hfrozen, hinsts, hcode, hphi⟩ := newBlock_ok hnew
  obtain ⟨⟨new, ⟨q, cs, hbody, hblocks, hentry, hedge, hids⟩, hnodup, hfresh⟩, hplant, hmemo⟩ :=
    prependBlock_ok hf ho hrun
  have hroots := hplant.toReroots
  have hlast : e ≤ g.nodes.size := by
    rw [ho.fresh, Arena.next_eq, ho.size]
  refine ⟨{
    listed := fun c => by rw [hroots.blockAt, hrec.listed]
    timelines := hroots.timelines.trans hrec.timelines
    incoming := hroots.incoming.trans hrec.incoming
    handle := hroots.handle.trans hhandle
    frozen := hroots.frozen.trans hfrozen
    insts := hroots.insts.trans hinsts
    code := fun c => by rw [Func.code, hroots.blockAt, ← Func.code, hcode]
    phiCount := fun c => by rw [hroots.blockAt, hphi]
    new := ho.not_mem_blocks hf
    unlisted := fun v => by
      rw [Func.timelineId?, ho.fresh, blockAt_next]
      rfl
    blocks := by
      rw [Func.blocks, hbody, Component.blocks, blocksAll, Component.blocks, hblocks]
      rfl
    edge := fun p s => by
      rw [hbody, Edge, ← List.singleton_append, edgeElements_append, edgeElements_singleton, hedge,
        leavesLast_singleton, leaves, List.mem_singleton, hentry]
      simp [Edge, Func.entry]
    forest := ?_ }, hmemo⟩
  have htrees : f'.trees = .seq q (.block e :: cs) :: f.detached := by
    rw [Func.trees, hbody, hplant.detached_eq]
  have hperm : (idsAll f'.trees).Perm (idsAll f.trees ++ (e :: new)) := by
    rw [htrees, Func.trees, idsAll, idsAll, ids, idsAll, ids]
    refine List.perm_iff_count.mpr fun i => ?_
    have := List.perm_iff_count.mp hids i
    simp only [List.count_append, List.count_cons, List.cons_append, List.nil_append] at this ⊢
    omega
  refine hf.renumbered (hplant.held.trans ho.bodyHeld) hperm.subperm
    (List.nodup_cons.mpr ⟨fun hm => ?_, hnodup⟩) (fun i hi => ?_)
    (Nat.le_trans (ho.size ▸ Nat.le_succ _) hplant.size) fun b hb => ?_
  · exact absurd (hfresh e hm).1 (Nat.not_lt.mpr hlast)
  · rcases List.mem_cons.mp hi with rfl | hi
    · rw [ho.fresh, Arena.next_eq]
      exact ⟨Nat.lt_succ_self _, ho.size ▸ hplant.size⟩
    · refine (hfresh i hi).imp_left fun hlt => ?_
      rw [ho.size] at hlt
      exact Nat.lt_of_succ_lt hlt
  · rw [hplant.block, ho.stored]
    have hb' : b = e ∨ b ∈ blocksAll f.trees := by
      rw [htrees, blocksAll, Component.blocks, blocksAll, Component.blocks, hblocks] at hb
      rw [Func.trees, blocksAll]
      simpa using hb
    rcases hb' with rfl | hb'
    · simp
    · simp [hf.stored b hb']

/-- The nodes of the old entry do not exist, so none has to be linked. -/
theorem Precedes.unjoined (h : Precedes e f f') (hc : f.Calm) {s : NodeId}
    (hs : s ∈ f'.succs e) : ∀ x ∈ (f'.blockAt s).timelines, (f'.timelineAt x.2).incoming = [] := by
  intro x hx
  have ht := h.toSameRecords.tables hc.tables
  rw [h.forest.mem_succs (h.blocks ▸ List.mem_cons_self), h.edge] at hs
  have hentry : f.entry = some s := by
    rcases hs with hs | ⟨_, hs⟩
    · exact absurd (Edge.mem f.body hs).1 h.new
    · exact hs
  have hid : f'.timelineId? s x.1 = some x.2 := lookup_of_mem (ht.keys s) hx
  rw [← ht.joinNodes_eq hid, h.joinNodes]
  by_contra hne
  have hperm := (hc.complete hne).2
  rw [hc.enters s hentry, List.perm_nil, List.map_eq_nil_iff, feeds_eq_nil_iff] at hperm
  exact hne hperm

/-- Where nothing has been built there is nothing to link to the new block. -/
theorem Precedes.links_nothing (h : Precedes e f f') (hc : f.Calm) {α : Type} (next : Edit α) : (do
      for s in f'.succs e do
        for (_, t) in (f'.blockAt s).timelines do
          if !(f'.timelineAt t).incoming.isEmpty && (f'.incomingFrom? t e).isNone then
            let _ ← Edit.linkIncoming t e none
      next : Edit α) f' = next f' := by
  refine Edit.forIn_idle (fun s hs => ?_) _
  refine Edit.forIn_idle (fun y hy => ?_) _
  obtain ⟨w, t⟩ := y
  dsimp only
  rw [h.unjoined hc hs _ hy]
  rfl

theorem defineUndefined_ok {vars : List Variable} (h : f.Sound)
    (hrun : Edit.defineUndefined f = .ok vars f') : f'.Sound := by
  obtain ⟨_, hrun₁⟩ := Edit.unfrozen_bind_ok hrun
  obtain ⟨found, f₀, hask, hrun₂⟩ := Edit.bind_ok hrun₁
  obtain ⟨_, rfl⟩ := Edit.ask_ok hask
  rw [Edit.bind_eq Edit.get_eq] at hrun₂
  dsimp only at hrun₂
  split at hrun₂
  · cases hrun₂
    exact h
  obtain ⟨e, f₁, hnew, hrun₃⟩ := Edit.bind_ok hrun₂
  obtain ⟨_, f₂, hput, hrun₄⟩ := Edit.bind_ok hrun₃
  obtain ⟨hprec, hmemo⟩ := precedes_ok h.nodesFresh.searchable.forest hnew hput
  rw [Edit.bind_eq Edit.get_eq, hprec.links_nothing h.nodesFresh.calm] at hrun₄
  have hdefine := Edit.forIn_ok (fun _ g => g.Sound ∧ e ∈ g.blocks) ?_
    ⟨hprec.sound h hmemo, hprec.blocks ▸ List.mem_cons_self⟩ hrun₄
  · obtain ⟨_, ⟨hsound, _⟩, hdone⟩ := hdefine
    cases hdone
    exact hsound
  · rintro done v rest g s g' _ ⟨hg, hin⟩ hstep
    obtain ⟨i, g₁, happend, hstep⟩ := Edit.bind_ok hstep
    cases hstep
    obtain ⟨hg', hsame⟩ := appendInst_ok hg hin happend
    exact ⟨rfl, hg', hsame.blocks ▸ hin⟩

end

end DefFlow.Flow
