import DefFlow.Proofs.Edits.Divide
import DefFlow.Proofs.Registry.Moves

/-!
# Edits of trees, one record at a time

Whenever an edit of the trees is granted, the surgery that changes parents and lists one by one
succeeds as well, and the registry pictures the trees that the edit has left.
-/

set_option autoImplicit false

namespace DefFlow.Flow

open Func Component

def ComponentRef.Agrees (a b : ComponentRef) : Prop := a.owner = b.owner ∧ a.id = b.id

section

variable {s s' : Registry} {f f' : Func} {i p q k b : NodeId} {o : Option NodeId}
  {c d x : Component} {hand l r es cs : List Component} {g : Component → Component}
  {ref ref' : ComponentRef} {u : Unit}

namespace Registry.Tracks

theorem of_graph (h : s.Tracks hand f) (hg : f.SameGraph f') : s.Tracks hand f' :=
  ⟨h.toPictures.of_graph hg, h.stocked.sameGraph hg, hg.bodyHeld.trans h.bodyHeld⟩

theorem of_records (h : s.Tracks hand f) (hs : ∀ i, s'.nodes.get? i = s.nodes.get? i)
    (hhandle : s'.handle = s.handle) (hfrozen : s'.frozen = s.frozen)
    (hsize : s'.nodes.size = s.nodes.size) : s'.Tracks hand f :=
  ⟨h.toPictures.of_records hs hhandle hfrozen hsize, h.stocked, h.bodyHeld⟩

end Registry.Tracks

/-- What is taken has been set aside and is named by the reference. -/
theorem adopt_inv (h : f.Stocked hand) (hrun : Edit.adopt p ref f = .ok x f') :
    x ∈ f.detached ∧ p ∉ x.ids ∧ ref.id = x.id ∧ ref.owner = f.handle ∧
      f' = { f.without x with generation := f.generation + 1, memo := [] } := by
  have a := adopt_adopts h hrun
  have hx : x ∈ f.detached := by
    obtain ⟨l, r, hl, -⟩ := a.detached
    rw [hl]
    exact List.mem_append_right _ List.mem_cons_self
  obtain ⟨_, f₁, hok, hrun⟩ := Edit.bind_ok hrun
  rw [adoptable_ok hok, Edit.bind_eq Edit.get_eq] at hrun
  rw [Edit.adoptable, Edit.bind_eq Edit.get_eq] at hok
  obtain ⟨howner, _⟩ := Edit.require_bind_ok hok
  cases hrun
  exact ⟨hx, a.apart, a.id.symm, of_decide_eq_true howner, by rw [Func.without, a.id]⟩

/-! ## Sequences and forks -/

theorem insertElement_tracks (h : s.Tracks [] f) (hq : f.HasSeq q) {i : Int}
    (href : ref'.Agrees ref) (hrun : Edit.insertElement q i ref f = .ok u f') :
    ∃ s', Surgery.insert q i ref' s = .ok () s' ∧ s'.Tracks [] f' := by
  obtain ⟨es, hq⟩ := hq
  obtain ⟨hu, hrun⟩ := Edit.unfrozen_bind_ok hrun
  rw [Edit.bind_eq (elementsOf_part h.stocked hq)] at hrun
  obtain ⟨hi, hrun⟩ := Edit.require_bind_ok hrun
  simp only [Bool.and_eq_true, decide_eq_true_eq] at hi
  obtain ⟨x, f₁, htake, hrun⟩ := Edit.bind_ok hrun
  have a := adopt_adopts h.stocked htake
  obtain ⟨hx, hout, hid, howner, rfl⟩ := adopt_inv h.stocked htake
  rw [Edit.bind_eq (elementsOf_part a.stocked (a.partOf hq hout))] at hrun
  cases hrun
  obtain ⟨n, rfl⟩ := Int.eq_ofNat_of_zero_le hi.1
  have hn : (es.take n).length = n := List.length_take_of_le (Int.ofNat_le.mp hi.2)
  rw [← List.take_append_drop n es] at hq
  obtain ⟨s', hs, ht, -⟩ :=
    insert_tracks h hu hq hx hout (href.2.trans hid) (href.1.trans howner)
  rw [hn] at hs
  refine ⟨s', hs, ht.of_graph ⟨rfl, ?_, rfl, ?_, rfl, rfl, fun _ => rfl⟩⟩ <;>
    rw [← insertIdx_append, hn, List.take_append_drop] <;> rfl

theorem appendElement_tracks (h : s.Tracks [] f) (hq : f.HasSeq q) (href : ref'.Agrees ref)
    (hrun : Edit.appendElement q ref f = .ok u f') :
    ∃ s', Surgery.append q ref' s = .ok () s' ∧ s'.Tracks [] f' := by
  obtain ⟨es, hpart⟩ := hq
  obtain ⟨o, ho⟩ := h.part h.forest hpart
  have hroot : s.nodes.get? q = some ⟨o, .seq (es.map Component.id)⟩ := ho.root
  rw [Edit.appendElement, Edit.bind_eq (elementsOf_part h.stocked hpart)] at hrun
  rw [Surgery.append, Surgery.bind_eq (Surgery.elementsOf_eq hroot), List.length_map]
  exact insertElement_tracks h ⟨es, hpart⟩ href hrun

theorem removeElement_tracks (h : s.Tracks [] f) (hq : f.HasSeq q) {i : Int}
    (hrun : Edit.removeElement q i f = .ok k f') :
    ∃ s', Surgery.remove q i s = .ok k s' ∧ s'.Tracks [] f' := by
  obtain ⟨es, hq⟩ := hq
  obtain ⟨hu, hrun⟩ := Edit.unfrozen_bind_ok hrun
  rw [Edit.bind_eq (elementsOf_part h.stocked hq)] at hrun
  obtain ⟨hi, hrun⟩ := Edit.require_bind_ok hrun
  simp only [Bool.and_eq_true, decide_eq_true_eq] at hi
  obtain ⟨n, rfl⟩ := Int.eq_ofNat_of_zero_le hi.1
  obtain ⟨x, hx⟩ : ∃ x, es[n]? = some x := ⟨_, List.getElem?_eq_getElem (Int.ofNat_lt.mp hi.2)⟩
  obtain ⟨l, r, rfl, rfl⟩ := append_of_getElem? hx
  obtain ⟨s', hs, ht⟩ := remove_tracks h hu hq
  cases hrun
  rw [Int.toNat_natCast, List.getElem?_append_right (Nat.le_refl _), Nat.sub_self,
    List.getElem?_cons_zero, Option.getD_some]
  refine ⟨s', hs, ht.of_graph ⟨rfl, ?_, rfl, ?_, rfl, rfl, fun _ => rfl⟩⟩ <;>
    simp [Func.aside, Func.changed, List.eraseIdx_append_of_length_le]

theorem replaceElement_tracks (h : s.Tracks [] f) (hq : f.HasSeq q) {i : Int}
    (href : ref'.Agrees ref) (hrun : Edit.replaceElement q i ref f = .ok k f') :
    ∃ s', Surgery.replace q i ref' s = .ok k s' ∧ s'.Tracks [] f' := by
  obtain ⟨old, f₁, hremove, hrun⟩ := Edit.bind_ok hrun
  obtain ⟨s₁, hs₁, h₁⟩ := removeElement_tracks h hq hremove
  obtain ⟨_, f₂, hinsert, hrun⟩ := Edit.bind_ok hrun
  obtain ⟨s₂, hs₂, h₂⟩ := insertElement_tracks h₁
    (removeElement_restocks h.stocked hq hremove).2 href hinsert
  cases hrun
  refine ⟨s₂, ?_, h₂⟩
  rw [Surgery.replace, Surgery.bind_eq hs₁, Surgery.bind_eq hs₂]
  rfl

theorem addCase_tracks (h : s.Tracks [] f) (hk : f.HasFork k) (href : ref'.Agrees ref)
    (hrun : Edit.addCase k ref f = .ok u f') :
    ∃ s', Surgery.addCase k ref' s = .ok () s' ∧ s'.Tracks [] f' := by
  obtain ⟨cond, cs, hk⟩ := hk
  obtain ⟨hu, hrun⟩ := Edit.unfrozen_bind_ok hrun
  obtain ⟨x, f₁, htake, hrun⟩ := Edit.bind_ok hrun
  have a := adopt_adopts h.stocked htake
  obtain ⟨hx, hout, hid, howner, rfl⟩ := adopt_inv h.stocked htake
  rw [Edit.bind_eq (casesOf_part a.stocked (a.partOf hk hout))] at hrun
  cases hrun
  obtain ⟨s', hs, ht⟩ := adoptCase_tracks h hu hk hx hout (href.2.trans hid) (href.1.trans howner)
  exact ⟨s', hs, ht.of_graph ⟨rfl, rfl, rfl, rfl, rfl, rfl, fun _ => rfl⟩⟩

theorem removeCase_tracks (h : s.Tracks [] f) (hk : f.HasFork k) {i : Int}
    (hrun : Edit.removeCase k i f = .ok q f') :
    ∃ s', Surgery.removeCase k i s = .ok q s' ∧ s'.Tracks [] f' := by
  obtain ⟨cond, cs, hk⟩ := hk
  obtain ⟨hu, hrun⟩ := Edit.unfrozen_bind_ok hrun
  rw [Edit.bind_eq (casesOf_part h.stocked hk)] at hrun
  obtain ⟨hi, hrun⟩ := Edit.require_bind_ok hrun
  simp only [Bool.and_eq_true, decide_eq_true_eq] at hi
  obtain ⟨n, rfl⟩ := Int.eq_ofNat_of_zero_le hi.1
  obtain ⟨x, hx⟩ : ∃ x, cs[n]? = some x := ⟨_, List.getElem?_eq_getElem (Int.ofNat_lt.mp hi.2)⟩
  obtain ⟨l, r, rfl, rfl⟩ := append_of_getElem? hx
  obtain ⟨s', hs, ht⟩ := orphanCase_tracks h hu hk
  cases hrun
  rw [Int.toNat_natCast, List.getElem?_append_right (Nat.le_refl _), Nat.sub_self,
    List.getElem?_cons_zero, Option.getD_some]
  refine ⟨s', hs, ht.of_graph ⟨rfl, ?_, rfl, ?_, rfl, rfl, fun _ => rfl⟩⟩ <;>
    simp [Func.aside, Func.changed, List.eraseIdx_append_of_length_le]

/-! ## New structures -/

theorem forM_tracks {α : Type} {x : α → Edit Unit} {y : α → Surgery Unit} (P : Func → Prop)
    (step : ∀ {a s f u f'}, s.Tracks [] f → P f → x a f = .ok u f' →
      ∃ s', y a s = .ok () s' ∧ s'.Tracks [] f' ∧ P f') {as : List α}
    (hrun : as.forM x f = .ok u f') (h : s.Tracks [] f) (hP : P f) :
    ∃ s', as.forM y s = .ok () s' ∧ s'.Tracks [] f' := by
  induction as generalizing s f with
  | nil =>
    cases hrun
    exact ⟨s, rfl, h⟩
  | cons a as ih =>
    obtain ⟨_, f₁, ha, hrun⟩ := Edit.bind_ok hrun
    obtain ⟨s₁, hs₁, h₁, hP₁⟩ := step h hP ha
    obtain ⟨s₂, hs₂, h₂⟩ := ih hrun h₁ hP₁
    exact ⟨s₂, (Surgery.bind_eq hs₁).trans hs₂, h₂⟩

theorem appendElements_tracks {refs : List ComponentRef}
    (hrun : refs.forM (Edit.appendElement q) f = .ok u f') (h : s.Tracks [] f)
    (hq : f.HasSeq q) : ∃ s', refs.forM (Surgery.append q) s = .ok () s' ∧ s'.Tracks [] f' := by
  refine forM_tracks (fun g => g.HasSeq q) (fun h hq ha => ?_) hrun h hq
  obtain ⟨s', hs, ht⟩ := appendElement_tracks h hq ⟨rfl, rfl⟩ ha
  exact ⟨s', hs, ht, (appendElement_restocks h.stocked hq ha).2⟩

theorem addCases_tracks {refs : List ComponentRef}
    (hrun : refs.forM (Edit.addCase k) f = .ok u f') (h : s.Tracks [] f)
    (hk : f.HasFork k) : ∃ s', refs.forM (Surgery.addCase k) s = .ok () s' ∧ s'.Tracks [] f' := by
  refine forM_tracks (fun g => g.HasFork k) (fun h hk ha => ?_) hrun h hk
  obtain ⟨s', hs, ht⟩ := addCase_tracks h hk ⟨rfl, rfl⟩ ha
  exact ⟨s', hs, ht, (addCase_restocks h.stocked hk ha).2⟩

theorem Registry.Pictures.next_eq (h : s.Pictures hand f) : s.nodes.next = f.nodes.next := by
  rw [Arena.next_eq, Arena.next_eq, h.size]

theorem Registry.Pictures.register_eq (h : s.Pictures hand f) (parts : Listing) :
    Surgery.register parts s =
      .ok f.nodes.next { s with nodes := s.nodes.push ⟨none, parts⟩ } := by
  rw [← h.next_eq]
  rfl

/-- The record of a component that has just been numbered. -/
theorem get?_push_next (a : Arena Stored) (x : Stored) : (a.push x).get? a.next = some x := by
  rw [Arena.get?_push, if_pos rfl]

theorem Registry.Tracks.added (h : s.Tracks [] f) (ha : Adds b f f')
    (hhandle : f'.handle = f.handle) (hfrozen : f'.frozen = f.frozen) (hf : f'.Stocked []) :
    Tracks { s with nodes := s.nodes.push ⟨none, .block⟩ } [] f' := by
  obtain rfl := ha.fresh
  have hmade (x : Block) : Registry.Pictures { s with nodes := s.nodes.push ⟨none, .block⟩ } []
      (Func.aside { f with nodes := f.nodes.push x } (.block f.nodes.next)) :=
    (h.toPictures.register rfl rfl .block (Arena.size_push f.nodes x)).aside
      (h.next_eq ▸ get?_push_next s.nodes _) (List.forall_mem_nil _) (List.forall_mem_nil _)
          fun i hi => .inl (by
        rwa [idsAll, idsAll, List.append_nil] at hi)
  refine ⟨(hmade default).of_graph ⟨hhandle, ha.body, ha.bodyHeld, ha.detached, hfrozen,
    ha.size.trans (Arena.size_push _ _).symm, fun i => ?_⟩, hf, ha.bodyHeld.trans h.bodyHeld⟩
  rw [ha.stored, Func.aside, Arena.get?_push]
  by_cases hi : i = f.nodes.next <;> simp [hi]

theorem Surgery.newBlock_eq (h : s.Pictures hand f) (hu : f.frozen = false) :
    Surgery.newBlock s =
      .ok f.nodes.next { s with nodes := s.nodes.push ⟨none, .block⟩ } := by
  rw [Surgery.newBlock, Surgery.bind_eq (Surgery.unfrozen_eq (h.frozen.trans hu) _)]
  exact h.register_eq .block

theorem newBlock_tracks (h : s.Tracks [] f) {label : String}
    (hrun : Edit.newBlock label f = .ok b f') :
    ∃ s', Surgery.newBlock s = .ok b s' ∧ s'.Tracks [] f' := by
  obtain ⟨hu, hrun'⟩ := Edit.unfrozen_bind_ok hrun
  have hb := newBlock_stocked h.stocked hrun
  cases hrun'
  refine ⟨_, Surgery.newBlock_eq h.toPictures hu, h.added ⟨rfl, rfl, rfl, rfl, Arena.size_push _ _,
    fun i => ?_⟩ rfl rfl hb.stocked⟩
  rw [Arena.get?_push]
  by_cases hi : i = f.nodes.next <;> simp [hi]

namespace Registry.Tracks

theorem registered (h : s.Tracks [] f) (parts : Listing) :
    Tracks { s with nodes := s.nodes.push ⟨none, parts⟩ } [.seq f.nodes.next []]
      { f with nodes := f.nodes.skip } :=
  ⟨h.toPictures.register (c := .seq f.nodes.next []) rfl rfl parts (Arena.size_skip _),
    register_stocked h.stocked, h.bodyHeld⟩

theorem alter (h : s.Tracks hand f) (hx : x ∈ hand) (ha : s.Alters x.id s') : s'.Tracks hand f :=
  ⟨h.toPictures.alter h.stocked hx ha, h.stocked, h.bodyHeld⟩

theorem built (h : s.Tracks hand f) (hk : c.kind ≠ .block)
    (hperm : hand.Perm (.seq c.id [] :: c.children))
    (hroot : s.nodes.get? c.id = some ⟨none, c.parts⟩)
    (hparts : ∀ x ∈ c.children, s.nodes.get? x.id = some ⟨some c.id, x.parts⟩) :
    s.Tracks [] (f.aside c) := by
  refine ⟨h.toPictures.aside hroot (fun x hx => ?_) nofun fun i hi => .inl ?_,
    aside_stocked hand (by rw [List.append_nil]; exact h.stocked) ?_ rfl rfl rfl, h.bodyHeld⟩
  · exact (h.toPictures.held x (hperm.symm.subset (List.mem_cons_of_mem _ hx))).shows (hparts x hx)
  · rw [ids_eq_cons]
    exact (idsAll_perm hperm).subset hi
  · exact (same_children c hk).trans (.of_perm hperm.symm)

end Registry.Tracks

def Registry.adopted (s : Registry) (p : NodeId) (cs : List NodeId) : Registry :=
  cs.foldl (fun s c => s.setParent c (some p)) s

theorem Registry.get?_adopted (s : Registry) (p : NodeId) (cs : List NodeId) :
    (s.adopted p cs).nodes.get? i =
      (s.nodes.get? i).map fun x => if i ∈ cs then { x with parent := some p } else x := by
  induction cs generalizing s with
  | nil => simp [adopted]
  | cons c cs ih =>
    rw [adopted, List.foldl_cons, ← adopted, ih, get?_setParent, Option.map_map]
    congr 1
    funext x
    by_cases hc : c = i <;> by_cases hi : i ∈ cs <;> simp [hc, hi, Ne.symm]

/-- A structure that has adopted what is in hand lists it. -/
theorem Registry.Tracks.listed (h : (s.adopted c.id (c.children.map Component.id)).Tracks hand f)
    {parts : Listing} (hk : c.kind ≠ .block) (hperm : hand.Perm (.seq c.id [] :: c.children))
    (hroot : s.nodes.get? c.id = some ⟨none, parts⟩)
    (hparts : ∀ x ∈ c.children, s.nodes.get? x.id = some ⟨none, x.parts⟩) :
    ((s.adopted c.id (c.children.map Component.id)).setParts c.id c.parts).Tracks []
      (f.aside c) := by
  have hn : c.ids.Nodup := by
    have hn := h.stocked.nodup
    rw [idsAll_append] at hn
    rw [ids_eq_cons]
    exact (idsAll_perm hperm).nodup_iff.mp hn.of_append_left
  have hne : ∀ x ∈ c.children, x.id ≠ c.id := fun x hx => child_ne hn hx (id_mem_ids x)
  have ha := (s.adopted c.id (c.children.map Component.id)).alters_setParts c.id c.parts
  have hmem : Component.seq c.id [] ∈ hand := hperm.symm.subset List.mem_cons_self
  refine (h.alter hmem ha).built hk hperm ?_ fun x hx => ?_
  · have hout : c.id ∉ c.children.map Component.id := fun hm => by
      obtain ⟨x, hx, he⟩ := List.mem_map.mp hm
      exact hne x hx he
    rw [get?_setParts, get?_adopted, hroot]
    simp only [Option.map_some, hout, if_false, if_true]
  · rw [ha.rest _ (hne x hx), get?_adopted, hparts x hx, Option.map_some,
      if_pos (List.mem_map_of_mem hx)]

theorem newSequence_tracks (h : s.Tracks [] f) {refs : List ComponentRef}
    (hrun : Edit.newSequence refs f = .ok q f') :
    ∃ s', Surgery.newSequence refs s = .ok q s' ∧ s'.Tracks [] f' := by
  obtain ⟨hu, hrun⟩ := Edit.unfrozen_bind_ok hrun
  obtain ⟨_, f₁, helems, hrun⟩ := Edit.bind_ok
    (show (refs.forM (Edit.appendElement f.nodes.next) >>= _) { f with
      nodes := f.nodes.skip, detached := f.detached ++ [.seq f.nodes.next []] } = _ from hrun)
  cases hrun
  have hnext := h.next_eq
  have h₁ := (h.registered (.seq [])).built (c := .seq f.nodes.next []) Kind.noConfusion (.refl _)
    (hnext ▸ get?_push_next s.nodes _) (List.forall_mem_nil _)
  obtain ⟨s', hs, ht⟩ := appendElements_tracks helems h₁
    ⟨[], _, List.mem_append_right [f.body] (List.mem_append_right _ List.mem_cons_self), .here⟩
  refine ⟨s', ?_, ht⟩
  rw [Surgery.newSequence, Surgery.bind_eq (Surgery.unfrozen_eq (h.frozen.trans hu) _),
    Surgery.bind_eq (h.register_eq _)]
  exact Surgery.bind_eq hs

/-- A fork is made of a block and of what becomes its cases. -/
theorem fork_tracks (h : s.Tracks [] f) (hb : (f.nodes.get? ref.id).isSome)
    (href : ref'.Agrees ref) {refs : List ComponentRef}
    (hrun : (do
      let id ← Edit.register
      let block ← Edit.adopt id ref
      modify fun f => { f with detached := f.detached ++ [.fork id block.id []] }
      refs.forM (Edit.addCase id)
      return id : Edit NodeId) f = .ok q f') :
    ∃ s', (do
      let k ← Surgery.register (.fork none [])
      Surgery.adopt k ref'
      Surgery.setParts k (.fork (some ref'.id) [])
      refs.forM (Surgery.addCase k)
      return k : Surgery NodeId) s = .ok q s' ∧ s'.Tracks [] f' := by
  obtain ⟨x, f₁, htake, hrun⟩ := Edit.bind_ok
    (show (Edit.adopt f.nodes.next ref >>= _) { f with nodes := f.nodes.skip } = _ from hrun)
  have hreg := register_stocked h.stocked
  obtain rfl := (adopt_adopts hreg htake).eq_block hreg (by rw [Arena.get?_skip]; exact hb)
  obtain ⟨hx, hout, hid, howner, rfl⟩ := adopt_inv hreg htake
  obtain ⟨_, f₂, hmod, hrun⟩ := Edit.bind_ok hrun
  cases hmod
  obtain ⟨_, f₃, hcases, hrun⟩ := Edit.bind_ok hrun
  cases hrun
  have hnext := h.next_eq
  have hne : ref.id ≠ f.nodes.next := fun he => hout (he ▸ id_mem_ids (.block ref.id))
  have h₁ := h.registered (.fork none [])
  have hroot : (s.nodes.push ⟨none, .fork none []⟩).get? f.nodes.next =
      some ⟨none, .fork none []⟩ := hnext ▸ get?_push_next s.nodes _
  have hadopt := h₁.adopt_eq (p := f.nodes.next) hx href.2 (href.1.trans howner)
    (.of_root hroot hne)
  have h₂ := Registry.Tracks.listed (c := .fork f.nodes.next ref.id [])
    (h₁.taken hx f.nodes.next) Kind.noConfusion (.swap _ _ _) hroot fun x hx' => by
      obtain rfl := List.mem_singleton.mp hx'
      exact (h₁.detached _ hx).root
  obtain ⟨s', hs, ht⟩ := addCases_tracks hcases (h₂.of_graph
      ⟨rfl, rfl, rfl, rfl, rfl, rfl, fun _ => rfl⟩)
    ⟨_, _, _, List.mem_append_right [f.body] (List.mem_append_right _ List.mem_cons_self), .here⟩
  refine ⟨s', ?_, ht⟩
  rw [href.2, Surgery.bind_eq (h.register_eq _), Surgery.bind_eq hadopt]
  exact (Surgery.bind_eq (Surgery.setParts_eq ..)).trans (Surgery.bind_eq hs)

theorem Registry.Pictures.refTo_agrees (h : s.Pictures hand f) (i : NodeId) :
    ∃ ref', Surgery.refTo i s = .ok ref' s ∧ ref'.Agrees ⟨f.handle, i,
      ((f.find? i).map Component.kind).getD .function, f.label i⟩ :=
  ⟨_, Surgery.refTo_eq i, h.handle, rfl⟩

theorem newFork_tracks (h : s.Tracks [] f) {cond : Option ComponentRef}
    {refs : List ComponentRef} (hc : ∀ c ∈ cond, (f.nodes.get? c.id).isSome)
    (hrun : Edit.newFork cond refs f = .ok q f') :
    ∃ s', Surgery.newFork cond refs s = .ok q s' ∧ s'.Tracks [] f' := by
  obtain ⟨hu, hrun⟩ := Edit.unfrozen_bind_ok hrun
  rw [Surgery.newFork, Surgery.bind_eq (Surgery.unfrozen_eq (h.frozen.trans hu) _)]
  cases cond with
  | some c => exact fork_tracks h (hc c rfl) ⟨rfl, rfl⟩ hrun
  | none =>
    obtain ⟨b, f₁, hnew, hrun⟩ := Edit.bind_ok hrun
    have hb := newBlock_stocked h.stocked hnew
    rw [Edit.bind_eq (refTo_eq _ _)] at hrun
    obtain ⟨s₁, hs₁, h₁⟩ := newBlock_tracks h hnew
    obtain ⟨ref', hs₂, href⟩ := h₁.refTo_agrees b
    obtain ⟨s', hs', h'⟩ := fork_tracks h₁ hb.stored href hrun
    exact ⟨s', ((Surgery.bind_eq hs₁).trans (Surgery.bind_eq hs₂)).trans hs', h'⟩

theorem orNewSequence_tracks (h : s.Tracks [] f) {given : Option ComponentRef}
    (hrun : Edit.orNewSequence given f = .ok ref f') :
    ∃ ref' s', Surgery.orNewSequence given s = .ok ref' s' ∧ ref'.Agrees ref ∧ s'.Tracks [] f' := by
  cases given with
  | some c =>
    cases hrun
    exact ⟨_, s, rfl, ⟨rfl, rfl⟩, h⟩
  | none =>
    obtain ⟨q, f₁, hnew, hrun⟩ := Edit.bind_ok hrun
    cases hrun
    obtain ⟨s₁, hs₁, h₁⟩ := newSequence_tracks h hnew
    obtain ⟨ref', hs₂, href⟩ := h₁.refTo_agrees q
    exact ⟨ref', s₁, (Surgery.bind_eq hs₁).trans hs₂, href, h₁⟩

theorem orNewBlock_tracks (h : s.Tracks [] f) {label : String} {given : Option ComponentRef}
    (hrun : Edit.orNewBlock label given f = .ok ref f') :
    ∃ ref' s', Surgery.orNewBlock given s = .ok ref' s' ∧ ref'.Agrees ref ∧ s'.Tracks [] f' := by
  cases given with
  | some c =>
    cases hrun
    exact ⟨_, s, rfl, ⟨rfl, rfl⟩, h⟩
  | none =>
    obtain ⟨q, f₁, hnew, hrun⟩ := Edit.bind_ok hrun
    cases hrun
    obtain ⟨s₁, hs₁, h₁⟩ := newBlock_tracks h hnew
    obtain ⟨ref', hs₂, href⟩ := h₁.refTo_agrees q
    exact ⟨ref', s₁, (Surgery.bind_eq hs₁).trans hs₂, href, h₁⟩

/-- A component that has just been numbered adopts a tree. -/
theorem adopt_tracks (h : s.Tracks hand f) {parts : Listing}
    (hroot : s.nodes.get? p = some ⟨none, parts⟩) (href : ref'.Agrees ref)
    (hrun : Edit.adopt p ref f = .ok x f') :
    Surgery.adopt p ref' s = .ok () (s.setParent x.id (some p)) ∧
      (s.setParent x.id (some p)).Tracks (x :: hand) f' ∧ ref'.id = x.id ∧
      (s.setParent x.id (some p)).nodes.get? p = some ⟨none, parts⟩ ∧
      x ∈ f.detached ∧ ∀ y ∈ f'.detached, y ∈ f.detached := by
  obtain ⟨hx, hout, hid, howner, rfl⟩ := adopt_inv h.stocked hrun
  have hne : x.id ≠ p := fun he => hout (he ▸ id_mem_ids x)
  exact ⟨h.adopt_eq hx (href.2.trans hid) (href.1.trans howner) (.of_root hroot hne),
    (h.taken hx p).of_graph ⟨rfl, rfl, rfl, rfl, rfl, rfl, fun _ => rfl⟩,
        href.2.trans hid, by simp [hroot, hne],
    hx, fun _ hy => (List.mem_filter.mp hy).1⟩

theorem newLoop_tracks (h : s.Tracks [] f) {start cond body update after : Option ComponentRef}
    (hcond : ∀ c ∈ cond, (f.nodes.get? c.id).isSome)
    (hafter : ∀ c ∈ after, (f.nodes.get? c.id).isSome)
    (hrun : Edit.newLoop start cond body update after f = .ok q f') :
    ∃ s', Surgery.newLoop start cond body update after s = .ok q s' ∧ s'.Tracks [] f' := by
  obtain ⟨hu, hrun⟩ := Edit.unfrozen_bind_ok hrun
  obtain ⟨rs, f₁, hrs, hrun⟩ := Edit.bind_ok hrun
  obtain ⟨rs', s₁, hs₁, href₁, h₁⟩ := orNewSequence_tracks h hrs
  have k₁ := orNewSequence_restocks h.stocked hrs
  obtain ⟨rc, f₂, hrc, hrun⟩ := Edit.bind_ok hrun
  obtain ⟨rc', s₂, hs₂, href₂, h₂⟩ := orNewBlock_tracks h₁ hrc
  obtain ⟨k₂, hb₂⟩ := orNewBlock_restocks h₁.stocked (fun c hc => k₁.blocks _ (hcond c hc)) hrc
  obtain ⟨rb, f₃, hrb, hrun⟩ := Edit.bind_ok hrun
  obtain ⟨rb', s₃, hs₃, href₃, h₃⟩ := orNewSequence_tracks h₂ hrb
  have k₃ := orNewSequence_restocks h₂.stocked hrb
  obtain ⟨ru, f₄, hru, hrun⟩ := Edit.bind_ok hrun
  obtain ⟨ru', s₄, hs₄, href₄, h₄⟩ := orNewSequence_tracks h₃ hru
  have k₄ := orNewSequence_restocks h₃.stocked hru
  have k₁₄ := ((k₁.trans k₂).trans k₃).trans k₄
  obtain ⟨ra, f₅, hra, hrun⟩ := Edit.bind_ok hrun
  obtain ⟨ra', s₅, hs₅, href₅, h₅⟩ := orNewBlock_tracks h₄ hra
  obtain ⟨k₅, hb₅⟩ := orNewBlock_restocks h₄.stocked (fun c hc => k₁₄.blocks _ (hafter c hc)) hra
  have hb₂' : (f₅.nodes.get? rc.id).isSome := k₅.blocks _ (k₄.blocks _ (k₃.blocks _ hb₂))
  -- The five parts are adopted in their order; none of the steps changes which blocks there are.
  obtain ⟨start, g₁, t₁, hrun⟩ := Edit.bind_ok
    (show (Edit.adopt f₅.nodes.next rs >>= _) { f₅ with nodes := f₅.nodes.skip } = _ from hrun)
  have h₀ := h₅.registered (.loop none)
  have hroot : (s₅.nodes.push ⟨none, .loop none⟩).get? f₅.nodes.next = some ⟨none, .loop none⟩ :=
    h₅.next_eq ▸ get?_push_next s₅.nodes _
  obtain ⟨v₁, j₁, i₁, r₁, m₁, n₁⟩ := adopt_tracks h₀ hroot href₁ t₁
  have a₁ := adopt_adopts h₀.stocked t₁
  obtain ⟨cond, g₂, t₂, hrun⟩ := Edit.bind_ok hrun
  obtain ⟨v₂, j₂, i₂, r₂, m₂, n₂⟩ := adopt_tracks j₁ r₁ href₂ t₂
  have a₂ := adopt_adopts j₁.stocked t₂
  obtain rfl := a₂.eq_block j₁.stocked (by rw [a₁.nodes, Arena.get?_skip]; exact hb₂')
  obtain ⟨body, g₃, t₃, hrun⟩ := Edit.bind_ok hrun
  obtain ⟨v₃, j₃, i₃, r₃, m₃, n₃⟩ := adopt_tracks j₂ r₂ href₃ t₃
  have a₃ := adopt_adopts j₂.stocked t₃
  obtain ⟨update, g₄, t₄, hrun⟩ := Edit.bind_ok hrun
  obtain ⟨v₄, j₄, i₄, r₄, m₄, n₄⟩ := adopt_tracks j₃ r₃ href₄ t₄
  have a₄ := adopt_adopts j₃.stocked t₄
  obtain ⟨after, g₅, t₅, hrun⟩ := Edit.bind_ok hrun
  obtain ⟨v₅, j₅, i₅, r₅, m₅, n₅⟩ := adopt_tracks j₄ r₄ href₅ t₅
  have a₅ := adopt_adopts j₄.stocked t₅
  obtain rfl := a₅.eq_block j₄.stocked (by
    rw [a₄.nodes, a₃.nodes, a₂.nodes, a₁.nodes, Arena.get?_skip]
    exact hb₅)
  cases hrun
  have hmade := Registry.Tracks.listed (s := { s₅ with nodes := s₅.nodes.push ⟨none, .loop none⟩ })
    (c := .loop f₅.nodes.next start rc.id body update ra.id) j₅ Kind.noConfusion
    (List.reverse_perm [.block ra.id, update, body, .block rc.id, start,
      .seq f₅.nodes.next []]).symm hroot (fun x hx => ?_)
  · refine ⟨_, ?_, hmade.of_graph ⟨rfl, rfl, rfl, rfl, rfl, rfl, fun _ => rfl⟩⟩
    rw [Surgery.newLoop, Surgery.bind_eq (Surgery.unfrozen_eq (h.frozen.trans hu) _),
      Surgery.bind_eq hs₁, Surgery.bind_eq hs₂, Surgery.bind_eq hs₃, Surgery.bind_eq hs₄,
      Surgery.bind_eq hs₅, Surgery.bind_eq (h₅.register_eq _), Surgery.bind_eq v₁,
      Surgery.bind_eq v₂, Surgery.bind_eq v₃, Surgery.bind_eq v₄, Surgery.bind_eq v₅, i₁, i₂, i₃,
      i₄, i₅]
    rfl
  · refine (h₀.detached x ?_).root
    simp only [children, List.mem_cons, List.not_mem_nil, or_false] at hx
    rcases hx with rfl | rfl | rfl | rfl | rfl
    · exact m₁
    · exact n₁ _ m₂
    · exact n₁ _ (n₂ _ m₃)
    · exact n₁ _ (n₂ _ (n₃ _ m₄))
    · exact n₁ _ (n₂ _ (n₃ _ (n₄ _ m₅)))

/-! ## Replacing a component -/

/-- A part is the tree itself or a part of one of its children. -/
theorem Component.Within.cases_child (h : Within d c) : d = c ∨ ∃ e ∈ c.children, Within d e := by
  cases h with
  | here => exact .inl rfl
  | element h => exact .inr ⟨_, by simp [children], h⟩
  | case h => exact .inr ⟨_, by simp [children], h⟩
  | start h => exact .inr ⟨_, by simp [children], h⟩
  | body h => exact .inr ⟨_, by simp [children], h⟩
  | update h => exact .inr ⟨_, by simp [children], h⟩

/-- A part that lies in another one by its number is a part of that one. -/
theorem Component.Within.within {e : Component} (hd : Within d e) (hc : Within c e)
    (hn : e.ids.Nodup) (hm : d.id ∈ c.ids) : Within d c := by
  have step : ∀ {x e : Component}, x ∈ e.children → e.ids.Nodup → Within c x → Within d e →
      Within d x := by
    intro x e hx hn hc hd
    rcases hd.cases_child with rfl | ⟨y, hy, hd⟩
    · exact absurd rfl (child_ne hn hx (hc.mem_ids hm))
    · rwa [← child_unique hn hy hx (hd.mem_ids (id_mem_ids d)) (hc.mem_ids hm)]
  induction hc with
  | here => exact hd
  | @element i l r x h ih => exact ih (step (by simp [children]) hn h hd) (element_nodup hn)
  | @case i cond l r x h ih => exact ih (step (by simp [children]) hn h hd) (case_nodup hn)
  | start h ih =>
    exact ih (step (by simp [children]) hn h hd) (apart_of_nodup hn).start_nodup
  | body h ih =>
    exact ih (step (by simp [children]) hn h hd) (apart_of_nodup hn).body_nodup
  | update h ih =>
    exact ih (step (by simp [children]) hn h hd) (apart_of_nodup hn).update_nodup

theorem Component.PartOf.within {ts : List Component} (hd : d.PartOf ts) (hc : c.PartOf ts)
    (hn : (idsAll ts).Nodup) (hm : d.id ∈ c.ids) : Within d c := by
  obtain ⟨t, ht, hc⟩ := hc
  exact (hd.within_of_mem ht hn (hc.mem_ids hm)).within hc (PartOf.nodup ⟨t, ht, .here⟩ hn) hm

/-- What a structure only names is not a part that can be replaced. -/
theorem Component.PartOf.role_ne {role : Role} {ts : List Component} (hd : d.PartOf ts)
    (hc : c.PartOf ts) (hn : (idsAll ts).Nodup) (hplays : c.Plays d.id role) :
    role ≠ .condition ∧ role ≠ .loopCondition ∧ role ≠ .after := by
  have hw := hd.within hc hn (mem_ids_of_plays hplays)
  have hnc := hc.nodup hn
  have hne : d.id ≠ c.id := by
    obtain ⟨e, he, hid⟩ := List.mem_map.mp (mem_children_of_plays hplays)
    exact hid ▸ child_ne hnc he (id_mem_ids e)
  cases hw with
  | here => exact absurd rfl hne
  | element => refine ⟨?_, ?_, ?_⟩ <;> rintro rfl <;> cases hplays
  | @case i cond l r x h =>
    refine ⟨?_, ?_, ?_⟩ <;> rintro rfl <;> try cases hplays
    rw [ids, List.nodup_cons, List.nodup_cons] at hnc
    exact hnc.2.1 (mem_idsAll.mpr ⟨x, by simp, h.mem_ids (id_mem_ids d)⟩)
  | start h =>
    have ha := apart_of_nodup hnc
    refine ⟨?_, ?_, ?_⟩ <;> rintro rfl <;> cases hplays
    · exact ha.cond_start (h.mem_ids (id_mem_ids d))
    · exact ha.after_start (h.mem_ids (id_mem_ids d))
  | body h =>
    have ha := apart_of_nodup hnc
    refine ⟨?_, ?_, ?_⟩ <;> rintro rfl <;> cases hplays
    · exact ha.cond_body (h.mem_ids (id_mem_ids d))
    · exact ha.after_body (h.mem_ids (id_mem_ids d))
  | update h =>
    have ha := apart_of_nodup hnc
    refine ⟨?_, ?_, ?_⟩ <;> rintro rfl <;> cases hplays
    · exact ha.cond_update (h.mem_ids (id_mem_ids d))
    · exact ha.after_update (h.mem_ids (id_mem_ids d))

theorem Component.modifyAll_congr {t t' : NodeId} {g g' : Component → Component}
    {ts : List Component} (h : ∀ c ∈ ts, c.modify t g = c.modify t' g') :
    modifyAll t g ts = modifyAll t' g' ts := by
  induction ts with
  | nil => rfl
  | cons c ts ih =>
    rw [modifyAll, modifyAll, h c List.mem_cons_self,
      ih fun d hd => h d (List.mem_cons_of_mem _ hd)]

/-- A change below a structure is a change of the structure. -/
theorem Func.changed_inside (hn : (idsAll f.trees).Nodup) (hc : c.PartOf f.trees)
    (hi : i ∈ c.ids) : f.changed i g = f.changed c.id fun _ => c.modify i g := by
  have htree : ∀ t ∈ f.trees, t.modify i g = t.modify c.id fun _ => c.modify i g := by
    intro t ht
    by_cases hm : c.id ∈ t.ids
    · exact (hc.within_of_mem ht hn hm).modify_inside (PartOf.nodup ⟨t, ht, .here⟩ hn) hi
    · obtain ⟨e, he, hw⟩ := hc
      rw [modify_of_not_mem t hm, modify_of_not_mem t fun hit => hm ?_]
      rw [unique_of_nodup hn ht he hit (hw.mem_ids hi)]
      exact hw.mem_ids (id_mem_ids c)
  rw [Func.changed, Func.changed, htree f.body List.mem_cons_self,
    modifyAll_congr fun t ht => htree t (List.mem_cons_of_mem _ ht)]

/-- A tree that was set aside becomes the body, and the old body is set aside. -/
theorem Registry.Tracks.enthroned (h : s.Tracks [] f) (hx : x ∈ f.detached) :
    (((s.setParent f.body.id none).setParent x.id (some rootId)).setParts rootId
      (.function (some x.id))).Tracks [] { f with
        body := x, bodyHeld := true, detached := (f.without x).detached ++ [f.body] } := by
  obtain ⟨l, r, hlr, hlr'⟩ := h.stocked.mem_detached_split hx
  have hroot : ∀ {t : Component}, t ∈ f.trees → t.id ≠ rootId := fun ht he =>
    h.stocked.root_not_mem (he ▸ mem_idsAll_of_mem ht)
  have hxt : x ∈ f.trees := List.mem_cons_of_mem _ hx
  have hbt : f.body ∈ f.trees := List.mem_cons_self
  have hbody : f.body.id ≠ x.id := fun he => by
    have hn := h.stocked.trees_nodup
    rw [Func.trees, idsAll, List.nodup_append] at hn
    exact hn.2.2 _ (id_mem_ids f.body) _ (he ▸ mem_idsAll_of_mem hx) rfl
  have hrest : ∀ {i : NodeId}, i ≠ f.body.id → i ≠ x.id → i ≠ rootId →
      (((s.setParent f.body.id none).setParent x.id (some rootId)).setParts rootId
        (.function (some x.id))).nodes.get? i = s.nodes.get? i := fun hb hx hr => by
    simp [hb.symm, hx.symm, hr.symm]
  have hmem : ∀ {t : Component} {i : NodeId}, t ∈ f.trees → i ∈ t.ids → i ≠ rootId :=
    fun ht hi he => h.stocked.root_not_mem (he ▸ mem_idsAll.mpr ⟨_, ht, hi⟩)
  have hperm : ((x :: ((f.without x).detached ++ [f.body]))).Perm f.trees := by
    rw [hlr', Func.trees, hlr]
    exact ((List.perm_append_singleton _ _).cons x).trans
      ((List.Perm.swap _ _ _).trans (List.perm_middle.symm.cons _))
  refine ⟨⟨h.handle, h.frozen, by simp [h.size], by simp [h.root, hroot hxt, hroot hbt],
    (h.detached x hx).reparent (h.forest.tree_nodup hxt) (fun i hi hne => hrest (fun he => ?_) hne
      (hmem hxt hi)) (by simp [(h.detached x hx).root, (hroot hxt).symm]), fun d hd => ?_,
          List.forall_mem_nil _,
    fun i hi => ?_⟩, h.stocked.moved (.of_perm hperm) rfl, rfl⟩
  · exact hbody (congrArg Component.id (h.forest.tree_unique hbt hxt (id_mem_ids _) (he ▸ hi)))
  · rcases List.mem_append.mp hd with hd | hd
    · obtain ⟨hd, hne⟩ := List.mem_filter.mp hd
      have hdt : d ∈ f.trees := List.mem_cons_of_mem _ hd
      have hne : d.id ≠ x.id := by simpa using hne
      refine (h.detached d hd).congr fun i hi => hrest (fun he => ?_) (fun he => ?_) (hmem hdt hi)
      · have heq := h.forest.tree_unique hbt hdt (id_mem_ids _) (he ▸ hi)
        have hfalse := isBody_of_mem_detached h.stocked.trees_nodup hd
        rw [← heq, isBody, h.bodyHeld, decide_eq_true rfl] at hfalse
        cases hfalse
      · exact hne (congrArg Component.id (h.forest.tree_unique hdt hxt hi (he ▸ id_mem_ids x)))
    · obtain rfl := List.mem_singleton.mp hd
      refine h.body.reparent (h.forest.tree_nodup hbt) (fun i hi hne => hrest hne (fun he => ?_)
        (hmem hbt hi)) (by simp [h.body.root, hbody.symm, (hroot hbt).symm])
      exact hbody (congrArg Component.id (h.forest.tree_unique hbt hxt hi (he ▸ id_mem_ids x)))
  · exact (h.only i (by simpa using hi)).imp_right fun hm => (idsAll_perm hperm).symm.subset hm

/-- What has been set aside can be adopted where the way up is clear. -/
theorem adopt_of_clear (hroot : s.nodes.get? x.id = some ⟨none, x.parts⟩)
    (hclear : s.Clear p x.id) (hid : ref.id = x.id) (howner : ref.owner = s.handle) :
    Surgery.adopt p ref s = .ok () (s.setParent ref.id (some p)) := by
  rw [← hid] at hroot hclear
  refine Surgery.adopt_eq howner hroot ?_ hclear
  rw [kind_parts]
  cases x <;> exact Kind.noConfusion

/-- A record that is changed after others have been is the same in the end. -/
theorem Registry.get?_swapped (s : Registry) {e : NodeId} (hne : e ≠ i) (A B : Listing)
    (o : Option NodeId) (j : NodeId) :
    (((s.setParent e none).setParent i o).setParts q B).nodes.get? j =
        (((s.setParent i o).setParts q B).setParent e none).nodes.get? j ∧
      ((((s.setParts q A).setParent e none).setParent i o).setParts q B).nodes.get? j =
        (((s.setParent i o).setParts q B).setParent e none).nodes.get? j := by
  simp only [get?_setParts, get?_setParent, Option.map_map]
  constructor <;> congr 1 <;> funext x <;> simp only [Function.comp_apply] <;>
    split_ifs <;> simp_all

theorem Registry.get?_swapped_last (s : Registry) {e : NodeId} (hne : e ≠ i) (hq : q ≠ e)
    (A B D : Listing) (o : Option NodeId) (j : NodeId) :
    ((((s.setParent e none).setParent i o).setParts q B).setParts e D).nodes.get? j =
        ((((s.setParts e D).setParent i o).setParts q B).setParent e none).nodes.get? j ∧
      (((((s.setParts q A).setParent e none).setParent i o).setParts q B).setParts
          e D).nodes.get? j =
        ((((s.setParts e D).setParent i o).setParts q B).setParent e none).nodes.get? j := by
  simp only [get?_setParts, get?_setParent, Option.map_map]
  constructor <;> congr 1 <;> funext x <;> simp only [Function.comp_apply] <;>
    split_ifs <;> simp_all

theorem Registry.get?_setParts_self {P : Listing} (h : s.parts? i = some P) (j : NodeId) :
    (s.setParts i P).nodes.get? j = s.nodes.get? j := by
  rw [get?_setParts]
  by_cases hi : i = j
  · subst hi
    obtain ⟨x, hx, rfl⟩ := Option.map_eq_some_iff.mp h
    simp [hx]
  · simp [hi]

theorem Registry.Clear.of_setParts {P : Listing} (h : (s.setParts i P).Clear p q) :
    s.Clear p q := by
  obtain ⟨way, hway, hq⟩ := h
  rw [size_setParts] at hway
  refine ⟨way, ancestors_congr hway (fun j _ => ?_) fun j hj => ?_, hq⟩
  · rw [get?_setParts, Option.map_map]
    congr 1
    funext x
    simp only [Function.comp_apply]
    split <;> rfl
  · rwa [get?_setParts, Option.map_eq_none_iff] at hj

/-! What a component lists itself has no bearing on giving up its place. -/

/-- A structure gets a tree in the place of one of its parts, and its new parts are listed last. -/
theorem Registry.Tracks.exchanged {e : Component} (h : (s.setParts d.id d.parts).Tracks [] f)
    (hc : c.PartOf f.trees) (hx : x ∈ f.detached) (hout : c.id ∉ x.ids)
    (hold : c.children = l ++ d :: r) (hmod : c.modify d.id (fun _ => x) = e)
    (hnew : e.children = l ++ x :: r) (hid : e.id = c.id) (hk : c.kind ≠ .block)
    (hk' : e.kind ≠ .block)
    (hs : ∀ j, (s'.setParts d.id d.parts).nodes.get? j = ((((s.setParts d.id d.parts).setParent x.id
      (some c.id)).setParts c.id e.parts).setParent d.id none).nodes.get? j)
    (hhandle : s'.handle = s.handle) (hfrozen : s'.frozen = s.frozen)
    (hsize : s'.nodes.size = s.nodes.size) :
    (s'.setParts d.id d.parts).Tracks [] (((f.without x).changed d.id fun _ => x).aside d) := by
  have hd : d.id ∈ c.ids := ids_of_child (by simp [hold]) (id_mem_ids d)
  have hswap := h.swap (g := fun _ => e) hc hx hout hid hk hk' hold hnew
  rw [Func.changed_inside (h.stocked.without hx).trees_nodup (hc.of_without h.stocked hx hout) hd,
    hmod]
  exact hswap.of_records hs hhandle hfrozen (by simp [hsize])

theorem Registry.Tracks.retold {P : Listing} (h : s.Tracks hand f) (hp : s.parts? i = some P) :
    (s.setParts i P).Tracks hand f :=
  h.of_records (Registry.get?_setParts_self hp) rfl rfl (by simp)

theorem Registry.Tracks.of_retold {P : Listing} (h : (s.setParts i P).Tracks hand f)
    (hp : s.parts? i = some P) : s.Tracks hand f :=
  h.of_records (fun j => (Registry.get?_setParts_self hp j).symm) rfl rfl (by simp)

theorem Registry.parts?_moved {e : NodeId} (hq : q ≠ e) (A B : Listing) :
    (((s.setParent e none).setParent i o).setParts q B).parts? e = s.parts? e ∧
      ((((s.setParts q A).setParent e none).setParent i o).setParts q B).parts? e = s.parts? e := by
  simp only [parts?, get?_setParts, get?_setParent, Option.map_map]
  constructor <;> congr 1 <;> funext x <;> simp only [Function.comp_apply, hq, if_false] <;>
    split_ifs <;> rfl

theorem enthrone_untold (h : (s.setParts f.body.id f.body.parts).Tracks [] f)
    (hu : f.frozen = false) (hx : x ∈ f.detached) (hid : ref.id = x.id)
    (howner : ref.owner = f.handle) :
    ∃ s', Surgery.setBody ref s = .ok () s' ∧ s'.parts? f.body.id = s.parts? f.body.id ∧
      (s'.setParts f.body.id f.body.parts).Tracks [] { f with
        body := x, bodyHeld := true, detached := (f.without x).detached ++ [f.body] } := by
  have hroot' : rootId ≠ f.body.id := fun he => h.stocked.root_not_mem
    (he ▸ mem_idsAll_of_mem (y := f.body) List.mem_cons_self)
  have hne : x.id ≠ rootId := fun he => h.stocked.root_not_mem
    (he ▸ mem_idsAll_of_mem (List.mem_cons_of_mem _ hx))
  have hnb : f.body.id ≠ x.id := fun he => by
    have hn := h.stocked.trees_nodup
    rw [Func.trees, idsAll, List.nodup_append] at hn
    exact hn.2.2 _ (id_mem_ids f.body) _ (he ▸ mem_idsAll_of_mem hx) rfl
  have hrest := (s.alters_setParts f.body.id f.body.parts).rest
  have hroot₀ := (hrest rootId hroot').symm.trans h.root
  have hxroot₀ := (hrest x.id hnb.symm).symm.trans (h.detached x hx).root
  have hroot : (s.setParent f.body.id none).nodes.get? rootId =
      some ⟨none, .function (some f.body.id)⟩ := by
    rw [Registry.get?_setParent, hroot₀]
    split <;> rfl
  have hxroot : (s.setParent f.body.id none).nodes.get? x.id = some ⟨none, x.parts⟩ := by
    rw [Registry.get?_setParent, hxroot₀]
    split <;> rfl
  have hu' : s.frozen = false := h.frozen.trans hu
  have howner' : ref.owner = s.handle := howner.trans h.handle.symm
  have hrun := Surgery.setBody_eq hu' hroot₀
      (adopt_of_clear hxroot (.of_root hroot hne) hid howner')
  rw [hid] at hrun
  refine ⟨_, hrun, (Registry.parts?_moved hroot' .block _).1, ?_⟩
  refine (h.enthroned hx).of_records (fun j => ?_) rfl rfl (by simp)
  rw [(s.get?_swapped_last hnb hroot' .block _ _ _ j).1,
    ((s.setParts f.body.id f.body.parts).get?_swapped hnb .block _ _ j).1]

theorem enthrone_tracks (h : s.Tracks [] f) (hu : f.frozen = false) (hx : x ∈ f.detached)
    (hid : ref.id = x.id) (howner : ref.owner = f.handle) :
    ∃ s', Surgery.setBody ref s = .ok () s' ∧ s'.Tracks [] { f with
      body := x, bodyHeld := true, detached := (f.without x).detached ++ [f.body] } := by
  obtain ⟨s', hrun, hparts, ht⟩ := enthrone_untold (h.retold h.body.parts?) hu hx hid howner
  exact ⟨s', hrun, ht.of_retold (hparts.trans h.body.parts?)⟩

theorem exchange_untold {role : Role} (h : (s.setParts d.id d.parts).Tracks [] f)
    (hu : f.frozen = false) (hd : d.PartOf f.trees) (hp : f.parent? d.id = some (p, role))
    (hx : x ∈ f.detached) (hout : d.id ∉ x.ids) (hid : ref.id = x.id)
    (howner : ref.owner = f.handle) :
    ∃ s', Surgery.replaceInParent d.id ref s = .ok () s' ∧ s'.parts? d.id = s.parts? d.id ∧
      (s'.setParts d.id d.parts).Tracks [] (((f.without x).changed d.id fun _ => x).aside d) := by
  obtain ⟨owner, i, k, label⟩ := ref
  obtain rfl : i = x.id := hid
  have hn := h.stocked.trees_nodup
  have hne : d.id ≠ x.id := fun he => hout (he ▸ id_mem_ids x)
  have hrest := (s.alters_setParts d.id d.parts).rest
  have hxroot := (hrest x.id hne.symm).symm.trans (h.detached x hx).root
  have hu' : s.frozen = false := h.frozen.trans hu
  have howner' : (⟨owner, x.id, k, label⟩ : ComponentRef).owner = s.handle :=
    howner.trans h.handle.symm
  obtain ⟨P, hdroot⟩ : ∃ P, s.nodes.get? d.id = some ⟨some p, P⟩ := by
    obtain ⟨e, _, _, he⟩ := h.record h.forest (hd.mem_ids (id_mem_ids d))
    rw [hp, Registry.get?_setParts] at he
    obtain ⟨y, hy, he⟩ := Option.map_eq_some_iff.mp he
    obtain ⟨parent, parts⟩ := y
    rw [if_pos rfl, Stored.mk.injEq] at he
    obtain rfl : parent = some p := he.1
    exact ⟨parts, hy⟩
  rw [Surgery.replaceInParent]
  rcases plays_of_parent? hp with ⟨c, hc, rfl, hplays⟩ | ⟨rfl, rfl, hbody⟩
  · obtain ⟨hcond, hloop, hafter⟩ := hd.role_ne hc hn hplays
    obtain ⟨o, ho⟩ := h.part h.forest hc
    have hcx : c.id ∉ x.ids := fun hm => hout ((hc.within_of_mem (List.mem_cons_of_mem _ hx) hn
      hm).mem_ids (mem_ids_of_plays hplays))
    have hxc : x.id ≠ c.id := fun he => hcx (he ▸ id_mem_ids x)
    have hmem : c.id = rootId ∨ c.id ∈ idsAll f.trees := .inr (hc.mem_ids (id_mem_ids c))
    have hcd : c.id ≠ d.id := by
      obtain ⟨e, he, hed⟩ := List.mem_map.mp (mem_children_of_plays hplays)
      exact hed ▸ (child_ne (hc.nodup hn) he (id_mem_ids e)).symm
    have hcroot := (hrest c.id hcd).symm.trans ho.root
    have hlisted : c.parts.listed.Nodup := by
      have hnc := hc.nodup hn
      rw [ids_eq_cons, List.nodup_cons] at hnc
      rw [listed_parts]
      exact (map_id_sublist _).nodup hnc.2
    have hplace := Registry.placement_eq hdroot hcroot hlisted (at?_parts_of_plays hplays)
    rw [Surgery.bind_eq (Surgery.placementOf_eq hplace)]
    have hclear := (h.clear_of_apart h.forest hmem (List.mem_cons_of_mem _ hx) hcx).of_setParts
    have hchild := (h.clear_of_child h.forest hmem ⟨role, hp⟩).of_setParts
    have hadopt : Surgery.adopt c.id ⟨owner, x.id, k, label⟩ (s.setParent d.id none) = .ok ()
        ((s.setParent d.id none).setParent x.id (some c.id)) :=
      adopt_of_clear (by simp [hxroot, hne]) (hclear.setParent hchild none) rfl howner'
    have hnc := hc.nodup hn
    have unique : ∀ {e : Component}, e.PartOf f.trees → e.id = d.id → e = d :=
      fun he hid => he.unique hd hn hid
    cases c with
    | block b => cases role <;> cases hplays
    | seq q es =>
      cases role with
      | element n =>
        obtain ⟨e, he, hed⟩ := hplays
        obtain rfl := unique (hc.trans (.of_mem_seq (List.mem_of_getElem? he) .here)) hed
        obtain ⟨l, r, rfl, rfl⟩ := append_of_getElem? he
        have hroot : s.nodes.get? q =
            some ⟨o, .seq (l.map Component.id ++ e.id :: r.map Component.id)⟩ := by
          rw [← List.map_cons, ← List.map_append]
          exact hcroot
        have hqx : q ≠ x.id := hxc.symm
        have hrun := Surgery.replace_eq hu' hroot
          (child_ne hnc (by simp [children]) (id_mem_ids e)) hxc
          (adopt_of_clear (x := x) (by simp [hxroot, hne, hqx])
            ((hclear.setParts q _).setParent (hchild.setParts q _) none) rfl howner')
        simp only [List.length_map, ← List.map_cons, ← List.map_append] at hrun
        refine ⟨_, Surgery.bind_eq hrun, (Registry.parts?_moved hcd _ _).2, h.exchanged
            (e := .seq q (l ++ x :: r)) hc hx hcx rfl ?_
          rfl rfl Kind.noConfusion Kind.noConfusion
          (fun j => (s.get?_swapped_last hne hcd _ _ _ _ j).2) rfl rfl (by simp)⟩
        rw [modify_element hnc fun _ => id_mem_ids e, modify_self]
      | _ => cases hplays
    | fork q cond cs =>
      cases role with
      | case n =>
        obtain ⟨e, he, hed⟩ := hplays
        obtain rfl := unique (hc.trans (.of_mem_fork (List.mem_of_getElem? he) .here)) hed
        obtain ⟨l, r, rfl, rfl⟩ := append_of_getElem? he
        have hroot : s.nodes.get? q =
            some ⟨o, .fork (some cond) (l.map Component.id ++ e.id :: r.map Component.id)⟩ := by
          rw [← List.map_cons, ← List.map_append]
          exact hcroot
        have hrun := Surgery.replaceCase_eq hroot hadopt
        simp only [List.length_map, ← List.map_cons, ← List.map_append] at hrun
        refine ⟨_, hrun, (Registry.parts?_moved hcd .block _).1, h.exchanged (l := .block cond :: l)
            (e := .fork q cond (l ++ x :: r)) hc
          hx hcx rfl ?_ rfl rfl Kind.noConfusion Kind.noConfusion
          (fun j => (s.get?_swapped_last hne hcd .block _ _ _ j).1) rfl rfl (by simp)⟩
        rw [modify_case hnc fun _ => id_mem_ids e, modify_self]
      | condition => exact absurd rfl hcond
      | _ => cases hplays
    | loop q start cond body update after =>
      have hroot : s.nodes.get? q = some ⟨o, .loop (some ⟨start.id, cond, body.id, update.id,
        after⟩)⟩ := hcroot
      cases role with
      | start =>
        obtain rfl := unique (hc.trans (.start .here)) hplays
        refine ⟨_, Surgery.replaceMember_eq hroot rfl Role.noConfusion Role.noConfusion hadopt,
          (Registry.parts?_moved hcd .block _).1, h.exchanged (l := [])
              (e := .loop q x cond body update after) hc hx hcx rfl ?_
          rfl rfl Kind.noConfusion Kind.noConfusion (fun j =>
              (s.get?_swapped_last hne hcd .block _ _ _ j).1) rfl rfl (by simp)⟩
        rw [modify_start hnc fun _ => id_mem_ids start, modify_self]
      | body =>
        obtain rfl := unique (hc.trans (.body .here)) hplays
        refine ⟨_, Surgery.replaceMember_eq hroot rfl Role.noConfusion Role.noConfusion hadopt,
          (Registry.parts?_moved hcd .block _).1, h.exchanged (l := [start, .block cond])
              (e := .loop q start cond x update after) hc hx hcx rfl ?_
          rfl rfl Kind.noConfusion Kind.noConfusion (fun j =>
              (s.get?_swapped_last hne hcd .block _ _ _ j).1) rfl rfl (by simp)⟩
        rw [modify_body hnc fun _ => id_mem_ids body, modify_self]
      | update =>
        obtain rfl := unique (hc.trans (.update .here)) hplays
        refine ⟨_, Surgery.replaceMember_eq hroot rfl Role.noConfusion Role.noConfusion hadopt,
          (Registry.parts?_moved hcd .block _).1, h.exchanged (l := [start, .block cond, body])
              (e := .loop q start cond body x after) hc hx hcx rfl ?_
          rfl rfl Kind.noConfusion Kind.noConfusion (fun j =>
              (s.get?_swapped_last hne hcd .block _ _ _ j).1) rfl rfl (by simp)⟩
        rw [modify_update hnc fun _ => id_mem_ids update, modify_self]
      | loopCondition => exact absurd rfl hloop
      | after => exact absurd rfl hafter
      | _ => cases hplays
  · rw [isBody, Bool.and_eq_true, decide_eq_true_eq] at hbody
    obtain rfl := hd.unique f.body_partOf hn hbody.1.symm
    have hroot := (hrest rootId fun he => h.stocked.root_not_mem
      (he ▸ mem_idsAll_of_mem (y := f.body) List.mem_cons_self)).symm.trans h.root
    have hplace := Registry.placement_eq hdroot hroot (List.nodup_singleton _)
      (show (Listing.function (some f.body.id)).at? .functionBody = some f.body.id from rfl)
    rw [Surgery.bind_eq (Surgery.placementOf_eq hplace)]
    obtain ⟨s', hs, hparts, ht⟩ :=
      enthrone_untold h hu hx (show (⟨owner, x.id, k, label⟩ : ComponentRef).id = _ from rfl) howner
    refine ⟨s', hs, hparts, ht.of_graph ⟨rfl, modify_self .., h.bodyHeld, ?_, rfl, rfl,
      fun _ => rfl⟩⟩
    rw [Func.aside, Func.changed, modifyAll_of_not_mem]
    exact fun hm => by
      have hnb := (h.stocked.without hx).trees_nodup
      rw [Func.trees, idsAll, List.nodup_append] at hnb
      exact hnb.2.2 _ (id_mem_ids f.body) _ hm rfl

theorem exchange_tracks {role : Role} (h : s.Tracks [] f) (hu : f.frozen = false)
    (hd : d.PartOf f.trees) (hp : f.parent? d.id = some (p, role)) (hx : x ∈ f.detached)
    (hout : d.id ∉ x.ids) (hid : ref.id = x.id) (howner : ref.owner = f.handle) :
    ∃ s', Surgery.replaceInParent d.id ref s = .ok () s' ∧
      s'.Tracks [] (((f.without x).changed d.id fun _ => x).aside d) := by
  obtain ⟨o, ho⟩ := h.part h.forest hd
  obtain ⟨s', hrun, hparts, ht⟩ := exchange_untold (h.retold ho.parts?) hu hd hp hx hout hid howner
  exact ⟨s', hrun, ht.of_retold (hparts.trans ho.parts?)⟩

theorem setBody_tracks (h : s.Tracks [] f) (href : ref'.Agrees ref)
    (hrun : Edit.setBody ref f = .ok u f') :
    ∃ s', Surgery.setBody ref' s = .ok () s' ∧ s'.Tracks [] f' := by
  obtain ⟨hu, -⟩ := Edit.unfrozen_bind_ok hrun
  rcases setBody_cases hrun with ⟨howner, hid, rfl⟩ | ⟨-, x, g, htake, rfl⟩
  · -- The body is put back into its place.
    have hne : f.body.id ≠ rootId := fun he => h.stocked.root_not_mem
      (he ▸ mem_idsAll_of_mem (y := f.body) List.mem_cons_self)
    have hbody : (s.setParent f.body.id none).nodes.get? f.body.id = some ⟨none, f.body.parts⟩ := by
      simp [h.body.root]
    have hroot : (s.setParent f.body.id none).nodes.get? rootId =
        some ⟨none, .function (some f.body.id)⟩ := by simp [h.root, hne]
    have hput := Surgery.setBody_eq (h.frozen.trans hu) h.root (adopt_of_clear hbody
      (.of_root hroot hne) (href.2.trans hid) (href.1.trans (howner.trans h.handle.symm)))
    rw [href.2.trans hid] at hput
    have hsame (i : NodeId) : (((s.setParent f.body.id none).setParent f.body.id
        (some rootId)).setParts rootId (.function (some f.body.id))).nodes.get? i =
        s.nodes.get? i := by
      simp only [Registry.get?_setParts, Registry.get?_setParent]
      by_cases hi : f.body.id = i
      · subst hi
        simp [h.body.root, hne.symm]
      · by_cases hr : rootId = i
        · subst hr
          simp [h.root, hne]
        · simp [hi, hr]
    have hrecords := h.of_records hsame rfl rfl (by simp)
    exact ⟨_, hput, hrecords.of_graph ⟨rfl, rfl, h.bodyHeld.symm, rfl, rfl, rfl, fun _ => rfl⟩⟩
  · have hrel : f.released.Stocked [] := h.stocked.moved (.refl _) rfl
    obtain ⟨hx, -, hid, howner, rfl⟩ := adopt_inv hrel htake
    obtain ⟨s', hs, ht⟩ := enthrone_tracks h hu hx (href.2.trans hid)
      (href.1.trans howner)
    exact ⟨s', hs, ht.of_graph ⟨rfl, rfl, rfl, rfl, rfl, rfl, fun _ => rfl⟩⟩

theorem replaceInParent_tracks (h : s.Tracks [] f) (hu : f.frozen = false) (hd : d.PartOf f.trees)
    (href : ref'.Agrees ref) (hrun : Edit.replaceInParent d.id ref f = .ok u f') :
    ∃ s', Surgery.replaceInParent d.id ref' s = .ok () s' ∧ s'.Tracks [] f' := by
  have hn := h.stocked.trees_nodup
  obtain ⟨e, hparent⟩ : ∃ e, f.parent? d.id = some e := by
    cases hp : f.parent? d.id with
    | some e => exact ⟨e, rfl⟩
    | none =>
      rw [Edit.replaceInParent, Edit.bind_eq Edit.get_eq, hp] at hrun
      cases hrun
  rcases replaceInParent_cases (hd.find? hn) hrun with ⟨p, hp, hrun⟩ | ⟨y, f₁, htake, hrun⟩
  · have hplace := (h.placement h.forest (.inr (hd.mem_ids (id_mem_ids d)))).trans
      (congrArg Except.ok hp)
    rw [Surgery.replaceInParent, Surgery.bind_eq (Surgery.placementOf_eq hplace)]
    exact setBody_tracks h href hrun
  · obtain ⟨hy, hout, hid', howner, rfl⟩ := adopt_inv h.stocked htake
    cases hrun
    obtain ⟨s', hs, ht⟩ := exchange_tracks h hu hd hparent hy hout (href.2.trans hid')
      (href.1.trans howner)
    exact ⟨s', hs, ht.of_graph ⟨rfl, rfl, rfl, rfl, rfl, rfl, fun _ => rfl⟩⟩

theorem replaceCondition_tracks {cond : NodeId} (h : s.Tracks [] f)
    (hk : (Component.fork k cond cs).PartOf f.trees) (hb : (f.nodes.get? ref.id).isSome)
    (href : ref'.Agrees ref) (hrun : Edit.replaceCondition k ref f = .ok u f') :
    ∃ s', Surgery.replaceCondition k ref' s = .ok () s' ∧ s'.Tracks [] f' := by
  have hfind : f.find? k = some (.fork k cond cs) := hk.find? h.stocked.trees_nodup
  rw [Edit.replaceCondition, Edit.bind_eq Edit.get_eq, hfind] at hrun
  obtain ⟨x, f₁, htake, hrun⟩ := Edit.bind_ok hrun
  obtain rfl := (adopt_adopts h.stocked htake).eq_block h.stocked hb
  obtain ⟨hx, hout, hid, howner, rfl⟩ := adopt_inv h.stocked htake
  cases hrun
  obtain ⟨owner, i, kind, label⟩ := ref'
  obtain ⟨rfl, rfl⟩ := href
  obtain ⟨o, ho⟩ := h.part h.forest hk
  have hmem : k = rootId ∨ k ∈ idsAll f.trees := .inr (hk.mem_ids (id_mem_ids _))
  have hcond : f.ChildOf cond k := childOf_of_child h.stocked.trees_nodup hk
      (by simp [children, Component.id])
  have hmem' : cond ∈ (Component.fork k cond cs).ids := by simp [ids]
  have hne : cond ≠ ref.id := by
    rintro rfl
    obtain ⟨t, ht, hw⟩ := hk
    refine hout (h.forest.tree_unique ht (List.mem_cons_of_mem _ hx) (hw.mem_ids hmem')
      (List.mem_singleton_self _) ▸ hw.mem_ids (id_mem_ids _))
  have hxroot := (h.detached _ hx).root
  have hadopt : Surgery.adopt k ⟨ref.owner, ref.id, kind, label⟩ (s.setParent cond none) = .ok ()
      ((s.setParent cond none).setParent ref.id (some k)) := by
    refine adopt_of_clear (x := .block ref.id) ?_ ?_ rfl (howner.trans h.handle.symm)
    · rw [Registry.get?_setParent, hxroot]
      split <;> rfl
    · exact (h.clear_of_apart h.forest hmem (List.mem_cons_of_mem _ hx) hout).setParent
        (h.clear_of_child h.forest hmem hcond) none
  refine ⟨_, Surgery.replaceCondition_eq ho.root hadopt, Registry.Tracks.of_graph
    ((h.swap (g := Edit.setCondition ref.id) (l := []) (c := .block cond) hk hx hout rfl
        Kind.noConfusion Kind.noConfusion
      rfl rfl).of_records (fun j => (s.get?_swapped hne .block _ _ j).1) rfl rfl (by simp))
    ⟨rfl, rfl, rfl, rfl, rfl, rfl, fun _ => rfl⟩⟩

/-! ## Places -/

/-- The registry finds the sequence around a component where the trees have it. -/
theorem sequenceAround_eq (h : s.Tracks [] f) (hi : i ∈ idsAll f.trees) :
    Surgery.sequenceAround i s = .ok (match f.parent? i with
      | some (q, .element n) => some (q, (n : Int))
      | _ => none) s := by
  obtain ⟨d, -, -, hx⟩ := h.record h.forest hi
  rw [Surgery.sequenceAround, Surgery.bind_eq Surgery.get_eq, hx]
  cases hp : f.parent? i with
  | none => rfl
  | some e =>
    obtain ⟨p, role⟩ := e
    simp only [Option.bind_some, Option.map_some]
    rcases plays_of_parent? hp with ⟨c, hc, rfl, hplays⟩ | ⟨rfl, rfl, -⟩
    · obtain ⟨o, ho⟩ := h.part h.forest hc
      rw [ho.parts?]
      cases c with
      | block b => cases role <;> cases hplays
      | seq q es =>
        cases role with
        | element n =>
          have hn : (es.map Component.id).Nodup := by
            have hn := hc.nodup h.stocked.trees_nodup
            rw [ids, List.nodup_cons] at hn
            exact (map_id_sublist es).nodup hn.2
          have hget : (es.map Component.id).idxOf? i = some n :=
            idxOf?_of_getElem? hn (Option.some.inj (congrArg some (at?_parts_of_plays hplays)))
          simp [Component.parts, hget]
          rfl
        | _ => cases hplays
      | fork => cases role <;> first | rfl | cases hplays
      | loop => cases role <;> first | rfl | cases hplays
    · rw [Registry.parts?, h.root]
      rfl

def NameAlike (m : Edit ComponentRef) (m' : Surgery ComponentRef) : Prop :=
  ∀ {f : Func} {s : Registry}, s.Tracks [] f →
    ∃ ref ref', m f = .ok ref f ∧ m' s = .ok ref' s ∧ ref'.Agrees ref

theorem nameAlike_refTo (i : NodeId) :
    NameAlike (Edit.refTo i) (Surgery.refTo i) := fun {f _} h => by
  obtain ⟨ref', hrun, href⟩ := h.refTo_agrees i
  exact ⟨_, ref', refTo_eq _ _, hrun, href⟩

variable {mx my : Edit ComponentRef} {nx ny : Surgery ComponentRef}

theorem appendBoth_tracks (h : s.Tracks [] f) (hq : f.HasSeq q) (hx : NameAlike mx nx)
    (hy : NameAlike my ny) (hrun : (do
      Edit.appendElement q (← mx)
      Edit.appendElement q (← my) : Edit Unit) f = .ok u f') :
    ∃ s', (do
      Surgery.append q (← nx)
      Surgery.append q (← ny) : Surgery Unit) s = .ok () s' ∧ s'.Tracks [] f' := by
  obtain ⟨rx, rx', hmx, hnx, hrx⟩ := hx h
  rw [Edit.bind_eq hmx] at hrun
  obtain ⟨_, f₁, happend, hrun⟩ := Edit.bind_ok hrun
  obtain ⟨s₁, hs₁, h₁⟩ := appendElement_tracks h hq hrx happend
  obtain ⟨ry, ry', hmy, hny, hry⟩ := hy h₁
  rw [Edit.bind_eq hmy] at hrun
  obtain ⟨s₂, hs₂, h₂⟩ := appendElement_tracks h₁
    (appendElement_restocks h.stocked hq happend).2 hry hrun
  exact ⟨s₂, (Surgery.bind_eq hnx).trans ((Surgery.bind_eq hs₁).trans
    ((Surgery.bind_eq hny).trans hs₂)), h₂⟩

/-- A component and another one are put into a new sequence, which takes its place. -/
theorem wrap_tracks (h : s.Tracks [] f) (hd : d.PartOf f.trees) (hx : NameAlike mx nx)
    (hy : NameAlike my ny) (hrun : (do
      let seq ← Edit.newSequence []
      Edit.replaceInParent d.id (← Edit.refTo seq)
      Edit.appendElement seq (← mx)
      Edit.appendElement seq (← my) : Edit Unit) f = .ok u f') :
    ∃ s', (do
      let q ← Surgery.newSequence []
      Surgery.replaceInParent d.id (← Surgery.refTo q)
      Surgery.append q (← nx)
      Surgery.append q (← ny) : Surgery Unit) s = .ok () s' ∧ s'.Tracks [] f' := by
  obtain ⟨q, f₁, hnew, hrun⟩ := Edit.bind_ok hrun
  obtain ⟨hu, -⟩ := Edit.unfrozen_bind_ok hnew
  obtain ⟨s₁, hs₁, h₁⟩ := newSequence_tracks h hnew
  obtain ⟨rfl, rfl⟩ := newSequence_ok hnew
  obtain ⟨r, r', hr, hr', href⟩ := nameAlike_refTo f.nodes.next h₁
  rw [Edit.bind_eq hr] at hrun
  obtain ⟨_, f₂, hput, hrun⟩ := Edit.bind_ok hrun
  obtain ⟨s₂, hs₂, h₂⟩ := replaceInParent_tracks h₁ hu (hd.append_right _) href hput
  have hq : f₂.HasSeq f.nodes.next := by
    rw [refTo_eq] at hr
    cases hr
    exact ⟨[], (replaceInParent_restocks h₁.stocked (hd.append_right _)
      (List.mem_append_right _ List.mem_cons_self) rfl hput).2⟩
  obtain ⟨s₃, hs₃, h₃⟩ := appendBoth_tracks h₂ hq hx hy hrun
  exact ⟨s₃, (Surgery.bind_eq hs₁).trans ((Surgery.bind_eq hr').trans
    ((Surgery.bind_eq hs₂).trans hs₃)), h₃⟩

theorem insertBefore_tracks (h : s.Tracks [] f) (hd : d.PartOf f.trees) (href : ref'.Agrees ref)
    (hrun : Edit.insertBefore d.id ref f = .ok u f') :
    ∃ s', Surgery.insertBefore d.id ref' s = .ok () s' ∧ s'.Tracks [] f' := by
  have hname : NameAlike (pure ref) (pure ref') := fun _ => ⟨ref, ref', rfl, rfl, href⟩
  rw [Surgery.insertBefore, Surgery.bind_eq
    (sequenceAround_eq h (hd.mem_ids (id_mem_ids d)))]
  rw [Edit.insertBefore, Edit.bind_eq Edit.get_eq] at hrun
  rcases hparent : f.parent? d.id with _ | ⟨q, role⟩
  · rw [hparent] at hrun
    exact wrap_tracks h hd hname (nameAlike_refTo d.id) hrun
  · rw [hparent] at hrun
    cases role with
    | element i => exact insertElement_tracks h (hasSeq_of_element hparent) href hrun
    | _ => exact wrap_tracks h hd hname (nameAlike_refTo d.id) hrun

theorem insertAfter_tracks (h : s.Tracks [] f) (hd : d.PartOf f.trees) (href : ref'.Agrees ref)
    (hrun : Edit.insertAfter d.id ref f = .ok u f') :
    ∃ s', Surgery.insertAfter d.id ref' s = .ok () s' ∧ s'.Tracks [] f' := by
  have hname : NameAlike (pure ref) (pure ref') := fun _ => ⟨ref, ref', rfl, rfl, href⟩
  rw [Surgery.insertAfter, Surgery.bind_eq
    (sequenceAround_eq h (hd.mem_ids (id_mem_ids d)))]
  rw [Edit.insertAfter, Edit.bind_eq Edit.get_eq] at hrun
  rcases hparent : f.parent? d.id with _ | ⟨q, role⟩
  · rw [hparent] at hrun
    exact wrap_tracks h hd (nameAlike_refTo d.id) hname hrun
  · rw [hparent] at hrun
    cases role with
    | element i => exact insertElement_tracks h (hasSeq_of_element hparent) href hrun
    | _ => exact wrap_tracks h hd (nameAlike_refTo d.id) hname hrun

/-- The second half of a split block is put where the first half is. -/
theorem placeSecondHalf_tracks {b2 : NodeId} (h : s.Tracks [] f)
    (hb : (f.nodes.get? b).isSome) (hb2 : (f.nodes.get? b2).isSome)
    (hloop : ∀ p, f.parent? b ≠ some (p, .loopCondition))
    (hrun : Edit.placeSecondHalf b b2 f = .ok u f') :
    ∃ s', Surgery.placeSecondHalf b b2 (f.parent? b) s = .ok () s' ∧ s'.Tracks [] f' := by
  rw [Edit.placeSecondHalf, Edit.bind_eq Edit.get_eq] at hrun
  rcases hparent : f.parent? b with _ | ⟨p, role⟩
  · rw [hparent] at hrun
    cases hrun
    exact ⟨s, rfl, h⟩
  have room : role ≠ .condition → role ≠ .after → (do
      let seq ← Edit.newSequence []
      Edit.replaceInParent b (← Edit.refTo seq)
      Edit.appendElement seq (← Edit.refTo b)
      Edit.appendElement seq (← Edit.refTo b2) : Edit Unit) f = .ok u f' → ∃ s', (do
        let q ← Surgery.newSequence []
        Surgery.replaceInParent b (← Surgery.refTo q)
        Surgery.append q (← Surgery.refTo b)
        Surgery.append q (← Surgery.refTo b2) : Surgery Unit) s = .ok () s' ∧
          s'.Tracks [] f' := by
    intro hcond hafter hrun
    obtain ⟨d, hd, rfl⟩ := part_of_parent? hparent hcond
      (fun hr => hloop p (hr ▸ hparent)) hafter
    exact wrap_tracks h hd (nameAlike_refTo d.id) (nameAlike_refTo b2) hrun
  obtain ⟨r₂, r₂', hr₂, hr₂', href₂⟩ := nameAlike_refTo b2 h
  rw [hparent] at hrun
  cases role with
  | element i =>
    obtain ⟨s', hs, ht⟩ := insertElement_tracks h (hasSeq_of_element hparent) href₂
      ((Edit.bind_eq hr₂).symm.trans hrun)
    exact ⟨s', (Surgery.bind_eq hr₂').trans hs, ht⟩
  | condition =>
    rcases plays_of_parent? hparent with ⟨c, hc, rfl, hplays⟩ | ⟨_, hrole, _⟩
    · cases c with
      | fork q cond cs =>
        dsimp only at hrun
        rw [Edit.bind_eq hr₂] at hrun
        obtain ⟨_, f₁, hcond, hrun⟩ := Edit.bind_ok hrun
        have hb₂ : (f.nodes.get? r₂.id).isSome := by
          rw [refTo_eq] at hr₂
          cases hr₂
          exact hb2
        obtain ⟨s₁, hs₁, h₁⟩ := replaceCondition_tracks h hc hb₂ href₂ hcond
        obtain ⟨-, cond', cs', hk⟩ := replaceCondition_restocks h.stocked hc hb₂ hcond
        obtain ⟨r, r', hr, hr', href⟩ := nameAlike_refTo b h₁
        rw [Edit.bind_eq hr] at hrun
        obtain ⟨s₂, hs₂, h₂⟩ := insertBefore_tracks h₁ hk href hrun
        exact ⟨s₂, (Surgery.bind_eq hr₂').trans ((Surgery.bind_eq hs₁).trans
          ((Surgery.bind_eq hr').trans hs₂)), h₂⟩
      | _ => cases hplays
    · cases hrole
  | after =>
    rcases plays_of_parent? hparent with ⟨c, hc, rfl, _⟩ | ⟨_, hrole, _⟩
    · dsimp only at hrun
      rw [Edit.bind_eq hr₂] at hrun
      obtain ⟨s', hs, ht⟩ := insertAfter_tracks h hc href₂ hrun
      exact ⟨s', (Surgery.bind_eq hr₂').trans hs, ht⟩
    · cases hrole
  | _ => exact room (by rintro ⟨⟩) (by rintro ⟨⟩) hrun

theorem prependBlock_tracks {e : NodeId} {label : String} {f₁ f₂ : Func} (h : s.Tracks [] f)
    (hnew : Edit.newBlock label f = .ok e f₁) (hrun : Edit.prependBlock e f₁ = .ok u f₂) :
    ∃ s', Surgery.prependBlock s = .ok () s' ∧ s'.Tracks [] f₂ := by
  obtain ⟨hu, -⟩ := Edit.unfrozen_bind_ok hnew
  obtain ⟨s₁, hs₁, h₁⟩ := newBlock_tracks h hnew
  have hbody : Surgery.bodyOf s₁ = .ok f₁.body.id s₁ := by
    rw [Surgery.bodyOf, Surgery.bind_eq (Surgery.partsOf_eq h₁.root)]
    rfl
  rw [Surgery.prependBlock, Surgery.bind_eq (Surgery.unfrozen_eq (h.frozen.trans hu) _),
    Surgery.bind_eq hs₁, Surgery.bind_eq hbody, Surgery.bind_eq (Surgery.partsOf_eq h₁.body.root)]
  rw [Edit.prependBlock, Edit.bind_eq Edit.get_eq] at hrun
  have room : (do
      let seq ← Edit.newSequence []
      Edit.setBody (← Edit.refTo seq)
      Edit.appendElement seq (← Edit.refTo e)
      Edit.appendElement seq (← Edit.refTo f₁.body.id) : Edit Unit) f₁ = .ok u f₂ → ∃ s', (do
        let q ← Surgery.newSequence []
        Surgery.setBody (← Surgery.refTo q)
        Surgery.append q (← Surgery.refTo e)
        Surgery.append q (← Surgery.refTo f₁.body.id) : Surgery Unit) s₁ = .ok () s' ∧
          s'.Tracks [] f₂ := by
    intro hrun
    obtain ⟨q, f₃, hseq, hrun⟩ := Edit.bind_ok hrun
    obtain ⟨s₃, hs₃, h₃⟩ := newSequence_tracks h₁ hseq
    obtain ⟨rfl, rfl⟩ := newSequence_ok hseq
    obtain ⟨r, r', hr, hr', href⟩ := nameAlike_refTo f₁.nodes.next h₃
    rw [Edit.bind_eq hr] at hrun
    obtain ⟨_, f₄, hput, happend⟩ := Edit.bind_ok hrun
    obtain ⟨s₄, hs₄, h₄⟩ := setBody_tracks h₃ href hput
    rw [refTo_eq] at hr
    cases hr
    have hseq := (setBody_restocks h₃.stocked hput).2 (.seq f₁.nodes.next [])
      (List.mem_append_right _ List.mem_cons_self) rfl
    obtain ⟨s', hs', h'⟩ := appendBoth_tracks h₄ ⟨[], hseq ▸ f₄.body_partOf⟩ (nameAlike_refTo e)
      (nameAlike_refTo f₁.body.id) happend
    exact ⟨s', (Surgery.bind_eq hs₃).trans ((Surgery.bind_eq hr').trans
      ((Surgery.bind_eq hs₄).trans hs')), h'⟩
  cases hold : f₁.body with
  | seq q es =>
    rw [hold] at hrun
    obtain ⟨r, r', hr, hr', href⟩ := nameAlike_refTo e h₁
    obtain ⟨s', hs, ht⟩ := insertElement_tracks h₁ ⟨es, hold ▸ f₁.body_partOf⟩ href
      ((Edit.bind_eq hr).symm.trans hrun)
    exact ⟨s', (Surgery.bind_eq hr').trans hs, ht⟩
  | _ =>
    rw [hold] at hrun room
    exact room hrun

/-- The tree is changed where the block is, and all that follows leaves the trees alone. -/
theorem split_tracks {b2 : NodeId} {position : Int} (h : s.Tracks [] f) (hk : f.WellFormed)
    (hb : (f.nodes.get? ref.id).isSome) (hrun : Edit.split ref position f = .ok b2 f') :
    ∃ s' f₂, Surgery.split ref s = .ok b2 s' ∧ s'.Tracks [] f₂ ∧
      Edit.settleHalves ref.id f.nodes.next (f.blockAt ref.id).timelines f₂ = .ok b2 f' := by
  obtain ⟨hu, hs⟩ := splits_of_ok hrun
  obtain ⟨f₁, hh, -, hstocked, heq⟩ := split_eq hk hu hb hs
  rw [heq] at hrun
  obtain ⟨_, f₂, hplaced, hrun⟩ := Edit.bind_ok hrun
  have h₁ := h.added hh.toAdds hh.handle hh.frozen hstocked
  have hparent := parent?_of_adds hh.toAdds ref.id
  obtain ⟨s', hplace, ht⟩ := placeSecondHalf_tracks h₁ (by rw [hh.stored, hb, Bool.or_true])
    (by rw [hh.stored, decide_eq_true rfl, Bool.true_or]) (fun p hp => hs.parent p (hparent ▸ hp))
    hplaced
  have hplacement := h.placement h.forest (i := ref.id) (.inr (mem_idsAll_of_mem_blocksAll
    ((h.stocked.stored _).mpr hb)))
  have hcond : ((f.parent? ref.id).all fun p => p.2 ≠ .loopCondition) = true := by
    cases hp : f.parent? ref.id with
    | none => rfl
    | some e => exact decide_eq_true fun he => hs.parent e.1 (by rw [hp, ← he])
  refine ⟨s', f₂, ?_, ht, hrun⟩
  rw [Surgery.split, Surgery.bind_eq (Surgery.unfrozen_eq (h.frozen.trans hu) _),
    Surgery.bind_eq Surgery.get_eq, Surgery.bind_eq (Surgery.require_eq (decide_eq_true
      (hs.owner.trans h.handle.symm)) ..), Surgery.bind_eq (Surgery.placementOf_eq hplacement),
    Surgery.bind_eq (Surgery.require_eq (by simpa using hcond) ..),
    Surgery.bind_eq (Surgery.newBlock_eq h.toPictures hu), Surgery.bind_eq (hparent ▸ hplace)]
  obtain ⟨_, _, _, hrun⟩ := Edit.bind_ok hrun
  obtain ⟨_, _, _, hrun⟩ := Edit.bind_ok hrun
  obtain ⟨_, _, _, hrun⟩ := Edit.bind_ok hrun
  obtain ⟨_, _, hret⟩ := Edit.forIn_ok (fun _ _ => True) (fun done t rest g u g' _ _ hstep => by
    obtain ⟨i, g₁, -, hnext⟩ := Edit.bind_ok hstep
    cases hnext
    exact ⟨rfl, trivial⟩) trivial hrun
  cases hret
  rfl

end

end DefFlow.Flow
