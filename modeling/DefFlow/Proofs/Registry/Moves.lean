import DefFlow.Proofs.Edits.Dissolve
import DefFlow.Proofs.Edits.Progress
import DefFlow.Proofs.Registry.Pictures

/-!
# Moving trees in a registry

A tree that was set aside is taken in hand, put among the parts of a structure, or set aside again.
Each move changes the record of one component, so that the registry pictures the trees and the hand
as they are then. What is put into a structure can be adopted by it, since nothing that is above the
structure has been set aside.
-/

set_option autoImplicit false

namespace DefFlow.Flow

open Func Component Relation

namespace Func

def without (f : Func) (x : Component) : Func :=
  { f with detached := f.detached.filter fun d => d.id ≠ x.id }

def changed (f : Func) (t : NodeId) (g : Component → Component) : Func :=
  { f with body := f.body.modify t g, detached := modifyAll t g f.detached }

def aside (f : Func) (x : Component) : Func := { f with detached := f.detached ++ [x] }

end Func

section

variable {s s' : Registry} {f f' : Func} {i p q : NodeId} {o : Option NodeId}
  {c d x : Component} {hand hand' : List Component} {g : Component → Component}

/-! ## The stock -/

namespace Func.Stocked

theorem mem_detached_split (h : f.Stocked hand) (hx : x ∈ f.detached) :
    ∃ l r, f.detached = l ++ x :: r ∧ (f.without x).detached = l ++ r := by
  obtain ⟨l, r, hlr⟩ := List.append_of_mem hx
  have hn := h.trees_nodup
  rw [Func.trees, hlr, idsAll, List.nodup_append] at hn
  exact ⟨l, r, hlr, by rw [Func.without, hlr, filter_middle (id_ne_of_nodup hn.2.1)]⟩

theorem without (h : f.Stocked hand) (hx : x ∈ f.detached) : (f.without x).Stocked (x :: hand) := by
  obtain ⟨l, r, hlr, hlr'⟩ := h.mem_detached_split hx
  refine h.moved (.of_perm ?_) rfl
  rw [Func.trees, Func.trees, hlr, hlr']
  have hp := (@List.perm_middle _ x (hand ++ f.body :: l) r).symm
  simpa [Func.without] using hp

theorem changed (h : f.Stocked hand) (hd : d.PartOf f.trees)
    (hs : Same (g d :: hand') (d :: hand)) : (f.changed d.id g).Stocked hand' :=
  h.moved (hd.same_exchange h.trees_nodup hs) rfl

theorem aside (h : f.Stocked (c :: hand)) : (f.aside c).Stocked hand :=
  aside_stocked [c] h (.refl _) rfl rfl rfl

theorem root_not_mem (h : f.Stocked hand) : rootId ∉ idsAll (hand ++ f.trees) := fun hm =>
  Nat.lt_irrefl _ (h.bounded rootId hm).1

theorem unique (h : f.Stocked hand) (hc : c ∈ hand ++ f.trees) (hd : d ∈ hand ++ f.trees)
    (hi : i ∈ c.ids) (hi' : i ∈ d.ids) : c = d := unique_of_nodup h.nodup hc hd hi hi'

theorem nodup_of_mem (h : f.Stocked hand) (hc : c ∈ hand ++ f.trees) : c.ids.Nodup := by
  obtain ⟨l, r, hl⟩ := List.append_of_mem hc
  have hn := h.nodup
  rw [hl] at hn
  exact middle_nodup hn

end Func.Stocked

theorem Component.PartOf.of_without (hf : f.Stocked hand) (hx : x ∈ f.detached)
    (hd : d.PartOf f.trees) (hout : d.id ∉ x.ids) : d.PartOf (f.without x).trees := by
  obtain ⟨t, ht, hw⟩ := hd
  obtain ⟨l, r, hlr, hlr'⟩ := hf.mem_detached_split hx
  refine ⟨t, ?_, hw⟩
  have hne : t ≠ x := fun he => hout (he ▸ hw.mem_ids (id_mem_ids d))
  rw [Func.trees, hlr] at ht
  rw [Func.trees, hlr']
  simp only [List.mem_cons, List.mem_append] at ht ⊢
  tauto

/-! ## Steps -/

namespace Registry

theorem Shows.holds (h : s.Shows o c) : s.Holds c := ⟨by rw [h.root]; rfl, fun _ => h.child⟩

theorem Holds.congr (h : s.Holds c) (hs : ∀ i ∈ c.ids, s'.nodes.get? i = s.nodes.get? i) :
    s'.Holds c where
  root := by
    rw [hs _ (id_mem_ids c)]
    exact h.root
  child d hd := (h.child d hd).congr fun i hi => hs i (ids_of_child hd hi)

theorem Holds.alter (h : s.Holds c) (hn : c.ids.Nodup) (ha : s.Alters c.id s') : s'.Holds c where
  root := by
    rw [ha.stored]
    exact h.root
  child d hd := (h.child d hd).congr fun i hi => ha.rest i (child_ne hn hd hi)

/-- A tree that is held is shown below the parent that its root names. -/
theorem Holds.shows (h : s.Holds c) (hroot : s.nodes.get? c.id = some ⟨o, c.parts⟩) :
    s.Shows o c := ⟨hroot, h.child⟩

namespace Pictures

theorem of_graph (h : s.Pictures hand f) (hg : f.SameGraph f') : s.Pictures hand f' where
  handle := h.handle.trans hg.handle.symm
  frozen := h.frozen.trans hg.frozen.symm
  size := h.size.trans hg.size.symm
  root := hg.body ▸ h.root
  body := hg.body ▸ h.body
  detached := hg.detached ▸ h.detached
  held := h.held
  only := by
    rw [hg.trees]
    exact h.only

theorem of_records (h : s.Pictures hand f) (hs : ∀ i, s'.nodes.get? i = s.nodes.get? i)
    (hhandle : s'.handle = s.handle) (hfrozen : s'.frozen = s.frozen)
    (hsize : s'.nodes.size = s.nodes.size) : s'.Pictures hand f where
  handle := hhandle.trans h.handle
  frozen := hfrozen.trans h.frozen
  size := hsize.trans h.size
  root := (hs _).trans h.root
  body := h.body.congr fun i _ => hs i
  detached d hd := (h.detached d hd).congr fun i _ => hs i
  held d hd := (h.held d hd).congr fun i _ => hs i
  only i hi := h.only i (hs i ▸ hi)

theorem without (h : s.Pictures hand f) (hf : f.Stocked hand) (hx : x ∈ f.detached) :
    s.Pictures (x :: hand) (f.without x) where
  handle := h.handle
  frozen := h.frozen
  size := h.size
  root := h.root
  body := h.body
  detached d hd := h.detached d (List.mem_filter.mp hd).1
  held := List.forall_mem_cons.mpr ⟨(h.detached x hx).holds, h.held⟩
  only i hi := (h.only i hi).imp_right fun hm => by
    obtain ⟨l, r, hlr, hlr'⟩ := hf.mem_detached_split hx
    rw [Func.trees, hlr] at hm
    rw [Func.trees, hlr']
    simp only [idsAll, idsAll_append, List.mem_append, List.cons_append] at hm ⊢
    tauto

theorem alter (h : s.Pictures hand f) (hf : f.Stocked hand) (hx : x ∈ hand)
    (ha : s.Alters x.id s') : s'.Pictures hand f := by
  have hx' : x ∈ hand ++ f.trees := List.mem_append_left _ hx
  have hrest : ∀ {d : Component}, d ∈ f.trees → ∀ i ∈ d.ids, s'.nodes.get? i = s.nodes.get? i := by
    intro d hd i hi
    refine ha.rest i ?_
    rintro rfl
    have hn := hf.nodup
    rw [idsAll_append, List.nodup_append] at hn
    exact hn.2.2 _ (mem_idsAll_of_mem hx) _ (mem_idsAll.mpr ⟨d, hd, hi⟩) rfl
  exact {
    handle := ha.handle.trans h.handle
    frozen := ha.frozen.trans h.frozen
    size := ha.size.trans h.size
    root := by
      rw [ha.rest rootId, h.root]
      rintro he
      exact hf.root_not_mem (he ▸ mem_idsAll_of_mem hx')
    body := h.body.congr (hrest List.mem_cons_self)
    detached := fun d hd => (h.detached d hd).congr (hrest (List.mem_cons_of_mem _ hd))
    held := fun d hd => by
      have hd' : d ∈ hand ++ f.trees := List.mem_append_left _ hd
      by_cases hdx : x.id ∈ d.ids
      · rw [hf.unique hd' hx' hdx (id_mem_ids x)] at hd ⊢
        exact (h.held x hd).alter (hf.nodup_of_mem hx') ha
      · exact (h.held d hd).congr fun i hi => ha.rest i (ne_of_mem_of_not_mem hi hdx)
    only := fun i hi => h.only i (by
      by_cases hix : i = x.id
      · rw [hix] at hi ⊢
        rwa [ha.stored] at hi
      · rwa [ha.rest i hix] at hi) }

/-- A part of a tree takes parts from the hand, and leaves others there. -/
theorem changed (h : s.Pictures hand f) (hf : f.Stocked hand) (hd : d.PartOf f.trees)
    (hid : (g d).id = d.id) (hs : Same (g d :: hand') (d :: hand))
    (hparts : ∀ x ∈ (g d).children, x ∈ d.children ∨
      (x ∈ hand ∧ s.nodes.get? x.id = some ⟨some d.id, x.parts⟩))
    (hhand : ∀ x ∈ hand', x ∈ hand ∨ x ∈ d.children) :
    (s.setParts d.id (g d).parts).Pictures hand' (f.changed d.id g) := by
  obtain ⟨t, ht, hw⟩ := hd
  have ha := s.alters_setParts d.id (g d).parts
  have hnt := hf.nodup_of_mem (List.mem_append_right hand ht)
  have hdt : d.id ∈ t.ids := hw.mem_ids (id_mem_ids d)
  have hrest : ∀ {e : Component} {i : NodeId}, e ∈ hand ++ f.trees → e ≠ t → i ∈ e.ids →
      (s.setParts d.id (g d).parts).nodes.get? i = s.nodes.get? i := by
    intro e i he hne hi
    refine ha.rest i ?_
    rintro rfl
    exact hne (hf.unique he (List.mem_append_right _ ht) hi hdt)
  have hhand' : ∀ {e : Component}, e ∈ hand → e ≠ t := by
    rintro e he rfl
    have hn := hf.nodup
    rw [idsAll_append, List.nodup_append] at hn
    exact hn.2.2 _ (mem_idsAll_of_mem he) _ (mem_idsAll_of_mem ht) rfl
  have hchild : ∀ {q : Option NodeId}, s.Shows q d → ∀ e ∈ d.children,
      (s.setParts d.id (g d).parts).Shows (some d.id) e := fun hq e he =>
    (hq.child he).congr fun i hi => ha.rest i (child_ne (hw.nodup hnt) he hi)
  have hput : ∀ {q : Option NodeId}, s.Shows q d →
      (s.setParts d.id (g d).parts).Shows q (g d) := by
    refine fun {q} hq => ⟨by simp [hid, hq.root], fun e he => ?_⟩
    rw [hid]
    rcases hparts e he with he | ⟨he, hroot⟩
    · exact hchild hq e he
    · have he' (i : NodeId) (hi : i ∈ e.ids) := hrest (List.mem_append_left _ he) (hhand' he) hi
      exact ((h.held e he).congr he').shows ((he' _ (id_mem_ids e)).trans hroot)
  have htree : ∀ {e : Component} {o : Option NodeId}, e ∈ f.trees → s.Shows o e →
      (s.setParts d.id (g d).parts).Shows o (e.modify d.id g) := by
    intro e o he heo
    by_cases hne : e = t
    · subst hne
      exact heo.modify hw hnt hid hput fun i _ hi => ha.rest i fun hid => hi (hid ▸ id_mem_ids d)
    · rw [modify_of_not_mem e fun hm =>
        hne (hf.unique (List.mem_append_right _ he) (List.mem_append_right _ ht) hm hdt)]
      exact heo.congr fun i hi => hrest (List.mem_append_right _ he) hne hi
  exact {
    handle := h.handle
    frozen := h.frozen
    size := ha.size.trans h.size
    root := by
      rw [ha.rest rootId fun he => hf.root_not_mem (he ▸ mem_idsAll.mpr
        ⟨t, List.mem_append_right _ ht, hdt⟩), h.root, Func.changed, id_modify]
      intro he
      rw [(PartOf.unique ⟨t, ht, hw⟩ f.body_partOf hf.trees_nodup he.symm)] at hid
      exact hid
    body := htree List.mem_cons_self h.body
    detached := fun e he => by
      obtain ⟨e, hmem, rfl⟩ := DefFlow.Flow.mem_modifyAll.mp he
      exact htree (List.mem_cons_of_mem _ hmem) (h.detached e hmem)
    held := fun e he => by
      rcases hhand e he with he | he
      · exact (h.held e he).congr fun i hi => hrest (List.mem_append_left _ he) (hhand' he) hi
      · rcases List.mem_cons.mp ht with rfl | ht
        · obtain ⟨q, hq⟩ := h.body.within hw
          exact (hchild hq e he).holds
        · obtain ⟨q, hq⟩ := (h.detached t ht).within hw
          exact (hchild hq e he).holds
    only := fun i hi => by
      have hsame : Same (hand' ++ (f.changed d.id g).trees) (hand ++ f.trees) :=
        PartOf.same_exchange ⟨t, ht, hw⟩ hf.trees_nodup hs
      rw [hsame.ids.mem_iff]
      refine h.only i ?_
      simpa using hi }

theorem aside (h : s.Pictures hand f) (hroot : s.nodes.get? c.id = some ⟨none, c.parts⟩)
    (hparts : ∀ x ∈ c.children, s.Shows (some c.id) x) (hhand : ∀ x ∈ hand', s.Holds x)
    (hids : ∀ i ∈ idsAll hand, i ∈ c.ids ∨ i ∈ idsAll hand') : s.Pictures hand' (f.aside c) where
  handle := h.handle
  frozen := h.frozen
  size := h.size
  root := h.root
  body := h.body
  detached d hd := by
    rcases List.mem_append.mp hd with hd | hd
    · exact h.detached d hd
    · rw [List.mem_singleton.mp hd]
      exact ⟨hroot, hparts⟩
  held := hhand
  only i hi := (h.only i hi).imp_right fun hm => by
    have hm' : i ∈ idsAll hand ∨ i ∈ idsAll f.trees := by
      rwa [idsAll_append, List.mem_append] at hm
    simp only [Func.trees, Func.aside, idsAll, idsAll_append, List.mem_append, List.append_nil]
      at hm' ⊢
    rcases hm' with hm | hm
    · exact (hids i hm).elim (fun hc => .inr (.inr (.inr hc))) .inl
    · tauto

theorem register (h : s.Pictures hand f) (hid : c.id = f.nodes.next) (hc : c.children = [])
    (parts : Listing) {nodes : Arena Block} (hsize : nodes.size = f.nodes.size + 1) :
    Pictures { s with nodes := s.nodes.push ⟨none, parts⟩ } (c :: hand)
      { f with nodes := nodes } := by
  have hnext : s.nodes.next = c.id := by rw [hid, Arena.next_eq, Arena.next_eq, h.size]
  have hrest : ∀ {i : NodeId}, (s.nodes.get? i).isSome →
      (s.nodes.push ⟨none, parts⟩).get? i = s.nodes.get? i := by
    intro i hi
    rw [Arena.get?_push, if_neg]
    rintro rfl
    rw [Arena.get?_next] at hi
    cases hi
  exact {
    handle := h.handle
    frozen := h.frozen
    size := by rw [hsize, Arena.size_push, h.size]
    root := (hrest (by rw [h.root]; rfl)).trans h.root
    body := h.body.congr fun i hi => hrest (h.body.stored hi)
    detached := fun d hd => (h.detached d hd).congr fun i hi => hrest ((h.detached d hd).stored hi)
    held := by
      refine List.forall_mem_cons.mpr ⟨⟨?_, fun d hd => ?_⟩, fun d hd => ⟨?_, fun e he => ?_⟩⟩
      · rw [Arena.get?_push, if_pos hnext.symm]
        rfl
      · rw [hc] at hd
        cases hd
      · rw [hrest (h.held d hd).root]
        exact (h.held d hd).root
      · have hshow := (h.held d hd).child e he
        exact hshow.congr fun i hi => hrest (hshow.stored hi)
    only := fun i hi => by
      rw [Arena.get?_push] at hi
      split at hi
      · next he =>
        rw [he, hnext]
        exact .inr (List.mem_append_left _ (id_mem_ids c))
      · exact (h.only i hi).imp_right fun hm => List.mem_append_right _ hm }

theorem release (h : s.Pictures (c :: hand) f) (hf : f.Stocked (c :: hand))
    (hc : c.children = []) : Pictures { s with nodes := s.nodes.release c.id } hand f := by
  have hids : c.ids = [c.id] := by rw [ids_eq_cons, hc, idsAll]
  have hn := hf.nodup
  rw [List.cons_append, idsAll, hids, List.singleton_append, List.nodup_cons] at hn
  have hrest : ∀ {d : Component}, d ∈ hand ++ f.trees → ∀ i ∈ d.ids,
      (s.nodes.release c.id).get? i = s.nodes.get? i := by
    intro d hd i hi
    rw [Arena.get?_release, if_neg]
    rintro rfl
    exact hn.1 (mem_idsAll.mpr ⟨d, hd, hi⟩)
  exact {
    handle := h.handle
    frozen := h.frozen
    size := by rw [Arena.size_release, h.size]
    root := by
      rw [Arena.get?_release, if_neg, h.root]
      exact fun he => hf.root_not_mem (he ▸ mem_idsAll_of_mem (List.mem_cons_self))
    body := h.body.congr (hrest (List.mem_append_right _ List.mem_cons_self))
    detached := fun d hd =>
      (h.detached d hd).congr (hrest (List.mem_append_right _ (List.mem_cons_of_mem _ hd)))
    held := fun d hd =>
      (h.held d (List.mem_cons_of_mem _ hd)).congr (hrest (List.mem_append_left _ hd))
    only := fun i hi => by
      rw [Arena.get?_release] at hi
      split at hi
      · cases hi
      · next hne =>
        refine (h.only i hi).imp_right fun hm => ?_
        rw [List.cons_append, idsAll, hids, List.singleton_append, List.mem_cons] at hm
        exact hm.resolve_left hne }

/-! ## Adopting -/

/-- Where nothing on the way up from `p` is `i`, the way is clear. -/
theorem clear (h : s.Pictures hand f) (hf : f.Forest) (hp : p = rootId ∨ p ∈ idsAll f.trees)
    (hi : ¬ ReflTransGen f.ChildOf p i) : s.Clear p i := by
  obtain ⟨way, hway, hall⟩ := ancestors_of_rank (s := s) (r := Forest.rank f)
    (A := fun j => (j = rootId ∨ j ∈ idsAll f.trees) ∧ ReflTransGen f.ChildOf p j)
    (fun {j q parts} ⟨hj, hway⟩ hx => by
      obtain ⟨⟨_, role⟩, hparent, rfl⟩ :=
        Option.map_eq_some_iff.mp (h.parent_eq hf hj hx).symm
      have hstep : f.ChildOf j _ := ⟨role, hparent⟩
      exact ⟨hf.rank_lt hstep, List.mem_cons.mp ((before_of_childOf hstep).subset
        List.mem_cons_self), hway.tail hstep⟩)
    (Nat.lt_succ_of_le (h.size ▸ hf.rank_le p)) ⟨hp, .refl⟩
  exact ⟨way, hway, fun hm => hi (hall i hm).2⟩

theorem clear_of_apart (h : s.Pictures hand f) (hf : f.Forest)
    (hp : p = rootId ∨ p ∈ idsAll f.trees) (hx : x ∈ f.trees) (hout : p ∉ x.ids) :
    s.Clear p x.id :=
  h.clear hf hp fun hway => hout (hf.mem_of_above hx hway (id_mem_ids x))

theorem clear_of_child (h : s.Pictures hand f) (hf : f.Forest)
    (hp : p = rootId ∨ p ∈ idsAll f.trees) (hi : f.ChildOf i p) : s.Clear p i :=
  h.clear hf hp fun hway => Nat.lt_irrefl _ ((hf.rank_lt hi).trans_le (hf.rank_le_of_above hway))

end Pictures

/-- The registry pictures a function that has every component once. -/
structure Tracks (s : Registry) (hand : List Component) (f : Func) : Prop
    extends s.Pictures hand f where
  stocked : f.Stocked hand
  bodyHeld : f.bodyHeld = true

namespace Tracks

theorem forest (h : s.Tracks hand f) : f.Forest := h.stocked.forest h.bodyHeld

/-- A tree that was set aside is taken in hand and gets a parent. -/
theorem taken (h : s.Tracks hand f) (hx : x ∈ f.detached) (p : NodeId) :
    (s.setParent x.id (some p)).Tracks (x :: hand) (f.without x) :=
  ⟨(h.toPictures.without h.stocked hx).alter (h.stocked.without hx) List.mem_cons_self
    (s.alters_setParent x.id (some p)), h.stocked.without hx, h.bodyHeld⟩

theorem adopt_eq (h : s.Tracks hand f) {ref : ComponentRef} (hx : x ∈ f.detached)
    (hid : ref.id = x.id) (howner : ref.owner = f.handle) (hclear : s.Clear p x.id) :
    Surgery.adopt p ref s = .ok () (s.setParent x.id (some p)) := by
  rw [← hid] at hclear ⊢
  refine Surgery.adopt_eq (howner.trans h.handle.symm) (hid ▸ (h.detached x hx).root) ?_ hclear
  rw [kind_parts]
  cases x <;> exact Kind.noConfusion

theorem orphan (h : s.Tracks (x :: hand) f) (hroot : s.nodes.get? x.id = some ⟨o, x.parts⟩) :
    (s.setParent x.id none).Tracks hand (f.aside x) := by
  have h₁ := h.toPictures.alter h.stocked List.mem_cons_self (s.alters_setParent x.id none)
  refine ⟨h₁.aside (by simp [hroot]) (h₁.held x List.mem_cons_self).child
    (fun d hd => h₁.held d (List.mem_cons_of_mem _ hd)) fun i hi => ?_, h.stocked.aside, h.bodyHeld⟩
  rwa [idsAll, List.mem_append] at hi

theorem changed (h : s.Tracks hand f) (hd : d.PartOf f.trees) (hid : (g d).id = d.id)
    (hs : Same (g d :: hand') (d :: hand))
    (hparts : ∀ x ∈ (g d).children, x ∈ d.children ∨
      (x ∈ hand ∧ s.nodes.get? x.id = some ⟨some d.id, x.parts⟩))
    (hhand : ∀ x ∈ hand', x ∈ hand ∨ x ∈ d.children) :
    (s.setParts d.id (g d).parts).Tracks hand' (f.changed d.id g) :=
  ⟨h.toPictures.changed h.stocked hd hid hs hparts hhand, h.stocked.changed hd hs, h.bodyHeld⟩

variable {l r : List Component}

theorem attach (h : s.Tracks hand f) (hd : d.PartOf f.trees) (hx : x ∈ f.detached)
    (hout : d.id ∉ x.ids) (hid : (g d).id = d.id) (hk : d.kind ≠ .block)
    (hk' : (g d).kind ≠ .block) (hold : d.children = l ++ r) (hnew : (g d).children = l ++ x :: r) :
    ((s.setParent x.id (some d.id)).setParts d.id (g d).parts).Tracks hand
      ((f.without x).changed d.id g) := by
  refine (h.taken hx d.id).changed (hd.of_without h.stocked hx hout) hid ?_ (fun e he => ?_)
    fun e he => .inl (List.mem_cons_of_mem _ he)
  · refine same_of_children hid hk' hk (.of_perm ?_)
    rw [hold, hnew, List.append_assoc, List.append_assoc]
    exact List.perm_middle.symm.append_left l
  · rw [hnew, List.mem_append, List.mem_cons] at he
    rw [hold, List.mem_append]
    rcases he with he | rfl | he
    · exact .inl (.inl he)
    · exact .inr ⟨List.mem_cons_self, by simp [(h.detached e hx).root]⟩
    · exact .inl (.inr he)

theorem root_of_child (h : s.Tracks hand f) (hd : d.PartOf f.trees) (hx : x ∈ d.children) :
    s.nodes.get? x.id = some ⟨some d.id, x.parts⟩ ∧ x.id ≠ d.id := by
  obtain ⟨o, ho⟩ := h.part h.forest hd
  exact ⟨(ho.child hx).root, child_ne (hd.nodup h.stocked.trees_nodup) hx (id_mem_ids x)⟩

theorem detach (h : s.Tracks hand f) (hd : d.PartOf f.trees) (hid : (g d).id = d.id)
    (hk : d.kind ≠ .block) (hk' : (g d).kind ≠ .block) (hold : d.children = l ++ x :: r)
    (hnew : (g d).children = l ++ r) :
    ((s.setParts d.id (g d).parts).setParent x.id none).Tracks hand
      ((f.changed d.id g).aside x) := by
  have hx : x ∈ d.children := by simp [hold]
  obtain ⟨hroot, hne⟩ := h.root_of_child hd hx
  refine Registry.Tracks.orphan (x := x) (o := some d.id)
    (h.changed hd hid ?_ (fun e he => ?_) fun e he => ?_) (by simp [hroot, hne.symm])
  · refine same_of_children hid hk' hk (.of_perm ?_)
    rw [hold, hnew, List.append_assoc, List.append_assoc]
    exact List.perm_middle.append_left l
  · rw [hnew] at he
    rw [hold]
    exact .inl ((List.sublist_cons_self x r).append_left l |>.subset he)
  · rcases List.mem_cons.mp he with rfl | he
    · exact .inr hx
    · exact .inl he

theorem swap (h : s.Tracks hand f) (hd : d.PartOf f.trees) (hx : x ∈ f.detached)
    (hout : d.id ∉ x.ids) (hid : (g d).id = d.id) (hk : d.kind ≠ .block)
    (hk' : (g d).kind ≠ .block) (hold : d.children = l ++ c :: r)
    (hnew : (g d).children = l ++ x :: r) :
    (((s.setParent x.id (some d.id)).setParts d.id (g d).parts).setParent c.id none).Tracks hand
      (((f.without x).changed d.id g).aside c) := by
  have hc : c ∈ d.children := by simp [hold]
  obtain ⟨hroot, hne⟩ := h.root_of_child hd hc
  have hxc : x.id ≠ c.id := by
    intro he
    obtain ⟨t, ht, hw⟩ := hd
    have hm := hw.mem_ids (ids_of_child hc (he ▸ id_mem_ids c))
    refine hout (h.forest.tree_unique ht (List.mem_cons_of_mem _ hx) hm (id_mem_ids x) ▸ ?_)
    exact hw.mem_ids (id_mem_ids d)
  refine Registry.Tracks.orphan (x := c) (o := some d.id) ((h.taken hx d.id).changed
    (hd.of_without h.stocked hx hout) hid ?_ (fun e he => ?_) fun e he => ?_)
      (by simp [hroot, hne.symm, hxc])
  · refine same_of_children hid hk' hk (.of_perm ?_)
    rw [hold, hnew, List.append_assoc, List.append_assoc]
    refine List.Perm.append_left l ?_
    exact (List.perm_middle.cons x).trans ((List.Perm.swap c x _).trans
      (List.perm_middle.symm.cons c))
  · rw [hnew, List.mem_append, List.mem_cons] at he
    rw [hold, List.mem_append, List.mem_cons]
    rcases he with he | rfl | he
    · exact .inl (.inl he)
    · exact .inr ⟨List.mem_cons_self, by simp [(h.detached e hx).root]⟩
    · exact .inl (.inr (.inr he))
  · rcases List.mem_cons.mp he with rfl | he
    · exact .inr hc
    · exact .inl (List.mem_cons_of_mem _ he)

end Tracks

end Registry

/-! ## Structures -/

section

variable {cs l r : List Component} {cond : NodeId} {ref : ComponentRef}

theorem insert_tracks (h : s.Tracks hand f) (hu : f.frozen = false)
    (hq : (Component.seq q (l ++ r)).PartOf f.trees) (hx : x ∈ f.detached) (hout : q ∉ x.ids)
    (hid : ref.id = x.id) (howner : ref.owner = f.handle) :
    ∃ s', Surgery.insert q l.length ref s = .ok () s' ∧ s'.Tracks hand
        ((f.without x).changed q (Edit.setElements (l ++ x :: r))) ∧
      ∀ i ∈ idsAll hand, s'.nodes.get? i = s.nodes.get? i := by
  obtain ⟨o, ho⟩ := h.part h.forest hq
  have hroot : s.nodes.get? q = some ⟨o, .seq (l.map Component.id ++ r.map Component.id)⟩ :=
    List.map_append ▸ ho.root
  have hadopt := h.adopt_eq (p := q) hx hid howner (h.clear_of_apart h.forest
    (.inr (hq.mem_ids (id_mem_ids _))) (List.mem_cons_of_mem _ hx) hout)
  have hne : ref.id ≠ q := fun he => hout (he ▸ hid ▸ id_mem_ids x)
  have hrun := Surgery.insert_eq (h.frozen.trans hu) hroot (hid ▸ hadopt) hne
  rw [List.length_map, hid, ← List.map_cons, ← List.map_append] at hrun
  refine ⟨_, hrun, h.attach (g := Edit.setElements (l ++ x :: r)) hq hx hout rfl Kind.noConfusion
      Kind.noConfusion rfl rfl,
    fun i hi => ?_⟩
  have hapart := h.stocked.nodup
  rw [idsAll_append, List.nodup_append] at hapart
  have hqi : q ≠ i := (hapart.2.2 i hi q (hq.mem_ids (id_mem_ids _))).symm
  have hxi : x.id ≠ i := (hapart.2.2 i hi x.id (mem_idsAll_of_mem (List.mem_cons_of_mem _ hx))).symm
  simp [hqi, hxi]

theorem remove_tracks (h : s.Tracks hand f) (hu : f.frozen = false)
    (hq : (Component.seq q (l ++ x :: r)).PartOf f.trees) :
    ∃ s', Surgery.remove q l.length s = .ok x.id s' ∧ s'.Tracks hand
      ((f.changed q (Edit.setElements (l ++ r))).aside x) := by
  obtain ⟨o, ho⟩ := h.part h.forest hq
  have hroot : s.nodes.get? q =
      some ⟨o, .seq (l.map Component.id ++ x.id :: r.map Component.id)⟩ := by
    rw [← List.map_cons, ← List.map_append]
    exact ho.root
  have hrun := Surgery.remove_eq (h.frozen.trans hu) hroot
  rw [List.length_map, ← List.map_append] at hrun
  exact ⟨_, hrun,
      h.detach (g := Edit.setElements (l ++ r)) hq rfl Kind.noConfusion Kind.noConfusion rfl rfl⟩

theorem adoptCase_tracks (h : s.Tracks hand f) (hu : f.frozen = false)
    (hk : (Component.fork q cond cs).PartOf f.trees) (hx : x ∈ f.detached) (hout : q ∉ x.ids)
    (hid : ref.id = x.id) (howner : ref.owner = f.handle) :
    ∃ s', Surgery.addCase q ref s = .ok () s' ∧ s'.Tracks hand
      ((f.without x).changed q (Edit.setCases (cs ++ [x]))) := by
  obtain ⟨o, ho⟩ := h.part h.forest hk
  have hadopt := h.adopt_eq (p := q) hx hid howner (h.clear_of_apart h.forest
    (.inr (hk.mem_ids (id_mem_ids _))) (List.mem_cons_of_mem _ hx) hout)
  have hne : ref.id ≠ q := fun he => hout (he ▸ hid ▸ id_mem_ids x)
  have hrun := Surgery.addCase_eq (h.frozen.trans hu) ho.root (hid ▸ hadopt) hne
  rw [hid, ← List.map_singleton, ← List.map_append] at hrun
  exact ⟨_, hrun, h.attach (g := Edit.setCases (cs ++ [x])) (l := .block cond :: cs) (r := []) hk
    hx hout rfl Kind.noConfusion Kind.noConfusion (List.append_nil _).symm rfl⟩

theorem orphanCase_tracks (h : s.Tracks hand f) (hu : f.frozen = false)
    (hk : (Component.fork q cond (l ++ x :: r)).PartOf f.trees) :
    ∃ s', Surgery.removeCase q l.length s = .ok x.id s' ∧ s'.Tracks hand
      ((f.changed q (Edit.setCases (l ++ r))).aside x) := by
  obtain ⟨o, ho⟩ := h.part h.forest hk
  have hroot : s.nodes.get? q =
      some ⟨o, .fork (some cond) (l.map Component.id ++ x.id :: r.map Component.id)⟩ := by
    rw [← List.map_cons, ← List.map_append]
    exact ho.root
  have hrun := Surgery.removeCase_eq (h.frozen.trans hu) hroot
  rw [List.length_map, ← List.map_append] at hrun
  exact ⟨_, hrun,
      h.detach (g := Edit.setCases (l ++ r)) (l := .block cond :: l) hk rfl Kind.noConfusion
    Kind.noConfusion rfl rfl⟩

end

end

end DefFlow.Flow
