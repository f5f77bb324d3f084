import DefFlow.Proofs.Registry.Replay

/-!
# Places in the trees

A place is what is around a part of the trees. What stands there can be exchanged for any other
component, and the trees around it stay; the moves of a registry are stated for what stands in a
place, whatever it is.
-/

set_option autoImplicit false

namespace DefFlow.Flow

open Func Component

/-! ## Places -/

/-- A place in the trees, with any component in it, and whether it has a parent. -/
structure Func.Place (K : Component → Func) (held : Bool) : Prop where
  part : ∀ c : Component, c.PartOf (K c).trees
  put : ∀ {c : Component} (g : Component → Component), (idsAll (K c).trees).Nodup →
      (K c).changed c.id g = K (g c)
  hasParent : ∀ {c : Component}, (idsAll (K c).trees).Nodup → (K c).bodyHeld = true →
    (K c).hasParent c.id = held
  rest : ∀ c d : Component, K c = { K d with body := (K c).body, detached := (K c).detached }

section

variable {f : Func} {i q : NodeId} {c d x : Component} {l r : List Component} {K : Component → Func}
  {held : Bool} {g : Component → Component}

theorem Func.hasParent_of_childOf {p : NodeId} (h : f.ChildOf i p) : f.hasParent i = true := by
  obtain ⟨role, h⟩ := h
  rw [hasParent, h]
  rfl

namespace Func.Place

theorem child {H : Component → Component} (h : Place K held) (hH : ∀ e, Within e (H e))
    (hchild : ∀ e, e ∈ (H e).children) (hmod : ∀ {e} (g : Component → Component), (H e).ids.Nodup →
        (H e).modify e.id g = H (g e)) :
    Place (fun e => K (H e)) true where
  part e := (h.part _).trans (hH e)
  put {e} g hn := by
    have hi : e.id ∈ (H e).ids := (hH e).mem_ids (id_mem_ids e)
    rw [Func.changed_inside hn (h.part _) hi, h.put _ hn, hmod g ((h.part _).nodup hn)]
  hasParent {e} hn _ := hasParent_of_childOf
    (childOf_of_child hn (h.part (H e)) (List.mem_map_of_mem (hchild e)))
  rest e e' := h.rest (H e) (H e')

theorem frozen (h : Place K held) (c d : Component) : (K c).frozen = (K d).frozen := by
  rw [h.rest c d]

theorem nodes (h : Place K held) (c d : Component) : (K c).nodes = (K d).nodes := by
  rw [h.rest c d]

theorem element (h : Place K held) (q : NodeId) (l r : List Component) :
    Place (fun e => K (.seq q (l ++ e :: r))) true :=
  h.child (fun _ => .element .here) (fun _ => by simp [children])
    fun {e} g hn => by rw [modify_element hn fun _ => id_mem_ids e, modify_self]

theorem case (h : Place K held) (k cond : NodeId) (l r : List Component) :
    Place (fun e => K (.fork k cond (l ++ e :: r))) true :=
  h.child (fun _ => .case .here) (fun _ => by simp [children])
    fun {e} g hn => by rw [modify_case hn fun _ => id_mem_ids e, modify_self]

theorem start (h : Place K held) (k cond after : NodeId) (body update : Component) :
    Place (fun e => K (.loop k e cond body update after)) true :=
  h.child (fun _ => .start .here) (fun _ => by simp [children])
    fun {e} g hn => by rw [modify_start hn fun _ => id_mem_ids e, modify_self]

theorem body (h : Place K held) (k cond after : NodeId) (start update : Component) :
    Place (fun e => K (.loop k start cond e update after)) true :=
  h.child (fun _ => .body .here) (fun _ => by simp [children])
    fun {e} g hn => by rw [modify_body hn fun _ => id_mem_ids e, modify_self]

theorem update (h : Place K held) (k cond after : NodeId) (start body : Component) :
    Place (fun e => K (.loop k start cond body e after)) true :=
  h.child (fun _ => .update .here) (fun _ => by simp [children])
    fun {e} g hn => by rw [modify_update hn fun _ => id_mem_ids e, modify_self]

end Func.Place

theorem Func.place_of_tree (hx : x ∈ f.trees) : ∃ K held, Place K held ∧ K x = f := by
  rcases List.mem_cons.mp hx with rfl | hx
  · refine ⟨fun c => { f with body := c }, true, ⟨fun c => ⟨c, List.mem_cons_self, .here⟩,
      fun {c} g hn => ?_, fun hn hheld => ?_, fun _ _ => rfl⟩, rfl⟩
    · rw [Func.trees, idsAll, List.nodup_append] at hn
      have hout : c.id ∉ idsAll f.detached := fun hm => hn.2.2 _ (id_mem_ids c) _ hm rfl
      rw [Func.changed, modify_self, modifyAll_of_not_mem _ hout]
    · rw [Func.hasParent, parent_of_body hn hheld]
      rfl
  · obtain ⟨l, r, hlr⟩ := List.append_of_mem hx
    refine ⟨fun c => { f with detached := l ++ c :: r }, false, ⟨fun c => ⟨c,
      List.mem_cons_of_mem _ (List.mem_append_right _ List.mem_cons_self), .here⟩,
      fun {c} g hn => ?_, fun {c} hn _ => ?_, fun _ _ => rfl⟩, by
        dsimp only
        rw [← hlr]⟩
    · rw [Func.trees, idsAll, List.nodup_append] at hn
      have hm : c.id ∈ idsAll (l ++ c :: r) :=
        mem_idsAll_of_mem (List.mem_append_right _ List.mem_cons_self)
      have hout : c.id ∉ f.body.ids := fun hb => hn.2.2 _ hb _ hm rfl
      rw [Func.changed, modify_of_not_mem _ hout, modifyAll_middle hn.2.1 (id_mem_ids c),
        modify_self]
    · have hc : c ∈ l ++ c :: r := List.mem_append_right _ List.mem_cons_self
      have hroot := isBody_of_mem_detached hn hc
      rw [Func.hasParent, Func.parent?, path_of_mem_tree hn (List.mem_cons_of_mem _ hc)
        (id_mem_ids c), pathIn_self]
      dsimp only [Option.getD_some]
      rw [hroot]
      rfl

theorem Func.place_of_within (h : Within d x) (hx : ∃ K held, Place K held ∧ K x = f) :
    ∃ K held, Place K held ∧ K d = f := by
  induction h with
  | here => exact hx
  | element _ ih =>
    obtain ⟨K, held, hK, rfl⟩ := hx
    exact ih ⟨_, _, hK.element _ _ _, rfl⟩
  | case _ ih =>
    obtain ⟨K, held, hK, rfl⟩ := hx
    exact ih ⟨_, _, hK.case _ _ _ _, rfl⟩
  | start _ ih =>
    obtain ⟨K, held, hK, rfl⟩ := hx
    exact ih ⟨_, _, hK.start _ _ _ _ _, rfl⟩
  | body _ ih =>
    obtain ⟨K, held, hK, rfl⟩ := hx
    exact ih ⟨_, _, hK.body _ _ _ _ _, rfl⟩
  | update _ ih =>
    obtain ⟨K, held, hK, rfl⟩ := hx
    exact ih ⟨_, _, hK.update _ _ _ _ _, rfl⟩

theorem Component.PartOf.place (h : d.PartOf f.trees) : ∃ K held, Place K held ∧ K d = f := by
  obtain ⟨x, hx, hw⟩ := h
  exact place_of_within hw (place_of_tree hx)

end

section

variable {f : Func} {i m n : NodeId} {c x : Component} {K : Component → Func} {held : Bool}

/-! ## Numbers and trees beside a place -/

def Func.upTo (f : Func) (next : NodeId) : Func :=
  { f with nodes := Arena.skip^[next - f.nodes.next] f.nodes }

theorem Arena.size_skips {α : Type} (a : Arena α) (n : Nat) : (skip^[n] a).size = a.size + n := by
  induction n with
  | zero => rfl
  | succ n ih => rw [Function.iterate_succ_apply', size_skip, ih, Nat.add_assoc]

theorem registered_eq_upTo (f : Func) (n : NodeId) :
    f.registered (n - f.nodes.next) = f.upTo n := by
  rw [upTo]
  induction n - f.nodes.next with
  | zero => rfl
  | succ n ih => rw [registered, ih, Function.iterate_succ_apply']

theorem upTo_next (f : Func) : f.upTo f.nodes.next = f := by
  rw [upTo, Nat.sub_self]
  rfl

theorem next_upTo (h : f.nodes.next ≤ n) : (f.upTo n).nodes.next = n := by
  rw [upTo, Arena.next_eq, Arena.size_skips, Nat.add_right_comm, ← Arena.next_eq,
    Nat.add_sub_cancel' h]

theorem upTo_upTo (h : f.nodes.next ≤ m) (hm : m ≤ n) : (f.upTo m).upTo n = f.upTo n := by
  rw [upTo, next_upTo h, upTo, upTo, ← Function.iterate_add_apply, Nat.sub_add_sub_cancel hm h]

/-- What is not listed among other trees keeps its place. -/
theorem parent?_aside_of_mem (hn : (idsAll (f.aside x).trees).Nodup) (hi : i ∈ idsAll f.trees) :
    (f.aside x).parent? i = f.parent? i := by
  obtain ⟨c, hc, hi⟩ := mem_idsAll.mp hi
  have hc' : c ∈ (f.aside x).trees := by
    rw [Func.trees, Func.aside, ← List.cons_append]
    exact List.mem_append_left _ hc
  have hsub : (idsAll f.trees).Nodup := by
    rw [Func.trees, Func.aside, ← List.cons_append, idsAll_append] at hn
    exact hn.of_append_left
  rw [Func.parent?, Func.parent?, path_of_mem_tree hn hc' hi, path_of_mem_tree hsub hc hi]
  rfl

namespace Func.Place

theorem upTo (h : Place K held) (n : NodeId) : Place (fun c => (K c).upTo n) held where
  part c := h.part c
  put g hn := congrArg (fun f => f.upTo n) (h.put g hn)
  hasParent hn hheld := h.hasParent hn hheld
  rest c d := by
    conv_lhs => rw [h.rest c d]
    rfl

theorem aside (h : Place K held) (x : Component) : Place (fun c => (K c).aside x) held where
  part c := (h.part c).append_right x
  put {c} g hn := by
    rw [Func.trees, Func.aside, ← List.cons_append, idsAll_append, List.nodup_append] at hn
    have hout : c.id ∉ x.ids := fun hx => hn.2.2 _ ((h.part c).mem_ids (id_mem_ids c)) _
      (by rwa [idsAll_singleton]) rfl
    rw [← h.put g hn.1, Func.changed, Func.aside, modifyAll_append, modifyAll,
      modify_of_not_mem x hout]
    rfl
  hasParent {c} hn hheld := by
    rw [Func.hasParent, parent?_aside_of_mem hn ((h.part c).mem_ids (id_mem_ids c))]
    rw [Func.trees, Func.aside, ← List.cons_append, idsAll_append] at hn
    exact h.hasParent hn.of_append_left hheld
  rest c d := by
    conv_lhs => rw [h.rest c d]
    rfl

end Func.Place
end

section

variable {s s' : Registry} {f : Func} {i : NodeId} {c d x : Component} {hand : List Component}

/-! ## In hand -/

theorem without_aside (h : (f.aside x).Stocked hand) : (f.aside x).without x = f := by
  have hn := h.trees_nodup
  rw [Func.trees, Func.aside, ← List.cons_append, idsAll_append, List.nodup_append] at hn
  have hout : ∀ d ∈ f.detached, d.id ≠ x.id := fun d hd he =>
    hn.2.2 d.id (mem_idsAll_of_mem (List.mem_cons_of_mem _ hd)) x.id
      (by rw [idsAll_singleton]; exact id_mem_ids x) he
  rw [Func.without, Func.aside]
  dsimp only
  rw [List.filter_append, List.filter_eq_self.mpr (by simpa using hout)]
  simp

namespace Registry.Tracks

theorem take (h : s.Tracks hand (f.aside x)) : s.Tracks (x :: hand) f := by
  have hx : x ∈ (f.aside x).detached := List.mem_append_right _ List.mem_cons_self
  have hp := h.toPictures.without h.stocked hx
  have hs := h.stocked.without hx
  rw [without_aside h.stocked] at hp hs
  exact ⟨hp, hs, h.bodyHeld⟩

theorem dissolve (h : s.Tracks (c :: hand) f) (hk : c.kind ≠ .block) :
    s.Tracks (c.children ++ .seq c.id [] :: hand) f := by
  have hsame : Same (c :: (hand ++ f.trees))
      (c.children ++ .seq c.id [] :: hand ++ f.trees) := by
    refine ((same_children c hk).append (.refl (hand ++ f.trees))).trans (.of_perm ?_)
    rw [List.append_assoc, List.cons_append, List.cons_append]
    exact List.perm_middle.symm
  refine ⟨⟨h.handle, h.frozen, h.size, h.root, h.body, h.detached, fun d hd => ?_, fun i hi => ?_⟩,
    h.stocked.moved hsame.symm rfl, h.bodyHeld⟩
  · rcases List.mem_append.mp hd with hd | hd
    · exact ((h.held c List.mem_cons_self).child d hd).holds
    · rcases List.mem_cons.mp hd with rfl | hd
      · exact ⟨(h.held c List.mem_cons_self).root, List.forall_mem_nil _⟩
      · exact h.held d (List.mem_cons_of_mem _ hd)
  · exact (h.only i hi).imp_right fun hm => hsame.ids.subset hm

theorem drop (h : s.Tracks (.seq i [] :: hand) f) {P : Listing}
    (hroot : s.nodes.get? i = some ⟨none, P⟩) :
    ∃ s', Surgery.release i s = .ok () s' ∧ s'.Tracks hand f ∧
      ∀ j ∈ idsAll hand, s'.nodes.get? j = s.nodes.get? j := by
  have hrun : Surgery.release i s = .ok () { s with nodes := s.nodes.release i } := by
    rw [Surgery.release, Surgery.bind_eq (Surgery.hasParent_eq hroot)]
    exact Surgery.bind_eq (Surgery.require_eq rfl ..)
  have hn := h.stocked.nodup
  rw [List.cons_append, idsAll, ids, idsAll, List.singleton_append, List.nodup_cons] at hn
  have hstocked : f.Stocked hand := by
    refine h.stocked.renumbered [] ?_ List.nodup_nil (List.forall_mem_nil _)
        (Nat.le_refl _) h.stocked.stored
    rw [List.append_nil, List.cons_append, idsAll, ids, idsAll]
    exact (List.sublist_cons_self _ _).subperm
  refine ⟨_, hrun, ⟨h.toPictures.release h.stocked rfl, hstocked, h.bodyHeld⟩, fun j hj => ?_⟩
  rw [Arena.get?_release, if_neg]
  rintro rfl
  exact hn.1 (by rw [idsAll_append]; exact List.mem_append_left _ hj)

end Registry.Tracks

end

section

variable {s s' : Registry} {f : Func} {i q k cond : NodeId} {o : Option NodeId} {c d x : Component}
  {l r cs hand : List Component} {K : Component → Func} {held : Bool}

/-! ## Sequences -/

/-- What is put into the place of a structure is put into the structure. -/
theorem place_insert_tracks (hK : Place K held) (h : s.Tracks hand ((K (.seq q (l ++ r))).aside x))
    (hu : (K (.seq q (l ++ r))).frozen = false) :
    ∃ s', Surgery.insert q l.length (s.refTo x.id) s = .ok () s' ∧
      s'.Tracks hand (K (.seq q (l ++ x :: r))) ∧
      ∀ i ∈ idsAll hand, s'.nodes.get? i = s.nodes.get? i := by
  have hn := h.stocked.trees_nodup
  rw [Func.trees, Func.aside, ← List.cons_append, idsAll_append, List.nodup_append] at hn
  have hpart : (Component.seq q (l ++ r)).PartOf (K (.seq q (l ++ r))).trees := hK.part _
  have hout : q ∉ x.ids := fun hx => hn.2.2 q (hpart.mem_ids (id_mem_ids (.seq q _))) q
    (by rwa [idsAll_singleton]) rfl
  obtain ⟨s', hrun, ht, hframe⟩ := insert_tracks h hu (hpart.append_right x)
    (List.mem_append_right _ List.mem_cons_self) hout (show (s.refTo x.id).id = x.id from rfl)
    h.handle
  refine ⟨s', hrun, ?_, hframe⟩
  rw [without_aside h.stocked] at ht
  exact hK.put (c := .seq q (l ++ r)) (Edit.setElements (l ++ x :: r)) hn.1 ▸ ht

theorem place_append_tracks (hK : Place K held) (h : s.Tracks hand ((K (.seq q l)).aside x))
    (hu : (K (.seq q l)).frozen = false) :
    ∃ s', Surgery.append q (s.refTo x.id) s = .ok () s' ∧ s'.Tracks hand (K (.seq q (l ++ [x]))) ∧
      ∀ i ∈ idsAll hand, s'.nodes.get? i = s.nodes.get? i := by
  obtain ⟨o, ho⟩ := h.part h.forest ((hK.part _).append_right x)
  rw [← List.append_nil l] at h hu
  obtain ⟨s', hrun, ht⟩ := place_insert_tracks hK h hu
  refine ⟨s', ?_, ht⟩
  have hroot : s.nodes.get? q = some ⟨o, .seq (l.map Component.id)⟩ := ho.root
  rw [Surgery.append, Surgery.bind_eq (Surgery.elementsOf_eq hroot), List.length_map]
  exact hrun

/-- A part is taken from a structure that stands in the place. -/
theorem place_remove_tracks (hK : Place K held) (hu : ∀ c, (K c).frozen = false)
    (h : s.Tracks hand (K (.seq q (l ++ x :: r)))) :
    ∃ s', Surgery.remove q l.length s = .ok x.id s' ∧
      s'.Tracks hand ((K (.seq q (l ++ r))).aside x) := by
  obtain ⟨s', hrun, ht⟩ := remove_tracks h (hu _) (hK.part (.seq q (l ++ x :: r)))
  exact ⟨s', hrun, hK.put (c := .seq q (l ++ x :: r)) (Edit.setElements (l ++ r))
    h.stocked.trees_nodup ▸ ht⟩

theorem hasParent_tracks (h : s.Tracks [] f) (hi : i ∈ idsAll f.trees) :
    Surgery.hasParent i s = .ok (f.hasParent i) s := by
  obtain ⟨d, -, -, hx⟩ := h.record h.forest hi
  rw [Surgery.hasParent_eq hx, Func.hasParent]
  cases f.parent? i <;> rfl

theorem place_hasParent_tracks (hK : Place K held) (h : s.Tracks [] (K c)) :
    Surgery.hasParent c.id s = .ok held s := by
  rw [hasParent_tracks h ((hK.part c).mem_ids (id_mem_ids c)),
    hK.hasParent h.stocked.trees_nodup h.bodyHeld]

theorem not_mem_aside {hand : List Component} (h : (f.aside x).Stocked hand)
    (hi : i ∈ idsAll f.trees) : i ∉ x.ids := fun hx => by
  have hn := h.trees_nodup
  rw [Func.trees, Func.aside, ← List.cons_append, idsAll_append, List.nodup_append] at hn
  exact hn.2.2 i hi i (by rwa [idsAll_singleton]) rfl

/-- What stands in the place gives it to what was set aside, whatever it lists itself. -/
theorem place_exchange_untold (hK : Place K true) (hu : ∀ c, (K c).frozen = false)
    (h : (s.setParts d.id d.parts).Tracks [] ((K d).aside x)) :
    ∃ s', Surgery.replaceInParent d.id (s.refTo x.id) s = .ok () s' ∧
        s'.parts? d.id = s.parts? d.id ∧
      (s'.setParts d.id d.parts).Tracks [] ((K x).aside d) := by
  have hd := (hK.part d).mem_ids (id_mem_ids d)
  have hparent := (hK.aside x).hasParent h.stocked.trees_nodup h.bodyHeld
  obtain ⟨⟨p, role⟩, hp⟩ := Option.isSome_iff_exists.mp hparent
  obtain ⟨s', hrun, hparts, ht⟩ := exchange_untold h (hu d) ((hK.part d).append_right x) hp
    (List.mem_append_right _ List.mem_cons_self) (not_mem_aside h.stocked hd)
    (show (s.refTo x.id).id = x.id from rfl) h.handle
  refine ⟨s', hrun, hparts, ?_⟩
  rw [without_aside h.stocked, hK.put _ (h.take.stocked.trees_nodup)] at ht
  exact ht

theorem place_exchange_tracks (hK : Place K true) (hu : ∀ c, (K c).frozen = false)
    (h : s.Tracks [] ((K d).aside x)) :
    ∃ s', Surgery.replaceInParent d.id (s.refTo x.id) s = .ok () s' ∧
      s'.Tracks [] ((K x).aside d) := by
  obtain ⟨o, ho⟩ := h.part h.forest ((hK.part d).append_right x)
  obtain ⟨s', hrun, hparts, ht⟩ := place_exchange_untold hK hu (h.retold ho.parts?)
  exact ⟨s', hrun, ht.of_retold (hparts.trans ho.parts?)⟩

theorem release_tracks (h : s.Tracks [] (f.aside (.seq i []))) :
    ∃ s', Surgery.release i s = .ok () s' ∧ s'.Tracks [] f := by
  obtain ⟨s', hrun, ht, -⟩ :=
    h.take.drop (h.detached _ (List.mem_append_right _ List.mem_cons_self)).root
  exact ⟨s', hrun, ht⟩

theorem place_elementsOf (hK : Place K held) (h : s.Tracks [] (K (.seq q cs))) :
    Surgery.elementsOf q s = .ok (cs.map Component.id) s := by
  obtain ⟨o, ho⟩ := h.part h.forest (hK.part (.seq q cs))
  exact Surgery.elementsOf_eq ho.root

theorem place_forkOf (hK : Place K held) (h : s.Tracks [] (K (.fork k cond cs))) :
    Surgery.forkOf k s = .ok (cond, cs.map Component.id) s := by
  obtain ⟨o, ho⟩ := h.part h.forest (hK.part (.fork k cond cs))
  exact Surgery.forkOf_eq ho.root

variable {start body update : Component} {after : NodeId}

theorem place_membersOf (hK : Place K held)
    (h : s.Tracks [] (K (.loop k start cond body update after))) : Surgery.membersOf k s =
      .ok ⟨start.id, cond, body.id, update.id, after⟩ s := by
  obtain ⟨o, ho⟩ := h.part h.forest (hK.part (.loop k start cond body update after))
  exact Surgery.membersOf_eq ho.root

end

end DefFlow.Flow
