import DefFlow.Proofs.Edits.Firm
import DefFlow.Proofs.Edits.Undefined

/-!
# Trees that take what was set aside

While a function can be edited, a structure accepts every tree that was set aside and does not hold
it. A component that has a parent accepts another one beside it, in whatever tree it stands; only
the root of a tree does not.
-/

set_option autoImplicit false

namespace DefFlow.Flow

open Func Component

def Edit.Granted {α : Type} (x : Edit α) (f : Func) : Prop := ∃ a f', x f = .ok a f'

theorem Edit.Granted.bind {α β : Type} {x : Edit α} {k : α → Edit β} {f : Func}
    (hx : x.Granted f) (hk : ∀ a f', x f = .ok a f' → (k a).Granted f') :
    Edit.Granted (x >>= k) f := by
  obtain ⟨a, f', h⟩ := hx
  obtain ⟨b, f'', h'⟩ := hk a f' h
  exact ⟨b, f'', by rw [Edit.bind_eq h, h']⟩

theorem Edit.Granted.step {α β : Type} {x : Edit α} {k : α → Edit β} {f f' : Func} {a : α}
    (hx : x f = .ok a f') (hk : (k a).Granted f') : Edit.Granted (x >>= k) f := by
  obtain ⟨b, f'', h⟩ := hk
  exact ⟨b, f'', by rw [Edit.bind_eq hx, h]⟩

structure Refers (c : Component) (f : Func) (ref : ComponentRef) : Prop where
  id : ref.id = c.id
  owner : ref.owner = f.handle
  kind : ref.kind ≠ .function

def Cites (handle : Nat) (c : Component) (m : Edit ComponentRef) : Prop :=
  ∀ g : Func, g.handle = handle → c ∈ g.detached → ∃ ref, m g = .ok ref g ∧ Refers c g ref

section

variable {f f' : Func} {l r hand : List Component} {c d x y : Component} {p s b b' : NodeId}
  {ref : ComponentRef} {i : Int} {u : Unit}

theorem refers_tree (hx : x ∈ f.trees) :
    ∃ ref, Edit.refTo x.id f = .ok ref f ∧ Refers x f ref := by
  refine ⟨_, refTo_eq _ _, rfl, rfl, ?_⟩
  obtain ⟨d, hd⟩ := Option.isSome_iff_exists.mp (findAll?_isSome f.trees (mem_idsAll_of_mem hx))
  rw [Func.find?, hd]
  cases d <;> exact Kind.noConfusion

theorem cites_refTo (handle : Nat) (c : Component) : Cites handle c (Edit.refTo c.id) :=
  fun _ _ hc => refers_tree (List.mem_cons_of_mem _ hc)

theorem cites_pure (h : Refers c f ref) : Cites f.handle c (pure ref) :=
  fun _ hg _ => ⟨ref, rfl, h.id, h.owner.trans hg.symm, h.kind⟩

/-! ## Taking a component -/

theorem adopt_granted (hd : f.detached = l ++ d :: r) (hne : ∀ y ∈ l ++ r, y.id ≠ d.id)
    (href : Refers d f ref) (hp : p ∉ d.ids) : (Edit.adopt p ref).Granted f := by
  have hhas : (f.detached.any fun y => decide (y.id = ref.id)) = true := by
    rw [hd, href.id]
    simp
  have hfits : (!f.detached.any fun y => decide (y.id = ref.id) && y.contains p) = true := by
    rw [Bool.not_eq_true', List.any_eq_false]
    intro y hy hboth
    rw [Bool.and_eq_true, decide_eq_true_eq, href.id] at hboth
    rw [hd, List.mem_append, List.mem_cons] at hy
    have hyd : y = d := by
      by_contra hyd
      refine hne y (List.mem_append.mpr ?_) hboth.1
      exact hy.imp_right fun h => h.resolve_left hyd
    rw [hyd, Component.contains, List.contains_iff_mem] at hboth
    exact hp hboth.2
  have hadoptable : Edit.adoptable p ref f = .ok () f := by
    rw [Edit.adoptable, Edit.bind_eq Edit.get_eq,
      Edit.bind_eq (Edit.require_eq (by simpa using href.owner) _ _),
      Edit.bind_eq (Edit.require_eq (by simpa using href.kind) _ _),
      Edit.bind_eq (Edit.require_eq hhas _ _)]
    exact Edit.require_eq hfits _ _
  exact ⟨_, _, Edit.bind_eq hadoptable⟩

theorem adopt_aside_granted (h : (idsAll f.trees).Nodup) (hx : x ∈ f.detached)
    (href : Refers x f ref) (hp : p ∉ x.ids) : (Edit.adopt p ref).Granted f := by
  obtain ⟨l, r, hd⟩ := List.append_of_mem hx
  refine adopt_granted hd (fun y hy => ?_) href hp
  rw [Func.trees, hd, ← List.cons_append] at h
  exact id_ne_of_nodup h y (by rw [List.cons_append]; exact .tail _ hy)

theorem Adopts.aside {taken : Component} (h : Adopts p ref hand taken f f') (hy : y ∈ f.detached)
    (hne : y.id ≠ ref.id) : y ∈ f'.detached := by
  obtain ⟨l, r, hd, hd'⟩ := h.detached
  rw [hd, List.mem_append, List.mem_cons] at hy
  rw [hd', List.mem_append]
  exact hy.imp_right fun hy => hy.resolve_left fun he => hne (he ▸ h.id)

/-! ## Sequences -/

theorem elementsOf_granted (f : Func) (s : NodeId) : ∃ es, Edit.elementsOf s f = .ok es f := by
  rw [Edit.elementsOf, Edit.bind_eq Edit.get_eq]
  cases f.find? s with
  | none => exact ⟨_, rfl⟩
  | some c => cases c <;> exact ⟨_, rfl⟩

theorem insertElement_granted {es : List Component} (h : f.Stocked []) (hu : f.frozen = false)
    (hs : (Component.seq s es).PartOf f.trees) (hi : 0 ≤ i ∧ i ≤ es.length) (hx : x ∈ f.detached)
    (href : Refers x f ref) (hout : s ∉ x.ids) : (Edit.insertElement s i ref).Granted f := by
  have hplace : (decide (0 ≤ i) && decide (i ≤ es.length)) = true := by simpa using hi
  obtain ⟨taken, f₁, htake⟩ := adopt_aside_granted h.trees_nodup hx href hout
  obtain ⟨es', helems⟩ := elementsOf_granted f₁ s
  exact .step (Edit.unfrozen_eq hu _) <| .step (elementsOf_part h hs) <|
    .step (Edit.require_eq hplace _ _) <| .step htake <| .step helems ⟨_, _, rfl⟩

theorem appendElement_granted (h : f.Stocked []) (hu : f.frozen = false) (hs : f.HasSeq s)
    (hx : x ∈ f.detached) (href : Refers x f ref) (hout : s ∉ x.ids) :
    (Edit.appendElement s ref).Granted f := by
  obtain ⟨es, hs⟩ := hs
  exact .step (elementsOf_part h hs) (insertElement_granted h hu hs
    ⟨Int.natCast_nonneg es.length, Int.le_refl _⟩ hx href hout)

/-- The trees beside the one that is inserted, and apart from the sequence, stay set aside. -/
theorem appendElement_aside (h : f.Stocked []) (hs : f.HasSeq s)
    (hrun : Edit.appendElement s ref f = .ok u f') (hy : y ∈ f.detached) (hne : y.id ≠ ref.id)
    (hout : s ∉ y.ids) : y ∈ f'.detached := by
  obtain ⟨es, hs⟩ := hs
  rw [Edit.appendElement, Edit.bind_eq (elementsOf_part h hs)] at hrun
  obtain ⟨_, hrun⟩ := Edit.unfrozen_bind_ok hrun
  rw [Edit.bind_eq (elementsOf_part h hs)] at hrun
  obtain ⟨_, hrun⟩ := Edit.require_bind_ok hrun
  obtain ⟨taken, f₁, htake, hrun⟩ := Edit.bind_ok hrun
  obtain ⟨es', helems⟩ := elementsOf_granted f₁ s
  rw [Edit.bind_eq helems] at hrun
  cases hrun
  exact mem_modifyAll ((adopt_adopts h htake).aside hy hne) hout

theorem appendBoth_granted {mx my : Edit ComponentRef} (h : f.Stocked []) (hu : f.frozen = false)
    (hs : f.HasSeq s) (hx : x ∈ f.detached) (hy : y ∈ f.detached) (hne : y.id ≠ x.id)
    (hsx : s ∉ x.ids) (hsy : s ∉ y.ids) (hmx : Cites f.handle x mx) (hmy : Cites f.handle y my) :
    Edit.Granted (do
      Edit.appendElement s (← mx)
      Edit.appendElement s (← my) : Edit Unit) f := by
  obtain ⟨ref, href, hrefers⟩ := hmx f rfl hx
  obtain ⟨u, f₁, happend⟩ := appendElement_granted h hu hs hx hrefers hsx
  obtain ⟨h₁, hs₁⟩ := appendElement_restocks h hs happend
  have hy₁ := appendElement_aside h hs happend hy (hrefers.id ▸ hne) hsy
  obtain ⟨ref', href', hrefers'⟩ := hmy f₁ h₁.handle hy₁
  exact .step href <| .step happend <| .step href' <|
    appendElement_granted h₁.stocked (h₁.frozen.trans hu) hs₁ hy₁ hrefers' hsy

/-! ## The place of a component -/

theorem setBody_granted (h : f.Stocked []) (hu : f.frozen = false) (hx : x ∈ f.detached)
    (href : Refers x f ref) : (Edit.setBody ref).Granted f := by
  refine .step (Edit.unfrozen_eq hu _) <| .step Edit.get_eq <| .step rfl <| .step rfl ?_
  split
  · exact .step rfl ⟨_, _, rfl⟩
  · have hroot : rootId ∉ x.ids := fun hm => Nat.lt_irrefl _
      (h.bounded rootId (PartOf.mem_ids ⟨x, List.mem_cons_of_mem _ hx, .here⟩ hm)).1
    obtain ⟨taken, f₁, htake⟩ := adopt_aside_granted (f := f.released) h.trees_nodup hx
      ⟨href.id, href.owner, href.kind⟩ hroot
    exact .step htake ⟨_, _, rfl⟩

/-- The old body is set aside beside the trees that have not been taken. -/
theorem setBody_aside (h : f.Stocked []) (hx : x ∈ f.detached) (href : ref.id = x.id)
    (hrun : Edit.setBody ref f = .ok u f') :
    f.body ∈ f'.detached ∧ ∀ y ∈ f.detached, y.id ≠ x.id → y ∈ f'.detached := by
  rcases setBody_cases hrun with ⟨-, hself, -⟩ | ⟨-, taken, g, htake, rfl⟩
  · have heq := f.body_partOf.unique (partOf_of_mem_detached hx) h.trees_nodup
      (hself.symm.trans href)
    have hn := h.trees_nodup
    rw [Func.trees, idsAll, List.nodup_append] at hn
    exact absurd rfl (hn.2.2 _ (id_mem_ids f.body) _ (heq ▸ mem_idsAll_of_mem hx))
  · have a := adopt_adopts (f := f.released) (h.moved (.refl _) rfl) htake
    have hbody : g.body = f.body := a.body
    refine ⟨hbody ▸ List.mem_append_right _ List.mem_cons_self, fun y hy hne => ?_⟩
    exact List.mem_append_left _ (a.aside hy (href ▸ hne))

theorem replaceInParent_granted (h : f.Stocked []) (hu : f.frozen = false)
    (hp : f.hasParent d.id = true) (hx : x ∈ f.detached) (href : Refers x f ref)
    (hout : d.id ∉ x.ids) : (Edit.replaceInParent d.id ref).Granted f := by
  obtain ⟨⟨p, role⟩, hparent⟩ := Option.isSome_iff_exists.mp hp
  refine .step Edit.get_eq ?_
  simp only [hparent]
  by_cases hrole : role = .functionBody
  · rw [hrole]
    exact setBody_granted h hu hx href
  · obtain ⟨taken, f₁, htake⟩ := adopt_aside_granted h.trees_nodup hx href hout
    cases role <;> first | exact .step htake ⟨_, _, rfl⟩ | exact absurd rfl hrole

/-- What has been replaced is set aside beside the trees that have not been taken. -/
theorem replaceInParent_aside (h : f.Stocked []) (hd : d.PartOf f.trees) (hx : x ∈ f.detached)
    (href : ref.id = x.id) (hrun : Edit.replaceInParent d.id ref f = .ok u f') :
    d ∈ f'.detached ∧ ∀ y ∈ f.detached, y.id ≠ x.id → d.id ∉ y.ids → y ∈ f'.detached := by
  rcases replaceInParent_cases (hd.find? h.trees_nodup) hrun with
    ⟨p, hparent, hrun⟩ | ⟨taken, f₁, htake, hrun⟩
  · obtain ⟨hbody, hrest⟩ := setBody_aside h hx href hrun
    refine ⟨?_, fun y hy hne _ => hrest y hy hne⟩
    rcases plays_of_parent? hparent with ⟨c, -, -, hplays⟩ | ⟨-, -, hroot⟩
    · cases c <;> cases hplays
    · rw [isBody, Bool.and_eq_true, decide_eq_true_eq] at hroot
      rwa [hd.unique f.body_partOf h.trees_nodup hroot.1.symm]
  · have a := adopt_adopts h htake
    cases hrun
    refine ⟨List.mem_append_right _ List.mem_cons_self, fun y hy hne hout => ?_⟩
    exact List.mem_append_left _ (mem_modifyAll (a.aside hy (href ▸ hne)) hout)

def Func.withSequence (f : Func) : Func :=
  { f with nodes := f.nodes.skip, detached := f.detached ++ [.seq f.nodes.next []] }

theorem newSequence_eq (hu : f.frozen = false) :
    Edit.newSequence [] f = .ok f.nodes.next f.withSequence := by
  rw [Edit.newSequence, Edit.bind_eq (Edit.unfrozen_eq hu _)]
  rfl

theorem parent?_withSequence (f : Func) (i : NodeId) :
    f.withSequence.parent? i = f.parent? i := by
  refine @parent?_of_aside f f.withSequence (.seq f.nodes.next []) rfl rfl rfl (fun i => ?_) i
  rw [pathIn]
  split <;> rfl

/-- A component that has a parent makes room for a new sequence. -/
theorem makeRoom_granted {α : Type} {k : NodeId → Edit α} (h : f.Stocked [])
    (hu : f.frozen = false) (hd : d.PartOf f.trees) (hp : f.hasParent d.id = true)
    (hk : ∀ f₁, Restocks f f₁ → f₁.HasSeq f.nodes.next → d ∈ f₁.detached →
      (∀ y ∈ f.detached, d.id ∉ y.ids → y ∈ f₁.detached) → (k f.nodes.next).Granted f₁) :
    Edit.Granted (do
      let seq ← Edit.newSequence []
      Edit.replaceInParent d.id (← Edit.refTo seq)
      k seq : Edit α) f := by
  have hnew := newSequence_eq hu
  have h₀ := newSequence_restocks h hnew
  have hx : Component.seq f.nodes.next [] ∈ f.withSequence.detached :=
    List.mem_append_right _ List.mem_cons_self
  have hbounded : ∀ {i}, i ∈ idsAll f.trees → i ≠ f.nodes.next := fun {i} hi hin => by
    have := (h.bounded i hi).2
    rw [hin, Arena.next_eq] at this
    omega
  obtain ⟨ref, href, hrefers⟩ := refers_tree (List.mem_cons_of_mem _ hx)
  change Edit.refTo f.nodes.next f.withSequence = .ok ref f.withSequence at href
  have hd₀ : d.PartOf f.withSequence.trees := hd.append_right _
  obtain ⟨u, f₁, hput⟩ := replaceInParent_granted (d := d) h₀.stocked (h₀.frozen.trans hu)
    (by rw [hasParent, parent?_withSequence]; exact hp) hx hrefers fun hm => by
      rw [ids, idsAll, List.mem_singleton] at hm
      exact hbounded (hd.mem_ids (id_mem_ids d)) hm
  obtain ⟨h₁, hs₁⟩ := replaceInParent_restocks h₀.stocked hd₀ hx hrefers.id hput
  obtain ⟨hd₁, hrest⟩ := replaceInParent_aside h₀.stocked hd₀ hx hrefers.id hput
  refine .step hnew <| .step href <| .step hput <| hk f₁ (h₀.trans h₁) ⟨[], hs₁⟩ hd₁ fun y hy => ?_
  exact hrest y (List.mem_append_left _ hy) (hbounded (mem_idsAll_of_mem
      (List.mem_cons_of_mem _ hy)))

theorem makeRoom_refused {α : Type} {k : NodeId → Edit α} (h : f.Stocked [])
    (hu : f.frozen = false) (hd : d.PartOf f.trees) (hp : f.hasParent d.id = false) :
    (do
      let seq ← Edit.newSequence []
      Edit.replaceInParent d.id (← Edit.refTo seq)
      k seq : Edit α) f =
      .error ⟨.replaceInParent, .detachedComponent d.kind d.id⟩ f.withSequence := by
  have hnone : f.withSequence.parent? d.id = none := by
    rw [parent?_withSequence]
    exact Option.not_isSome_iff_eq_none.mp (by rw [← hasParent, hp]; exact Bool.false_ne_true)
  have hfind : f.withSequence.find? d.id = some d :=
    PartOf.find? (hd.append_right _) (newSequence_restocks h
        (newSequence_eq hu)).stocked.trees_nodup
  rw [Edit.bind_eq (newSequence_eq hu), Edit.bind_eq (refTo_eq _ _)]
  refine Edit.bind_error ?_
  rw [Edit.replaceInParent, Edit.bind_eq Edit.get_eq, hnone, hfind]
  rfl

/-! ## Beside a component -/

theorem next_not_mem_aside (h : f.Stocked []) (hd : d.PartOf f.trees) : f.nodes.next ∉ d.ids :=
  fun hm => by
    have := (h.bounded _ (hd.mem_ids hm)).2
    rw [Arena.next_eq] at this
    omega

/-- A component and a tree that was set aside are both put into a new sequence. -/
theorem wrapBefore_granted {mx md : Edit ComponentRef} (h : f.Stocked []) (hu : f.frozen = false)
    (hd : d.PartOf f.trees) (hp : f.hasParent d.id = true) (hx : x ∈ f.detached)
    (hout : d.id ∉ x.ids) (hmx : Cites f.handle x mx) (hmd : Cites f.handle d md) :
    Edit.Granted (do
      let seq ← Edit.newSequence []
      Edit.replaceInParent d.id (← Edit.refTo seq)
      Edit.appendElement seq (← mx)
      Edit.appendElement seq (← md) : Edit Unit) f := by
  refine makeRoom_granted h hu hd hp fun f₁ hr hs hd₁ hrest => ?_
  rw [← hr.handle] at hmx hmd
  exact appendBoth_granted hr.stocked (hr.frozen.trans hu) hs (hrest x hx hout) hd₁
    (fun hid => hout (hid ▸ id_mem_ids x)) (next_not_mem_aside h (partOf_of_mem_detached hx))
    (next_not_mem_aside h hd) hmx hmd

theorem wrapBehind_granted {mx md : Edit ComponentRef} (h : f.Stocked []) (hu : f.frozen = false)
    (hd : d.PartOf f.trees) (hp : f.hasParent d.id = true) (hx : x ∈ f.detached)
    (hout : d.id ∉ x.ids) (hmx : Cites f.handle x mx) (hmd : Cites f.handle d md) :
    Edit.Granted (do
      let seq ← Edit.newSequence []
      Edit.replaceInParent d.id (← Edit.refTo seq)
      Edit.appendElement seq (← md)
      Edit.appendElement seq (← mx) : Edit Unit) f := by
  refine makeRoom_granted h hu hd hp fun f₁ hr hs hd₁ hrest => ?_
  rw [← hr.handle] at hmx hmd
  exact appendBoth_granted hr.stocked (hr.frozen.trans hu) hs hd₁ (hrest x hx hout)
    (fun hid => hout (hid ▸ id_mem_ids x)) (next_not_mem_aside h hd)
    (next_not_mem_aside h (partOf_of_mem_detached hx)) hmd hmx

/-- The sequence of a component accepts another one beside it. -/
theorem insertBeside_granted {j k : Nat} {t : NodeId} (h : f.Stocked []) (hu : f.frozen = false)
    (hp : f.parent? t = some (s, .element j)) (hk : k ≤ j + 1) (hx : x ∈ f.detached)
    (href : Refers x f ref) (hout : t ∉ x.ids) : (Edit.insertElement s k ref).Granted f := by
  rcases plays_of_parent? hp with ⟨c, hc, rfl, hplays⟩ | ⟨-, hrole, -⟩
  · cases c with
    | seq s es =>
      have hin := mem_ids_of_plays hplays
      obtain ⟨d, hd, -⟩ := hplays
      have hlt : j < es.length := (List.getElem?_eq_some_iff.mp hd).1
      refine insertElement_granted h hu hc ⟨Int.natCast_nonneg k, by omega⟩ hx
          href fun hm => hout ?_
      -- The sequence lies in one tree only, with all of its elements.
      exact (hc.within_of_mem (List.mem_cons_of_mem _ hx) h.trees_nodup hm).mem_ids hin
    | _ => cases hplays
  · cases hrole

theorem insertBefore_granted (h : f.Stocked []) (hu : f.frozen = false) (hd : d.PartOf f.trees)
    (hp : f.hasParent d.id = true) (hx : x ∈ f.detached) (href : Refers x f ref)
    (hout : d.id ∉ x.ids) : (Edit.insertBefore d.id ref).Granted f := by
  rcases @insertBefore_eq f ref d.id with ⟨s, i, hparent, heq⟩ | heq
  · obtain ⟨u, f', hrun⟩ := insertBeside_granted h hu hparent (Nat.le_succ i) hx href hout
    exact ⟨u, f', heq.trans hrun⟩
  · obtain ⟨u, f', hrun⟩ := wrapBefore_granted h hu hd hp hx hout (cites_pure href)
      (cites_refTo _ d)
    exact ⟨u, f', heq.trans hrun⟩

theorem insertAfter_granted (h : f.Stocked []) (hu : f.frozen = false) (hd : d.PartOf f.trees)
    (hp : f.hasParent d.id = true) (hx : x ∈ f.detached) (href : Refers x f ref)
    (hout : d.id ∉ x.ids) : (Edit.insertAfter d.id ref).Granted f := by
  rcases @insertAfter_eq f ref d.id with ⟨s, i, hparent, heq⟩ | heq
  · obtain ⟨u, f', hrun⟩ := insertBeside_granted h hu hparent (Nat.le_refl (i + 1)) hx href hout
    exact ⟨u, f', heq.trans hrun⟩
  · obtain ⟨u, f', hrun⟩ := wrapBehind_granted h hu hd hp hx hout (cites_pure href)
      (cites_refTo _ d)
    exact ⟨u, f', heq.trans hrun⟩

theorem insertBefore_refused (h : f.Stocked []) (hu : f.frozen = false) (hd : d.PartOf f.trees)
    (hp : f.hasParent d.id = false) : Edit.insertBefore d.id ref f =
      .error ⟨.replaceInParent, .detachedComponent d.kind d.id⟩ f.withSequence := by
  rcases @insertBefore_eq f ref d.id with ⟨s, i, hparent, -⟩ | heq
  · rw [hasParent, hparent] at hp
    cases hp
  · exact heq.trans (makeRoom_refused h hu hd hp)

theorem insertAfter_refused (h : f.Stocked []) (hu : f.frozen = false) (hd : d.PartOf f.trees)
    (hp : f.hasParent d.id = false) : Edit.insertAfter d.id ref f =
      .error ⟨.replaceInParent, .detachedComponent d.kind d.id⟩ f.withSequence := by
  rcases @insertAfter_eq f ref d.id with ⟨s, i, hparent, -⟩ | heq
  · rw [hasParent, hparent] at hp
    cases hp
  · exact heq.trans (makeRoom_refused h hu hd hp)

/-! ## The second half of a block -/

/-- A fork trades its condition for a block that was set aside, and stays where it is. -/
theorem replaceCondition_trades {cs : List Component} (h : f.Stocked [])
    (hheld : f.bodyHeld = true) (hs : (Component.fork s b cs).PartOf f.trees)
    (hx : .block b' ∈ f.detached) (hb' : (f.nodes.get? b').isSome)
    (href : Refers (.block b') f ref) :
    ∃ f', Edit.replaceCondition s ref f = .ok () f' ∧ Restocks f f' ∧
      (Component.fork s b' cs).PartOf f'.trees ∧ .block b ∈ f'.detached ∧
      f'.hasParent s = f.hasParent s := by
  have hsb : b ≠ s := fun hbs => by
    have hn := hs.nodup h.trees_nodup
    rw [ids, hbs] at hn
    exact (List.nodup_cons.mp hn).1 List.mem_cons_self
  have hsb' : b' ≠ s := fun hbs => by
    cases (partOf_of_mem_detached hx).unique hs h.trees_nodup hbs
  have hfind : f.find? s = some (.fork s b cs) := hs.find? h.trees_nodup
  obtain ⟨taken, f₁, htake⟩ := adopt_aside_granted (p := s) h.trees_nodup hx href fun hm =>
    hsb' (List.mem_singleton.mp hm).symm
  have a := adopt_adopts h htake
  obtain rfl : taken = .block b' := a.eq_of_mem h hx href.id
  have hchange : Edit.replaceCondition s ref f = (do
      Edit.changeAt s (Edit.setCondition b')
      Edit.orphan (.block b) : Edit Unit) f₁ := by
    rw [Edit.replaceCondition, Edit.bind_eq Edit.get_eq, hfind]
    dsimp only
    exact Edit.bind_eq htake
  obtain ⟨u, f', hrun⟩ : ∃ u f', (do
      Edit.changeAt s (Edit.setCondition b')
      Edit.orphan (.block b) : Edit Unit) f₁ = .ok u f' := ⟨_, _, rfl⟩
  have hr := (replaceCondition_restocks h hs (href.id ▸ hb') (hchange.trans hrun)).1
  cases hrun
  have hpart : (Component.fork s b' cs).PartOf (modifyAll s (Edit.setCondition b') f₁.trees) :=
    PartOf.put (g := Edit.setCondition b') (a.partOf hs a.apart) a.stocked.trees_nodup
  refine ⟨_, hchange, hr, hpart.append_right _, List.mem_append_right _ List.mem_cons_self, ?_⟩
  -- A root stays a root, and only roots have no parent.
  have hold := (h.forest hheld).hasParent_iff (hs.mem_ids (id_mem_ids (.fork s b cs)))
  have hnew := (hr.stocked.forest (hr.held hheld)).hasParent_iff
    ((hpart.append_right (.block b)).mem_ids (id_mem_ids (.fork s b' cs)))
  rw [Bool.eq_iff_iff]
  refine hnew.trans (.trans ?_ hold.symm)
  obtain ⟨l, r, hd, hd'⟩ := a.detached
  change s ∉ (modifyAll s (Edit.setCondition b') f₁.detached ++
      [Component.block b]).map Component.id ↔
    s ∉ f.detached.map Component.id
  rw [List.map_append, map_id_modifyAll fun c => by cases c <;> rfl, hd, hd']
  simp [Component.id, Ne.symm hsb, Ne.symm hsb']

/-- The structure that a block stands for in its parent: a second half of the condition of a fork
has to be put beside the fork, and one of the block after a loop beside the loop. -/
def Role.spoken : Role → Option Kind
  | .condition => some .fork
  | .after => some .loop
  | _ => Option.none

/-- The second half takes the place of the condition of a fork, and the first one is to be put
before the fork, which stays where it is. -/
theorem placeSecondHalf_condition (h : f.Stocked []) (hheld : f.bodyHeld = true)
    (hb' : (f.nodes.get? b').isSome) (hx : .block b' ∈ f.detached)
    (hp : f.parent? b = some (s, .condition)) :
    ∃ (f₁ : Func) (d : Component) (ref : ComponentRef), Edit.placeSecondHalf b b' f =
        Edit.insertBefore d.id ref f₁ ∧ Restocks f f₁ ∧
      d.PartOf f₁.trees ∧ d.id = s ∧ d.kind = .fork ∧ .block b ∈ f₁.detached ∧
      Refers (.block b) f₁ ref ∧ s ≠ b ∧ f₁.hasParent s = f.hasParent s := by
  rcases plays_of_parent? hp with ⟨c, hc, rfl, hplays⟩ | ⟨-, hrole, -⟩
  · cases c with
    | fork s cond cs =>
      obtain rfl : cond = b := hplays
      obtain ⟨ref, href, hrefers⟩ := refers_tree (List.mem_cons_of_mem f.body hx)
      obtain ⟨f₁, hcond, hr, hpart, haside, hsame⟩ := replaceCondition_trades h hheld hc hx hb'
        hrefers
      obtain ⟨ref', href', hrefers'⟩ := refers_tree (List.mem_cons_of_mem f₁.body haside)
      have hn := hc.nodup h.trees_nodup
      rw [ids] at hn
      refine ⟨f₁, .fork s b' cs, ref', ?_, hr, hpart, rfl, rfl, haside, hrefers',
        fun he => (List.nodup_cons.mp hn).1 (he ▸ List.mem_cons_self), hsame⟩
      rw [Edit.placeSecondHalf, Edit.bind_eq Edit.get_eq, hp]
      exact (Edit.bind_eq href).trans ((Edit.bind_eq hcond).trans (Edit.bind_eq href'))
    | _ => cases hplays
  · cases hrole

/-- The second half is to be put behind the loop that the block follows. -/
theorem placeSecondHalf_after (h : f.Stocked []) (hx : .block b' ∈ f.detached)
    (hp : f.parent? b = some (s, .after)) :
    ∃ (d : Component) (ref : ComponentRef), Edit.placeSecondHalf b b' f = Edit.insertAfter d.id ref
        f ∧ d.PartOf f.trees ∧
      d.id = s ∧ d.kind = .loop ∧ Refers (.block b') f ref ∧ s ≠ b' := by
  rcases plays_of_parent? hp with ⟨c, hc, rfl, hplays⟩ | ⟨-, hrole, -⟩
  · cases c with
    | loop s start cond body update after =>
      obtain ⟨ref, href, hrefers⟩ := refers_tree (List.mem_cons_of_mem f.body hx)
      refine ⟨_, ref, ?_, hc, rfl, rfl, hrefers, fun he => ?_⟩
      · rw [Edit.placeSecondHalf, Edit.bind_eq Edit.get_eq, hp]
        exact Edit.bind_eq href
      · cases hc.unique (partOf_of_mem_detached hx) h.trees_nodup he
    | _ => cases hplays
  · cases hrole

/-- The second half finds a place, unless its block stands for a structure without a parent. -/
theorem placeSecondHalf_granted (h : f.Stocked []) (hheld : f.bodyHeld = true)
    (hu : f.frozen = false) (hb' : (f.nodes.get? b').isSome) (hx : .block b' ∈ f.detached)
    (hne : b ≠ b') (hloop : ∀ p, f.parent? b ≠ some (p, .loopCondition))
    (hroom : ∀ p role, f.parent? b = some (p, role) → role.spoken.isSome → f.hasParent p = true) :
    (Edit.placeSecondHalf b b').Granted f := by
  have hout : b ∉ (Component.block b').ids := fun hm => hne (List.mem_singleton.mp hm)
  rcases hparent : f.parent? b with _ | ⟨p, role⟩
  · exact .step Edit.get_eq (by rw [hparent]; exact ⟨_, _, rfl⟩)
  -- A block that does not stand for a structure makes room for a sequence of the two halves.
  have room : role.spoken = none → Edit.Granted (do
      let seq ← Edit.newSequence []
      Edit.replaceInParent b (← Edit.refTo seq)
      Edit.appendElement seq (← Edit.refTo b)
      Edit.appendElement seq (← Edit.refTo b') : Edit Unit) f := by
    intro hrole
    obtain ⟨d, hd, rfl⟩ := part_of_parent? hparent (by rintro rfl; cases hrole)
      (by rintro rfl; exact hloop p hparent) (by rintro rfl; cases hrole)
    exact wrapBehind_granted h hu hd (by rw [hasParent, hparent]; rfl) hx hout
      (cites_refTo _ (.block b')) (cites_refTo _ d)
  cases role with
  | element j =>
    obtain ⟨ref, href, hrefers⟩ := refers_tree (List.mem_cons_of_mem f.body hx)
    obtain ⟨u, f', hrun⟩ := insertBeside_granted h hu hparent (Nat.le_refl (j + 1)) hx hrefers hout
    rw [Int.natCast_add, Int.natCast_one] at hrun
    exact .step Edit.get_eq (by rw [hparent]; exact .step href ⟨u, f', hrun⟩)
  | condition =>
    obtain ⟨f₁, d, ref, hsame, hr, hd, rfl, -, hside, hrefers, hsb, hformed⟩ :=
      placeSecondHalf_condition h hheld hb' hx hparent
    obtain ⟨u, f', hrun⟩ := insertBefore_granted hr.stocked (hr.frozen.trans hu) hd
      (hformed.trans (hroom _ _ hparent rfl)) hside hrefers fun hm => hsb (List.mem_singleton.mp hm)
    exact ⟨u, f', hsame.trans hrun⟩
  | after =>
    obtain ⟨d, ref, hsame, hd, rfl, -, hrefers, hsb⟩ := placeSecondHalf_after h hx hparent
    obtain ⟨u, f', hrun⟩ := insertAfter_granted h hu hd (hroom _ _ hparent rfl) hx hrefers fun hm =>
      hsb (List.mem_singleton.mp hm)
    exact ⟨u, f', hsame.trans hrun⟩
  | loopCondition => exact absurd hparent (hloop p)
  | _ => exact .step Edit.get_eq (by rw [hparent]; exact room rfl)

/-- A structure without a parent makes no room for the second half of a block that stands for it. -/
theorem placeSecondHalf_refused {k : Kind} {role : Role} (h : f.Stocked [])
    (hheld : f.bodyHeld = true) (hu : f.frozen = false) (hb' : (f.nodes.get? b').isSome)
    (hx : .block b' ∈ f.detached) (hp : f.parent? b = some (p, role)) (hk : role.spoken = some k)
    (hout : f.hasParent p = false) :
    ∃ f', Edit.placeSecondHalf b b' f = .error ⟨.replaceInParent, .detachedComponent k p⟩ f' ∧
      Replants f f' := by
  have registered : ∀ {g : Func}, g.Stocked [] → g.frozen = false → Replants g g.withSequence :=
    fun hg hu => (newSequence_restocks hg (newSequence_eq hu)).toReplants
  cases role with
  | condition =>
    cases hk
    obtain ⟨f₁, d, ref, hsame, hr, hd, rfl, hk, -, -, -, hformed⟩ :=
      placeSecondHalf_condition h hheld hb' hx hp
    have hu₁ := hr.frozen.trans hu
    refine ⟨f₁.withSequence, ?_, hr.toReplants.trans (registered hr.stocked hu₁)⟩
    rw [hsame, insertBefore_refused hr.stocked hu₁ hd (hformed.trans hout), hk]
  | after =>
    cases hk
    obtain ⟨d, ref, hsame, hd, rfl, hk, -, -⟩ := placeSecondHalf_after h hx hp
    refine ⟨f.withSequence, ?_, registered h hu⟩
    rw [hsame, insertAfter_refused h hu hd hout, hk]
  | _ => cases hk

/-! ## In front of the body -/

theorem prependBlock_granted (h : f.Stocked []) (hheld : f.bodyHeld = true) (hu : f.frozen = false)
    (hx : .block b ∈ f.detached) : (Edit.prependBlock b).Granted f := by
  have hbody : f.body.PartOf f.trees := f.body_partOf
  have hout : f.body.id ∉ (Component.block b).ids := fun hm => by
    have hn := h.trees_nodup
    rw [Func.trees, idsAll, List.nodup_append] at hn
    exact hn.2.2 _ (id_mem_ids f.body) _ (mem_idsAll_of_mem hx) (List.mem_singleton.mp hm)
  rcases prependBlock_eq (e := b) hheld with ⟨s, es, hseq, heq⟩ | heq
  · obtain ⟨ref, href, hrefers⟩ := refers_tree (List.mem_cons_of_mem f.body hx)
    obtain ⟨u, f', hrun⟩ := insertElement_granted h hu (hseq ▸ hbody)
      ⟨Int.le_refl 0, Int.natCast_nonneg es.length⟩ hx hrefers (by rw [hseq] at hout; exact hout)
    exact ⟨u, f', heq.trans ((Edit.bind_eq href).trans hrun)⟩
  · have hp := (h.forest hheld).hasParent_of_mem (id_mem_ids f.body)
    obtain ⟨u, f', hrun⟩ := wrapBefore_granted h hu hbody hp hx hout (cites_refTo _ (.block b))
      (cites_refTo _ f.body)
    exact ⟨u, f', heq.trans hrun⟩

end

end DefFlow.Flow
