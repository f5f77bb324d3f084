import DefFlow.Flow.Registry
import DefFlow.Proofs.Edits.Schedule
import DefFlow.Proofs.State.Run
import DefFlow.Proofs.Tree.Parts

/-!
# Trees in a registry

A registry shows a tree if it has the records of all of its components: the parent of each, and
what it lists. A tree stays shown while its records are left alone; another root can be put above
it, and a part be exchanged for another.
-/

set_option autoImplicit false

namespace DefFlow.Flow

open Component

/-! ## Surgeries -/

namespace Surgery

variable {α β : Type} {s s' : Registry}

theorem bind_eq {x : Surgery α} {g : α → Surgery β} {a : α} (h : x s = .ok a s') :
    (x >>= g) s = g a s' := by
  change EStateM.bind x g s = _
  rw [EStateM.bind, h]

theorem get_eq : (get : Surgery Registry) s = .ok s s := rfl

theorem require_eq {p : Bool} (hp : p = true) (op : Operation) (r : Refusal) :
    require p op r s = .ok () s := by
  rw [require, if_pos hp]
  rfl

theorem demand_eq (a : α) : demand (some a) s = .ok a s := rfl

theorem unfrozen_eq (h : s.frozen = false) (op : Operation) : unfrozen op s = .ok () s :=
  require_eq (by rw [h]; rfl) op _

theorem partsOf_eq {i : NodeId} {x : Stored} (h : s.nodes.get? i = some x) :
    partsOf i s = .ok x.parts s := by
  rw [partsOf, bind_eq get_eq, Registry.parts?, h]
  rfl

theorem elementsOf_eq {q : NodeId} {p : Option NodeId} {es : List NodeId}
    (h : s.nodes.get? q = some ⟨p, .seq es⟩) : elementsOf q s = .ok es s := by
  rw [elementsOf, bind_eq (partsOf_eq h)]
  rfl

theorem forkOf_eq {k cond : NodeId} {p : Option NodeId} {cs : List NodeId}
    (h : s.nodes.get? k = some ⟨p, .fork (some cond) cs⟩) : forkOf k s = .ok (cond, cs) s := by
  rw [forkOf, bind_eq (partsOf_eq h)]
  rfl

theorem membersOf_eq {l : NodeId} {p : Option NodeId} {m : Members}
    (h : s.nodes.get? l = some ⟨p, .loop (some m)⟩) : membersOf l s = .ok m s := by
  rw [membersOf, bind_eq (partsOf_eq h)]
  rfl

theorem hasParent_eq {i : NodeId} {x : Stored} (h : s.nodes.get? i = some x) :
    hasParent i s = .ok x.parent.isSome s := by
  rw [hasParent, bind_eq get_eq, h]
  rfl

theorem placementOf_eq {i : NodeId} {place : Option (NodeId × Role)}
    (h : s.placement i = .ok place) : placementOf i s = .ok place s := by
  rw [placementOf, bind_eq get_eq, h]
  rfl

theorem setParts_eq (c : NodeId) (parts : Listing) :
    setParts c parts s = .ok () (s.setParts c parts) := rfl

theorem orphan_eq (c : NodeId) : orphan c s = .ok () (s.setParent c none) := rfl

theorem refTo_eq (i : NodeId) : refTo i s = .ok (s.refTo i) s := rfl

end Surgery

/-! ## Records -/

namespace Registry

variable (s : Registry) {i c : NodeId} {p : Option NodeId} {parts : Listing}

@[simp] theorem size_setParent : (s.setParent c p).nodes.size = s.nodes.size :=
  Arena.size_modify ..

@[simp] theorem size_setParts : (s.setParts c parts).nodes.size = s.nodes.size :=
  Arena.size_modify ..

@[simp] theorem get?_setParent (i : NodeId) : (s.setParent c p).nodes.get? i =
    (s.nodes.get? i).map fun x => if c = i then { x with parent := p } else x :=
  Arena.get?_modify_map ..

@[simp] theorem get?_setParts (i : NodeId) : (s.setParts c parts).nodes.get? i =
    (s.nodes.get? i).map fun x => if c = i then { x with parts := parts } else x :=
  Arena.get?_modify_map ..

end Registry

structure Registry.Alters (i : NodeId) (s s' : Registry) : Prop where
  handle : s'.handle = s.handle
  frozen : s'.frozen = s.frozen
  size : s'.nodes.size = s.nodes.size
  stored : (s'.nodes.get? i).isSome = (s.nodes.get? i).isSome
  rest : ∀ j, j ≠ i → s'.nodes.get? j = s.nodes.get? j

theorem Registry.alters_setParent (s : Registry) (i : NodeId) (p : Option NodeId) :
    s.Alters i (s.setParent i p) where
  handle := rfl
  frozen := rfl
  size := s.size_setParent
  stored := by simp
  rest j hj := by simp [hj.symm]

theorem Registry.alters_setParts (s : Registry) (i : NodeId) (parts : Listing) :
    s.Alters i (s.setParts i parts) where
  handle := rfl
  frozen := rfl
  size := s.size_setParts
  stored := by simp
  rest j hj := by simp [hj.symm]

/-! ## The way up -/

namespace Registry

variable {s : Registry} {p q c i : NodeId}

/-- The way up is the same where none of its components has got another parent. -/
theorem ancestors_congr {s' : Registry} {n : Nat} {way : List NodeId}
    (h : s.ancestors n i = some way)
    (hs : ∀ j ∈ way, (s'.nodes.get? j).map Stored.parent = (s.nodes.get? j).map Stored.parent)
    (hnone : ∀ j, s.nodes.get? j = none → s'.nodes.get? j = none) :
    s'.ancestors n i = some way := by
  induction n generalizing i way with
  | zero => cases h
  | succ n ih =>
    rw [ancestors] at h ⊢
    cases hx : s.nodes.get? i with
    | none =>
      rw [hx] at h
      rw [hnone i hx]
      exact h
    | some x =>
      obtain ⟨parent, parts⟩ := x
      rw [hx] at h
      cases parent with
      | none =>
        have hi := hs i (by cases h; exact List.mem_singleton_self i)
        rw [hx] at hi
        obtain ⟨⟨_, parts'⟩, hx', rfl⟩ := Option.map_eq_some_iff.mp hi
        rw [hx']
        exact h
      | some q =>
        obtain ⟨way, hway, rfl⟩ := Option.map_eq_some_iff.mp h
        have hi := hs i List.mem_cons_self
        rw [hx] at hi
        obtain ⟨⟨_, parts'⟩, hx', rfl⟩ := Option.map_eq_some_iff.mp hi
        rw [hx']
        change (s'.ancestors n q).map _ = _
        rw [ih hway fun j hj => hs j (List.mem_cons_of_mem i hj)]
        rfl

/-- A way up ends if each step stays where some number gets smaller. -/
theorem ancestors_of_rank {r : NodeId → Nat} {A : NodeId → Prop}
    (hstep : ∀ {i q parts}, A i → s.nodes.get? i = some ⟨some q, parts⟩ → r q < r i ∧ A q) :
    ∀ {n : Nat} {i : NodeId}, r i < n → A i → ∃ way, s.ancestors n i = some way ∧ ∀ j ∈ way, A j
  | 0, _, h, _ => absurd h (Nat.not_lt_zero _)
  | n+1, i, h, hi => by
    rw [ancestors]
    cases hx : s.nodes.get? i with
    | none => exact ⟨[], rfl, fun _ hj => nomatch hj⟩
    | some x =>
      obtain ⟨parent, parts⟩ := x
      cases parent with
      | none =>
        refine ⟨[i], rfl, fun j hj => ?_⟩
        rw [List.mem_singleton.mp hj]
        exact hi
      | some q =>
        obtain ⟨hrank, hq⟩ := hstep hi hx
        obtain ⟨way, hway, hall⟩ := ancestors_of_rank hstep
          (Nat.lt_of_lt_of_le hrank (Nat.le_of_lt_succ h)) hq
        refine ⟨i :: way, by change (s.ancestors n q).map _ = _; rw [hway]; rfl, fun j hj => ?_⟩
        rcases List.mem_cons.mp hj with rfl | hj
        · exact hi
        · exact hall j hj

def Clear (s : Registry) (p c : NodeId) : Prop :=
  ∃ way, s.ancestors (s.nodes.size + 1) p = some way ∧ c ∉ way

theorem Clear.of_root {parts : Listing} (hp : s.nodes.get? p = some ⟨none, parts⟩)
    (hne : c ≠ p) : s.Clear p c :=
  ⟨[p], by rw [ancestors, hp], fun hm => hne (List.mem_singleton.mp hm)⟩

theorem Clear.setParent {d : NodeId} (h : s.Clear p c) (hd : s.Clear p d) (q : Option NodeId) :
    (s.setParent d q).Clear p c := by
  obtain ⟨way, hway, hc⟩ := h
  obtain ⟨way', hway', hd⟩ := hd
  cases hway.symm.trans hway'
  refine ⟨way, ?_, hc⟩
  rw [size_setParent]
  refine ancestors_congr hway (fun j hj => ?_) fun j hj => by rw [get?_setParent, hj]; rfl
  have hne : d ≠ j := fun he => hd (he ▸ hj)
  rw [get?_setParent]
  simp [hne]

theorem Clear.setParts (h : s.Clear p c) (d : NodeId) (parts : Listing) :
    (s.setParts d parts).Clear p c := by
  obtain ⟨way, hway, hc⟩ := h
  refine ⟨way, ?_, hc⟩
  rw [size_setParts]
  refine ancestors_congr hway (fun j _ => ?_) fun j hj => by rw [get?_setParts, hj]; rfl
  rw [get?_setParts, Option.map_map]
  congr 1
  funext x
  simp only [Function.comp_apply]
  split <;> rfl

end Registry

/-- What has no parent and does not lie above `p` can be adopted by `p`. -/
theorem Surgery.adopt_eq {s : Registry} {p : NodeId} {c : ComponentRef} {parts : Listing}
    (howner : c.owner = s.handle) (hc : s.nodes.get? c.id = some ⟨none, parts⟩)
    (hkind : parts.kind ≠ .function) (h : s.Clear p c.id) :
    adopt p c s = .ok () (s.setParent c.id (some p)) := by
  obtain ⟨way, hway, hnot⟩ := h
  rw [adopt, bind_eq get_eq, bind_eq (require_eq (by simpa using howner) ..), hc,
    bind_eq (demand_eq _), bind_eq (require_eq (by simpa using hkind) ..),
    bind_eq (require_eq (p := Option.isNone none) rfl ..), hway]
  exact bind_eq (require_eq (by simpa using hnot) ..)

namespace Surgery

variable {s : Registry} {q k i cond : NodeId} {o : Option NodeId} {l r : List NodeId}
  {c : ComponentRef}

theorem insertable_length (l r : List NodeId) :
    (decide ((0 : Int) ≤ l.length) && decide ((l.length : Int) ≤ (l ++ r).length)) = true := by
  rw [Bool.and_eq_true, decide_eq_true_eq, decide_eq_true_eq, List.length_append]
  omega

theorem in_range_length (l r : List NodeId) (i : NodeId) :
    (decide ((0 : Int) ≤ l.length) && decide ((l.length : Int) < (l ++ i :: r).length)) = true := by
  rw [Bool.and_eq_true, decide_eq_true_eq, decide_eq_true_eq, List.length_append, List.length_cons]
  omega

theorem insert_eq (hu : s.frozen = false) (hq : s.nodes.get? q = some ⟨o, .seq (l ++ r)⟩)
    (hadopt : adopt q c s = .ok () (s.setParent c.id (some q))) (hne : c.id ≠ q) :
    insert q l.length c s = .ok ()
      ((s.setParent c.id (some q)).setParts q (.seq (l ++ c.id :: r))) := by
  have hq' : (s.setParent c.id (some q)).nodes.get? q = some ⟨o, .seq (l ++ r)⟩ := by
    simp [hq, hne]
  rw [Surgery.insert, bind_eq (unfrozen_eq hu _), bind_eq (elementsOf_eq hq),
    bind_eq (require_eq (insertable_length l r) ..), bind_eq hadopt, bind_eq (elementsOf_eq hq'),
    Int.toNat_natCast, insertIdx_append]
  rfl

theorem remove_eq (hu : s.frozen = false) (hq : s.nodes.get? q = some ⟨o, .seq (l ++ i :: r)⟩) :
    remove q l.length s = .ok i ((s.setParts q (.seq (l ++ r))).setParent i none) := by
  rw [remove, bind_eq (unfrozen_eq hu _), bind_eq (elementsOf_eq hq),
    bind_eq (require_eq (in_range_length l r i) ..), Int.toNat_natCast,
    List.getElem?_append_right (Nat.le_refl _), Nat.sub_self, List.getElem?_cons_zero,
    bind_eq (demand_eq _), List.eraseIdx_append_of_length_le (Nat.le_refl _), Nat.sub_self,
    List.eraseIdx_cons_zero]
  rfl

theorem addCase_eq (hu : s.frozen = false)
    (hk : s.nodes.get? k = some ⟨o, .fork (some cond) l⟩)
    (hadopt : adopt k c s = .ok () (s.setParent c.id (some k))) (hne : c.id ≠ k) :
    addCase k c s = .ok ()
      ((s.setParent c.id (some k)).setParts k (.fork (some cond) (l ++ [c.id]))) := by
  have hk' : (s.setParent c.id (some k)).nodes.get? k = some ⟨o, .fork (some cond) l⟩ := by
    simp [hk, hne]
  rw [addCase, bind_eq (unfrozen_eq hu _), bind_eq hadopt, bind_eq (forkOf_eq hk')]
  rfl

theorem removeCase_eq (hu : s.frozen = false)
    (hk : s.nodes.get? k = some ⟨o, .fork (some cond) (l ++ i :: r)⟩) :
    removeCase k l.length s = .ok i
      ((s.setParts k (.fork (some cond) (l ++ r))).setParent i none) := by
  rw [removeCase, bind_eq (unfrozen_eq hu _), bind_eq (forkOf_eq hk)]
  dsimp only
  rw [bind_eq (require_eq (in_range_length l r i) ..), Int.toNat_natCast,
    List.getElem?_append_right (Nat.le_refl _), Nat.sub_self, List.getElem?_cons_zero,
    bind_eq (demand_eq _), List.eraseIdx_append_of_length_le (Nat.le_refl _), Nat.sub_self,
    List.eraseIdx_cons_zero]
  rfl

theorem replace_eq (hu : s.frozen = false)
    (hq : s.nodes.get? q = some ⟨o, .seq (l ++ i :: r)⟩) (hne : i ≠ q) (hc : c.id ≠ q)
    (hadopt : adopt q c ((s.setParts q (.seq (l ++ r))).setParent i none) = .ok ()
      (((s.setParts q (.seq (l ++ r))).setParent i none).setParent c.id (some q))) :
    replace q l.length c s = .ok i ((((s.setParts q (.seq (l ++ r))).setParent i none).setParent
      c.id (some q)).setParts q (.seq (l ++ c.id :: r))) := by
  have hq' : ((s.setParts q (.seq (l ++ r))).setParent i none).nodes.get? q =
      some ⟨o, .seq (l ++ r)⟩ := by simp [hq, hne]
  rw [replace, bind_eq (remove_eq hu hq), bind_eq
    (insert_eq (s := (s.setParts q (.seq (l ++ r))).setParent i none) hu hq' hadopt hc)]
  rfl

theorem replaceCase_eq (hk : s.nodes.get? k = some ⟨o, .fork (some cond) (l ++ i :: r)⟩)
    (hadopt : adopt k c (s.setParent i none) = .ok ()
      ((s.setParent i none).setParent c.id (some k))) :
    replaceCase k l.length c s = .ok () (((s.setParent i none).setParent c.id (some k)).setParts k
      (.fork (some cond) (l ++ c.id :: r))) := by
  rw [replaceCase, bind_eq (forkOf_eq hk)]
  dsimp only
  rw [List.getElem?_append_right (Nat.le_refl _), Nat.sub_self, List.getElem?_cons_zero,
    bind_eq (demand_eq _), bind_eq (orphan_eq i), bind_eq hadopt,
    List.set_append_right _ _ (Nat.le_refl _), Nat.sub_self, List.set_cons_zero]
  rfl

theorem replaceCondition_eq (hk : s.nodes.get? k = some ⟨o, .fork (some cond) l⟩)
    (hadopt : adopt k c (s.setParent cond none) = .ok ()
      ((s.setParent cond none).setParent c.id (some k))) :
    replaceCondition k c s = .ok () (((s.setParent cond none).setParent c.id (some k)).setParts k
      (.fork (some c.id) l)) := by
  rw [replaceCondition, bind_eq (forkOf_eq hk)]
  dsimp only
  rw [bind_eq (orphan_eq cond), bind_eq hadopt]
  rfl

theorem setBody_eq (hu : s.frozen = false)
    (hroot : s.nodes.get? Func.rootId = some ⟨o, .function (some i)⟩)
    (hadopt : adopt Func.rootId c (s.setParent i none) = .ok ()
      ((s.setParent i none).setParent c.id (some Func.rootId))) :
    setBody c s = .ok () (((s.setParent i none).setParent c.id (some Func.rootId)).setParts
      Func.rootId (.function (some c.id))) := by
  have hbody : bodyOf s = .ok i s := by
    rw [bodyOf, bind_eq (partsOf_eq hroot)]
    rfl
  rw [setBody, bind_eq (unfrozen_eq hu _), bind_eq hbody, bind_eq (orphan_eq i),
    bind_eq hadopt]
  rfl

theorem replaceMember_eq {m : Members} {role : Role}
    (hl : s.nodes.get? k = some ⟨o, .loop (some m)⟩) (hrole : m.get? role = some i)
    (hcond : role ≠ .loopCondition) (hafter : role ≠ .after)
    (hadopt : adopt k c (s.setParent i none) = .ok ()
      ((s.setParent i none).setParent c.id (some k))) :
    replaceMember k role c s = .ok () (((s.setParent i none).setParent c.id (some k)).setParts k
      (.loop (some (m.set c.id role)))) := by
  rw [replaceMember, bind_eq (membersOf_eq hl), hrole]
  dsimp only
  rw [bind_eq (require_eq (by simp [hcond, hafter]) ..), bind_eq (orphan_eq i), bind_eq hadopt]
  rfl

end Surgery

/-! ## Trees -/

def Component.parts : Component → Listing
  | .block _ => .block
  | .seq _ elements => .seq (elements.map Component.id)
  | .fork _ cond cases => .fork (some cond) (cases.map Component.id)
  | .loop _ start cond body update after =>
    .loop (some ⟨start.id, cond, body.id, update.id, after⟩)

@[simp] theorem Component.listed_parts (c : Component) :
    c.parts.listed = c.children.map Component.id := by
  cases c <;> rfl

@[simp] theorem Component.kind_parts (c : Component) : c.parts.kind = c.kind := by cases c <;> rfl

/-- The records of a tree below the parent `p`. -/
inductive Registry.Shows (s : Registry) : Option NodeId → Component → Prop
  | intro {p : Option NodeId} {c : Component} (h : s.nodes.get? c.id = some ⟨p, c.parts⟩)
      (hc : ∀ d ∈ c.children, Shows s (some c.id) d) : Shows s p c

theorem Component.ids_of_child {c d : Component} {i : NodeId} (hd : d ∈ c.children)
    (hi : i ∈ d.ids) : i ∈ c.ids := by
  rw [ids_eq_cons]
  exact List.mem_cons_of_mem _ (mem_idsAll.mpr ⟨d, hd, hi⟩)

theorem Component.child_ne {c d : Component} {i : NodeId} (hn : c.ids.Nodup) (hd : d ∈ c.children)
    (hi : i ∈ d.ids) : i ≠ c.id := by
  rintro rfl
  rw [ids_eq_cons, List.nodup_cons] at hn
  exact hn.1 (mem_idsAll.mpr ⟨d, hd, hi⟩)

theorem Component.child_unique {c d e : Component} {i : NodeId} (hn : c.ids.Nodup)
    (hd : d ∈ c.children) (he : e ∈ c.children) (hi : i ∈ d.ids) (hi' : i ∈ e.ids) : d = e := by
  rw [ids_eq_cons, List.nodup_cons] at hn
  exact unique_of_nodup hn.2 hd he hi hi'

theorem Component.child_nodup {c d : Component} (hn : c.ids.Nodup) (hd : d ∈ c.children) :
    d.ids.Nodup := by
  obtain ⟨l, r, hl⟩ := List.append_of_mem hd
  rw [ids_eq_cons, hl, List.nodup_cons] at hn
  exact middle_nodup hn.2

namespace Registry.Shows

variable {s s' : Registry} {p q : Option NodeId} {c c' d e e' : Component} {l r : List Component}

theorem root (h : s.Shows p c) : s.nodes.get? c.id = some ⟨p, c.parts⟩ := by
  cases h with
  | intro h _ => exact h

theorem child (h : s.Shows p c) (hd : d ∈ c.children) : s.Shows (some c.id) d := by
  cases h with
  | intro _ h => exact h d hd

theorem parts? (h : s.Shows p c) : s.parts? c.id = some c.parts := by
  rw [Registry.parts?, h.root]
  rfl

theorem stored {i : NodeId} (h : s.Shows p c) (hi : i ∈ c.ids) : (s.nodes.get? i).isSome := by
  induction h with
  | @intro p c h _ ih =>
    rw [ids_eq_cons, List.mem_cons] at hi
    rcases hi with rfl | hi
    · rw [h]
      rfl
    · obtain ⟨d, hd, hi⟩ := mem_idsAll.mp hi
      exact ih d hd hi

theorem congr (h : s.Shows p c) (hs : ∀ i ∈ c.ids, s'.nodes.get? i = s.nodes.get? i) :
    s'.Shows p c := by
  induction h with
  | intro h _ ih =>
    exact ⟨(hs _ (id_mem_ids _)).trans h,
      fun d hd => ih d hd fun i hi => hs i (ids_of_child hd hi)⟩

theorem reparent (h : s.Shows p c) (hn : c.ids.Nodup)
    (hs : ∀ i ∈ c.ids, i ≠ c.id → s'.nodes.get? i = s.nodes.get? i)
    (hroot : s'.nodes.get? c.id = some ⟨q, c.parts⟩) : s'.Shows q c := by
  exact ⟨hroot, fun d hd => (h.child hd).congr fun i hi =>
    hs i (ids_of_child hd hi) (child_ne hn hd hi)⟩

theorem exchange (h : s.Shows p c) (hc : c.children = l ++ e :: r)
    (hc' : c'.children = l ++ e' :: r) (hid : c'.id = c.id) (hn : c.ids.Nodup)
    (hroot : s'.nodes.get? c.id = some ⟨p, c'.parts⟩) (he : s'.Shows (some c.id) e')
    (hs : ∀ i ∈ c.ids, i ∉ e.ids → i ≠ c.id → s'.nodes.get? i = s.nodes.get? i) :
    s'.Shows p c' := by
  refine ⟨hid ▸ hroot, fun d hd => hid ▸ ?_⟩
  rw [hc', List.mem_append, List.mem_cons] at hd
  have beside (hd : d ∈ l ∨ d ∈ r) : s'.Shows (some c.id) d := by
    have hchild : d ∈ c.children := by
      rw [hc, List.mem_append, List.mem_cons]
      exact hd.imp_right .inr
    refine (h.child hchild).congr fun i hi =>
      hs i (ids_of_child hchild hi) (fun hie => ?_) (child_ne hn hchild hi)
    rw [ids_eq_cons, hc, List.nodup_cons] at hn
    obtain ⟨hl, hr⟩ := beside_of_nodup hn.2 hie
    rcases hd with hd | hd
    · exact hl (mem_idsAll.mpr ⟨d, hd, hi⟩)
    · exact hr (mem_idsAll.mpr ⟨d, hd, hi⟩)
  rcases hd with hd | rfl | hd
  · exact beside (.inl hd)
  · exact he
  · exact beside (.inr hd)

theorem within (h : s.Shows p c) (hd : Within d c) : ∃ q, s.Shows q d := by
  induction hd generalizing p with
  | here => exact ⟨p, h⟩
  | element _ ih => exact ih (h.child (by simp [children]))
  | case _ ih => exact ih (h.child (by simp [children]))
  | start _ ih => exact ih (h.child (by simp [children]))
  | body _ ih => exact ih (h.child (by simp [children]))
  | update _ ih => exact ih (h.child (by simp [children]))

theorem modify {g : Component → Component} (h : s.Shows p c) (hd : Within d c) (hn : c.ids.Nodup)
    (hid : (g d).id = d.id) (hput : ∀ {q}, s.Shows q d → s'.Shows q (g d))
    (hs : ∀ i ∈ c.ids, i ∉ d.ids → s'.nodes.get? i = s.nodes.get? i) :
    s'.Shows p (c.modify d.id g) := by
  -- The part lies in a child, which keeps its number.
  have inside : ∀ {x x' c c' : Component} {l r : List Component} {p : Option NodeId},
      s.Shows p c → c.ids.Nodup → c.children = l ++ x :: r → c'.children = l ++ x' :: r →
      c'.id = c.id → c'.parts = c.parts → Within d x → s'.Shows (some c.id) x' →
      (∀ i ∈ c.ids, i ∉ d.ids → s'.nodes.get? i = s.nodes.get? i) → s'.Shows p c' := by
    intro x x' c c' l r p h hn hc hc' hid hparts hd hx hs
    have hx' : x ∈ c.children := by simp [hc]
    refine h.exchange hc hc' hid hn ?_ hx fun i hi hix _ =>
      hs i hi fun hid => hix (hd.mem_ids hid)
    rw [hs _ (id_mem_ids c) fun hm => child_ne hn hx' (hd.mem_ids hm) rfl, h.root, hparts]
  have keep : ∀ {x : Component}, Within d x → x.ids.Nodup → (x.modify d.id g).id = x.id := by
    intro x hd hn
    refine id_modify fun he => ?_
    rw [Within.unique .here hd hn he]
    exact hid
  have below : ∀ {x c : Component}, x ∈ c.children →
      (∀ i ∈ c.ids, i ∉ d.ids → s'.nodes.get? i = s.nodes.get? i) →
      ∀ i ∈ x.ids, i ∉ d.ids → s'.nodes.get? i = s.nodes.get? i :=
    fun hx hs i hi => hs i (ids_of_child hx hi)
  induction hd generalizing p with
  | here =>
    rw [modify_self]
    exact hput h
  | @element i l r x hd ih =>
    rw [modify_element hn fun _ => hd.mem_ids (id_mem_ids d)]
    have hx : x ∈ (Component.seq i (l ++ x :: r)).children := by simp [children]
    exact inside h hn rfl rfl rfl (by simp [parts, keep hd (element_nodup hn)]) hd
      (ih (h.child hx) (element_nodup hn) (below hx hs)) hs
  | @case i cond l r x hd ih =>
    rw [modify_case hn fun _ => hd.mem_ids (id_mem_ids d)]
    have hx : x ∈ (Component.fork i cond (l ++ x :: r)).children := by simp [children]
    refine inside (l := .block cond :: l) h hn rfl rfl rfl ?_ hd
      (ih (h.child hx) (case_nodup hn) (below hx hs)) hs
    simp [parts, keep hd (case_nodup hn)]
  | @start i cond after x body update hd ih =>
    have ha := apart_of_nodup hn
    rw [modify_start hn fun _ => hd.mem_ids (id_mem_ids d)]
    have hx : x ∈ (Component.loop i x cond body update after).children := by simp [children]
    refine inside (l := []) h hn rfl rfl rfl ?_ hd
      (ih (h.child hx) ha.start_nodup (below hx hs)) hs
    simp [parts, keep hd ha.start_nodup]
  | @body i cond after start x update hd ih =>
    have ha := apart_of_nodup hn
    rw [modify_body hn fun _ => hd.mem_ids (id_mem_ids d)]
    have hx : x ∈ (Component.loop i start cond x update after).children := by simp [children]
    refine inside (l := [start, .block cond]) h hn rfl rfl rfl ?_ hd
      (ih (h.child hx) ha.body_nodup (below hx hs)) hs
    simp [parts, keep hd ha.body_nodup]
  | @update i cond after start body x hd ih =>
    have ha := apart_of_nodup hn
    rw [modify_update hn fun _ => hd.mem_ids (id_mem_ids d)]
    have hx : x ∈ (Component.loop i start cond body x after).children := by simp [children]
    refine inside (l := [start, .block cond, body]) h hn rfl rfl rfl ?_ hd
      (ih (h.child hx) ha.update_nodup (below hx hs)) hs
    simp [parts, keep hd ha.update_nodup]

end Registry.Shows

end DefFlow.Flow
