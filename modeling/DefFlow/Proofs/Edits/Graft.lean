import DefFlow.Proofs.Edits.Reshape
import DefFlow.Proofs.Tree.Cut

/-!
# Putting components into the body

A component that was set aside is put into a sequence of the body, or into a new sequence
together with the component whose place that takes. Nothing but the trees changes on the
way.
-/

set_option autoImplicit false

namespace DefFlow.Flow

open Func Component

structure Planted (body : Component) (detached : List Component) (f f' : Func) : Prop
    extends Reroots f f' where
  body_eq : f'.body = body
  held : f'.bodyHeld = f.bodyHeld
  detached_eq : f'.detached = detached
  size : f.nodes.size ≤ f'.nodes.size

section

variable {f f' f'' : Func} {l r aside : List Component} {body c d e x taken : Component}
  {b p : NodeId} {ref : ComponentRef} {u : Unit} {root : Component}

theorem Planted.trans {body' : Component} {aside' : List Component}
    (h : Planted body aside f f') (h' : Planted body' aside' f' f'') :
    Planted body' aside' f f'' where
  toReroots := h.toReroots.trans h'.toReroots
  body_eq := h'.body_eq
  held := h'.held.trans h.held
  detached_eq := h'.detached_eq
  size := Nat.le_trans h.size h'.size

/-! ## Taking a component -/

theorem adoptable_ok (hrun : Edit.adoptable p ref f = .ok u f') : f' = f := by
  rw [Edit.adoptable, Edit.bind_eq Edit.get_eq] at hrun
  obtain ⟨_, hrun⟩ := Edit.require_bind_ok hrun
  obtain ⟨_, hrun⟩ := Edit.require_bind_ok hrun
  obtain ⟨_, hrun⟩ := Edit.require_bind_ok hrun
  exact (Edit.require_ok hrun).2

theorem find?_middle (hne : ∀ y ∈ l ++ r, y.id ≠ d.id) :
    (l ++ d :: r).find? (fun y => y.id = d.id) = some d := by
  rw [List.find?_append, List.find?_eq_none.mpr, Option.none_or, List.find?_cons_of_pos]
  · simp
  · intro y hy
    simpa using hne y (List.mem_append_left _ hy)

theorem filter_middle (hne : ∀ y ∈ l ++ r, y.id ≠ d.id) :
    (l ++ d :: r).filter (fun y => y.id ≠ d.id) = l ++ r := by
  rw [List.filter_append, List.filter_cons_of_neg (by simp), ← List.filter_append,
    List.filter_eq_self]
  intro y hy
  simpa using hne y hy

theorem adopt_ok (hd : f.detached = l ++ d :: r) (hne : ∀ y ∈ l ++ r, y.id ≠ d.id)
    (href : ref.id = d.id) (hrun : Edit.adopt p ref f = .ok taken f') :
    taken = d ∧ f' = { f with
      detached := l ++ r, generation := f.generation + 1, memo := [] } := by
  obtain ⟨_, f₁, hok, hrun⟩ := Edit.bind_ok hrun
  rw [adoptable_ok hok, Edit.bind_eq Edit.get_eq] at hrun
  cases hrun
  rw [href, hd]
  exact ⟨by rw [find?_middle hne]; rfl, by rw [filter_middle hne]⟩

/-! ## Elements of a sequence -/

theorem refTo_eq (b : NodeId) (f : Func) :
    Edit.refTo b f = .ok ⟨f.handle, b, ((f.find? b).map Component.kind).getD .function,
      f.label b⟩ f := rfl

theorem find?_of_body (h : f.body.find? b = some c) : f.find? b = some c := by
  rw [Func.find?, Func.trees, findAll?, h]
  rfl

theorem elementsOf_eq {s : NodeId} {es : List Component} (h : f.body.find? s = some (.seq s es)) :
    Edit.elementsOf s f = .ok es f := by
  rw [Edit.elementsOf, Edit.bind_eq Edit.get_eq, find?_of_body h]
  rfl

theorem planted_changeAt {g : Component → Component} (hb : b ∉ idsAll f.detached) :
    Edit.changeAt b g f = .ok () { f with body := f.body.modify b g } := by
  have h : modifyAll b g f.detached = f.detached := modifyAll_of_not_mem _ hb
  rw [show Edit.changeAt b g f = .ok () { f with
    body := f.body.modify b g, detached := modifyAll b g f.detached } from rfl, h]

theorem insertElement_ok {s : NodeId} {es : List Component} {i : Int}
    (hs : f.body.find? s = some (.seq s es)) (hout : s ∉ idsAll (l ++ r))
    (hd : f.detached = l ++ d :: r) (hne : ∀ y ∈ l ++ r, y.id ≠ d.id) (href : ref.id = d.id)
    (hrun : Edit.insertElement s i ref f = .ok u f') :
    Planted (f.body.modify s (Edit.setElements (es.insertIdx i.toNat d))) (l ++ r) f f' := by
  obtain ⟨_, hrun⟩ := Edit.unfrozen_bind_ok hrun
  rw [Edit.bind_eq (elementsOf_eq hs)] at hrun
  obtain ⟨_, hrun⟩ := Edit.require_bind_ok hrun
  obtain ⟨taken, f₁, htake, hrun⟩ := Edit.bind_ok hrun
  obtain ⟨rfl, rfl⟩ := adopt_ok hd hne href htake
  rw [Edit.bind_eq (elementsOf_eq (f := { f with
    detached := l ++ r, generation := f.generation + 1, memo := [] }) hs),
    planted_changeAt hout] at hrun
  cases hrun
  exact ⟨⟨rfl, rfl, fun _ => rfl, rfl, rfl, rfl⟩, rfl, rfl, rfl, Nat.le_refl _⟩

theorem appendElement_ok {s : NodeId} {es : List Component}
    (hs : f.body.find? s = some (.seq s es)) (hout : s ∉ idsAll (l ++ r))
    (hd : f.detached = l ++ d :: r) (hne : ∀ y ∈ l ++ r, y.id ≠ d.id) (href : ref.id = d.id)
    (hrun : Edit.appendElement s ref f = .ok u f') :
    Planted (f.body.modify s (Edit.setElements (es ++ [d]))) (l ++ r) f f' := by
  rw [Edit.appendElement, Edit.bind_eq (elementsOf_eq hs)] at hrun
  have h := insertElement_ok hs hout hd hne href hrun
  rwa [Int.toNat_natCast, List.insertIdx_length_self] at h

theorem newSequence_ok {q : NodeId} (hrun : Edit.newSequence [] f = .ok q f') :
    q = f.nodes.next ∧ f' = { f with
      nodes := f.nodes.skip, detached := f.detached ++ [.seq f.nodes.next []] } := by
  obtain ⟨_, hrun⟩ := Edit.unfrozen_bind_ok hrun
  cases hrun
  exact ⟨rfl, rfl⟩

/-! ## The place of a component -/

/-- The way to a component of the body starts at its parent, unless it is the body. -/
theorem parent?_cases {role : Role} (hb : b ∈ f.body.ids) (h : f.parent? b = some (p, role)) :
    (∃ rest, f.body.pathIn b = some ((p, role) :: rest)) ∨
      (role = .functionBody ∧ f.body.id = b) := by
  obtain ⟨path, hpath, hnil⟩ := pathIn_of_mem f.body hb
  have heq : f.path b = path := by
    rw [Func.path, Func.trees, List.findSome?_cons_of_isSome (by rw [hpath]; rfl), hpath]
    rfl
  rw [Func.parent?, heq] at h
  cases path with
  | nil =>
    dsimp only at h
    split at h
    · cases h
      exact Or.inr ⟨rfl, hnil rfl⟩
    · cases h
  | cons e rest =>
    cases h
    exact Or.inl ⟨rest, hpath⟩

/-- A component of the body plays a role in a part of it, or is the body. -/
theorem plays_or_body {role : Role} (hb : b ∈ f.body.ids) (h : f.parent? b = some (p, role)) :
    (∃ c, Within c f.body ∧ c.id = p ∧ c.Plays b role) ∨
      (role = .functionBody ∧ f.body.id = b) := by
  refine (parent?_cases hb h).imp_left ?_
  rintro ⟨rest, hpath⟩
  exact plays_of_pathIn f.body hpath

def Func.released (f : Func) : Func :=
  { f with bodyHeld := false, generation := f.generation + 1, memo := [] }

/-- The body is put back, or a tree that was set aside changes places with it. -/
theorem setBody_cases (hrun : Edit.setBody ref f = .ok u f') :
    (ref.owner = f.handle ∧ ref.id = f.body.id ∧ f' = { f with
      bodyHeld := true, generation := f.generation + 1 + 1, memo := [] }) ∨
    (¬ (ref.owner = f.handle ∧ ref.id = f.body.id) ∧ ∃ taken g,
      Edit.adopt rootId ref f.released = .ok taken g ∧
      f' = { g with body := taken, bodyHeld := true, detached := g.detached ++ [g.body] }) := by
  obtain ⟨_, hrun⟩ := Edit.unfrozen_bind_ok hrun
  rw [Edit.bind_eq Edit.get_eq] at hrun
  obtain ⟨_, f₁, h₁, hrun⟩ := Edit.bind_ok hrun
  cases h₁
  obtain ⟨_, f₂, h₂, hrun⟩ := Edit.bind_ok hrun
  cases h₂
  by_cases hself : ref.owner = f.handle ∧ ref.id = f.body.id
  · simp only [Bool.and_eq_true, decide_eq_true_eq, hself, and_self, if_true] at hrun
    cases hrun
    exact Or.inl ⟨hself.1, hself.2, rfl⟩
  · simp only [Bool.and_eq_true, decide_eq_true_eq, hself, if_false] at hrun
    obtain ⟨taken, g, htake, hrun⟩ := Edit.bind_ok hrun
    cases hrun
    exact Or.inr ⟨hself, taken, g, htake, rfl⟩

/-- A component is replaced as the body of the function or in its place below a parent. -/
theorem replaceInParent_cases (hc : f.find? c.id = some c)
    (hrun : Edit.replaceInParent c.id ref f = .ok u f') :
    (∃ p, f.parent? c.id = some (p, .functionBody) ∧ Edit.setBody ref f = .ok u f') ∨
    ∃ taken f₁, Edit.adopt c.id ref f = .ok taken f₁ ∧ (do
      Edit.changeAt c.id fun _ => taken
      Edit.orphan c : Edit Unit) f₁ = .ok u f' := by
  rw [Edit.replaceInParent, Edit.bind_eq Edit.get_eq, hc] at hrun
  dsimp only [Option.getD_some] at hrun
  rcases hparent : f.parent? c.id with _ | ⟨p, role⟩
  · rw [hparent] at hrun
    cases hrun
  by_cases hrole : role = .functionBody
  · rw [hparent, hrole] at hrun
    exact Or.inl ⟨p, hrole ▸ rfl, hrun⟩
  · have hrun : (do
        let taken ← Edit.adopt c.id ref
        Edit.changeAt c.id fun _ => taken
        Edit.orphan c : Edit Unit) f = .ok u f' := by
      rw [hparent] at hrun
      cases role <;> first | exact hrun | exact absurd rfl hrole
    exact Or.inr (Edit.bind_ok hrun)

theorem setBody_ok (hheld : f.bodyHeld = true) (hd : f.detached = l ++ e :: r)
    (hne : ∀ y ∈ l ++ r, y.id ≠ e.id) (hid : e.id ≠ f.body.id) (href : ref.id = e.id)
    (hrun : Edit.setBody ref f = .ok u f') : Planted e (l ++ r ++ [f.body]) f f' := by
  rcases setBody_cases hrun with ⟨-, hself, -⟩ | ⟨-, taken, g, htake, rfl⟩
  · exact absurd (href.symm.trans hself) hid
  · obtain ⟨rfl, rfl⟩ := adopt_ok (f := f.released) hd hne href htake
    exact ⟨⟨rfl, rfl, fun _ => rfl, rfl, rfl, rfl⟩, rfl, hheld.symm, rfl, Nat.le_refl _⟩

/-- A component of the body gives its place to one that was set aside. -/
theorem replaceInParent_ok (hheld : f.bodyHeld = true) (hc : f.body.find? c.id = some c)
    (hmem : c.id ∈ f.body.ids) (hout : c.id ∉ idsAll (l ++ r)) (hd : f.detached = l ++ e :: r)
    (hne : ∀ y ∈ l ++ r, y.id ≠ e.id) (hid : e.id ≠ f.body.id) (href : ref.id = e.id)
    (hrun : Edit.replaceInParent c.id ref f = .ok u f') :
    Planted (f.body.modify c.id fun _ => e) (l ++ r ++ [c]) f f' := by
  rcases replaceInParent_cases (find?_of_body hc) hrun with
    ⟨p, hparent, hset⟩ | ⟨taken, f₁, htake, hrun⟩
  · -- Only the body itself is held by the function.
    have hbody : f.body.id = c.id := by
      rcases plays_or_body hmem hparent with ⟨a, _, _, hplays⟩ | ⟨_, h⟩
      · cases a <;> cases hplays
      · exact h
    rw [← hbody, find?_self, Option.some.injEq] at hc
    subst hc
    rw [modify_self]
    exact setBody_ok hheld hd hne hid href hset
  · obtain ⟨rfl, rfl⟩ := adopt_ok hd hne href htake
    rw [Edit.bind_eq (planted_changeAt hout)] at hrun
    cases hrun
    exact ⟨⟨rfl, rfl, fun _ => rfl, rfl, rfl, rfl⟩, rfl, rfl, rfl, Nat.le_refl _⟩

/-! ## Beside a component -/

structure Stands (root d e : Component) (f : Func) : Prop where
  within : Within d root
  nodup : root.ids.Nodup
  body : f.body = root.modify d.id fun _ => e
  id : e.id = d.id
  path : f.body.pathIn d.id = root.pathIn d.id
  held : f.bodyHeld = true
  bounded : ∀ i : Nat, i ∈ root.ids ∨ i ∈ e.ids → i ≤ f.nodes.size

namespace Stands

theorem self (hw : Within d f.body) (hf : f.Forest) : Stands f.body d d f where
  within := hw
  nodup := hf.body_nodup
  body := (hw.modify_same hf.body_nodup).symm
  id := rfl
  path := rfl
  held := hf.held
  bounded i hi := (hf.bounded i (by
    rw [Func.trees, idsAll]
    exact List.mem_append_left _ (hi.elim (fun hm => hm) hw.mem_ids))).2

theorem find? (h : Stands root d e f) : f.body.find? e.id = some e := by
  rw [h.body]
  exact h.within.find?_modify h.nodup fun _ => h.id ▸ id_mem_ids d

theorem mem_ids (h : Stands root d e f) : e.id ∈ f.body.ids := by
  by_contra hn
  have := h.find?
  rw [find?_of_not_mem _ hn] at this
  cases this

theorem element (h : Stands root d e f) {s : NodeId} {i : Nat}
    (hp : f.parent? e.id = some (s, .element i)) :
    ∃ l r, l.length = i ∧ Within (.seq s (l ++ d :: r)) root ∧
      f.body = root.modify s fun _ => .seq s (l ++ e :: r) := by
  have hroot : ∃ rest, root.pathIn d.id = some ((s, .element i) :: rest) := by
    rcases parent?_cases h.mem_ids hp with hpath | ⟨hrole, _⟩
    · rwa [h.id, h.path] at hpath
    · cases hrole
  obtain ⟨rest, hroot⟩ := hroot
  obtain ⟨c, hc, hid, hplays⟩ := plays_of_pathIn root hroot
  cases c with
  | block _ => cases hplays
  | fork _ _ _ => cases hplays
  | loop _ _ _ _ _ _ => cases hplays
  | seq q es =>
    obtain ⟨a, ha, had⟩ := hplays
    obtain rfl : q = s := hid
    obtain ⟨l, r, rfl, hlen⟩ := append_of_getElem? ha
    have hin : Within a root := Within.trans (.element .here) hc
    obtain rfl : a = d := hin.unique h.within h.nodup had
    refine ⟨l, r, hlen, hc, ?_⟩
    rw [h.body, hc.modify_inside h.nodup (Within.mem_ids (.element .here) (id_mem_ids a)),
      modify_element (hc.nodup h.nodup) fun _ => id_mem_ids a, modify_self]
    rfl

theorem body_id (h : Stands root d e f) : f.body.id = root.id := by
  rw [h.body]
  exact id_modify fun hd => h.id.trans hd.symm

theorem next_not_mem (h : Stands root d e f) : f.nodes.next ∉ root.ids := fun hm =>
  absurd (h.bounded _ (Or.inl hm)) (Nat.not_succ_le_self _)

end Stands

/-- Where a component is put aside for a new sequence, which stands in its place. -/
theorem makeRoom_ok {α : Type} {k : NodeId → Edit α} {a : α}
    (h : Stands root d e f) (hout : e.id ∉ idsAll f.detached)
    (hbound : ∀ i : Nat, i ∈ idsAll f.detached → i ≤ f.nodes.size)
    (hrun : (do
      let seq ← Edit.newSequence []
      Edit.replaceInParent e.id (← Edit.refTo seq)
      k seq : Edit α) f = .ok a f') :
    ∃ f₁, Planted (root.modify d.id fun _ => .seq f.nodes.next []) (f.detached ++ [e]) f f₁ ∧
      f.nodes.next ≤ f₁.nodes.size ∧ k f.nodes.next f₁ = .ok a f' := by
  obtain ⟨q, f₁, hnew, hrun⟩ := Edit.bind_ok hrun
  obtain ⟨rfl, rfl⟩ := newSequence_ok hnew
  rw [Edit.bind_eq (refTo_eq _ _)] at hrun
  obtain ⟨_, f₂, hput, hrun⟩ := Edit.bind_ok hrun
  have hnext : ∀ y ∈ f.detached ++ [], y.id ≠ f.nodes.next := fun y hy hid => by
    rw [List.append_nil] at hy
    have hm : f.nodes.next ∈ idsAll f.detached := by
      obtain ⟨l, r, hlr⟩ := List.append_of_mem hy
      rw [hlr, idsAll_append, idsAll, ← hid]
      exact List.mem_append_right _ (List.mem_append_left _ (id_mem_ids y))
    exact absurd (hbound _ hm) (Nat.not_succ_le_self _)
  have hfresh : f.nodes.next ≠ f.body.id := fun hid =>
    h.next_not_mem (by rw [hid, h.body_id]; exact id_mem_ids _)
  have hplant := replaceInParent_ok (f := { f with
      nodes := f.nodes.skip, detached := f.detached ++ [.seq f.nodes.next []] }) (c := e)
    h.held h.find? h.mem_ids (by rwa [List.append_nil]) rfl hnext hfresh rfl hput
  rw [List.append_nil] at hplant
  have hbody : (f.body.modify e.id fun _ => .seq f.nodes.next []) =
      root.modify d.id fun _ => .seq f.nodes.next [] := by
    rw [h.body]
    exact h.within.modify_modify h.nodup fun _ => h.id ▸ id_mem_ids d
  have hsize : f.nodes.size + 1 ≤ f₂.nodes.size := by
    rw [← Arena.size_skip]
    exact hplant.size
  refine ⟨f₂, ⟨⟨hplant.handle, hplant.frozen, fun b => ?_, hplant.insts, hplant.timelines,
    hplant.incoming⟩, hplant.body_eq.trans hbody, hplant.held, hplant.detached_eq, ?_⟩, hsize,
    hrun⟩
  · exact (hplant.block b).trans (Arena.get?_skip _ b)
  · exact Nat.le_trans (Nat.le_succ _) hsize

theorem appendNew_ok {y : Component} {q : NodeId} {ys : List Component} (hw : Within d root)
    (hn : root.ids.Nodup) (hq : q ∉ root.ids)
    (hbody : f.body = root.modify d.id fun _ => .seq q ys) (hout : q ∉ idsAll (l ++ r))
    (hd : f.detached = l ++ y :: r) (hne : ∀ z ∈ l ++ r, z.id ≠ y.id) (href : ref.id = y.id)
    (hrun : Edit.appendElement q ref f = .ok u f') :
    Planted (root.modify d.id fun _ => .seq q (ys ++ [y])) (l ++ r) f f' := by
  have hfind : f.body.find? q = some (.seq q ys) := by
    rw [hbody]
    exact hw.find?_modify (y := .seq q ys) hn fun hm => absurd hm hq
  have h := appendElement_ok hfind hout hd hne href hrun
  have heq : (f.body.modify q (Edit.setElements (ys ++ [y]))) =
      root.modify d.id fun _ => .seq q (ys ++ [y]) := by
    rw [hbody]
    exact hw.modify_modify (y := .seq q ys) hn fun hm => absurd hm hq
  rwa [heq] at h

structure Aside (root x e : Component) (l r : List Component) (f : Func) : Prop where
  detached : f.detached = l ++ x :: r
  bounded : ∀ i : Nat, i ∈ idsAll f.detached → i ≤ f.nodes.size
  apart : ∀ i : Nat, i ∈ root.ids → i ∉ idsAll (l ++ r)
  others : ∀ y ∈ l ++ r, y.id ≠ x.id
  new : e.id ∉ x.ids

namespace Aside

theorem next_not_mem (h : Aside root x e l r f) : f.nodes.next ∉ idsAll f.detached := fun hm =>
  absurd (h.bounded _ hm) (Nat.not_succ_le_self _)

theorem out (h : Aside root x e l r f) (hs : Stands root d e f) : e.id ∉ idsAll f.detached := by
  have hm : e.id ∈ root.ids := by
    rw [hs.id]
    exact hs.within.mem_ids (id_mem_ids d)
  have := h.apart _ hm
  rw [idsAll_append, List.mem_append, not_or] at this
  rw [h.detached, idsAll_append, idsAll, List.mem_append, List.mem_append, not_or, not_or]
  exact ⟨this.1, h.new, this.2⟩

theorem id_ne (h : Aside root x e l r f) : x.id ≠ e.id := fun hid => h.new (hid ▸ id_mem_ids x)

end Aside

structure Beside (root d : Component) (cs l : List Component) (f f' : Func) : Prop where
  planted : Planted f'.body l f f'
  puts : ∃ new, Puts d cs root new f'.body ∧ new.Nodup ∧
    ∀ i ∈ new, f.nodes.size < i ∧ i ≤ f'.nodes.size

theorem mem_idsAll_of_mem {y : Component} (h : y ∈ l) : y.id ∈ idsAll l := by
  obtain ⟨s, t, rfl⟩ := List.append_of_mem h
  rw [idsAll_append, idsAll]
  exact List.mem_append_right _ (List.mem_append_left _ (id_mem_ids y))

def Names (x : Component) (m : Edit ComponentRef) : Prop :=
  ∀ g, ∃ ref, m g = .ok ref g ∧ ref.id = x.id

theorem names_refTo (x : Component) : Names x (Edit.refTo x.id) := fun _ => ⟨_, refTo_eq _ _, rfl⟩

theorem names_pure (h : ref.id = x.id) : Names x (pure ref) := fun _ => ⟨ref, rfl, h⟩

/-- The two components are put into the new sequence one after the other. -/
theorem appendBoth_ok {y z : Component} {q : NodeId} {s t : List Component}
    {my mz : Edit ComponentRef} (hw : Within d root) (hn : root.ids.Nodup) (hq : q ∉ root.ids)
    (hbody : f.body = root.modify d.id fun _ => .seq q []) (hd : f.detached = l ++ y :: r)
    (hout : q ∉ idsAll f.detached) (hne : ∀ x ∈ l ++ r, x.id ≠ y.id) (hz : l ++ r = s ++ z :: t)
    (hne' : ∀ x ∈ s ++ t, x.id ≠ z.id) (hmy : Names y my) (hmz : Names z mz)
    (hrun : (do
      Edit.appendElement q (← my)
      Edit.appendElement q (← mz) : Edit Unit) f = .ok u f') :
    Planted (root.modify d.id fun _ => .seq q [y, z]) (s ++ t) f f' := by
  have hout₁ : q ∉ idsAll (l ++ r) := by
    rw [hd, idsAll_append, idsAll] at hout
    rw [idsAll_append]
    simp only [List.mem_append, not_or] at hout ⊢
    exact ⟨hout.1, hout.2.2⟩
  have hout₂ : q ∉ idsAll (s ++ t) := by
    rw [hz, idsAll_append, idsAll] at hout₁
    rw [idsAll_append]
    simp only [List.mem_append, not_or] at hout₁ ⊢
    exact ⟨hout₁.1, hout₁.2.2⟩
  obtain ⟨_, hy, hidy⟩ := hmy f
  rw [Edit.bind_eq hy] at hrun
  obtain ⟨_, f₁, hfirst, hrun⟩ := Edit.bind_ok hrun
  have h₁ := appendNew_ok hw hn hq hbody hout₁ hd hne hidy hfirst
  obtain ⟨_, hz', hidz⟩ := hmz f₁
  rw [Edit.bind_eq hz'] at hrun
  have h₂ := appendNew_ok hw hn hq h₁.body_eq hout₂ (h₁.detached_eq.trans hz) hne' hidz hrun
  exact h₁.trans h₂

/-- A new sequence with the two components takes the place of one of them. -/
theorem wrapBoth_ok {y z : Component} {s t p q : List Component}
    {my mz : Edit ComponentRef} (h : Stands root d e f) (ha : Aside root x e l r f)
    (hy : f.detached ++ [e] = s ++ y :: t) (hney : ∀ a ∈ s ++ t, a.id ≠ y.id)
    (hz : s ++ t = p ++ z :: q) (hnez : ∀ a ∈ p ++ q, a.id ≠ z.id) (hrest : p ++ q = l ++ r)
    (hmy : Names y my) (hmz : Names z mz)
    (hrun : (do
      let seq ← Edit.newSequence []
      Edit.replaceInParent e.id (← Edit.refTo seq)
      Edit.appendElement seq (← my)
      Edit.appendElement seq (← mz) : Edit Unit) f = .ok u f') :
    Beside root d [y, z] (l ++ r) f f' := by
  obtain ⟨f₁, hroom, hsize, hrun⟩ := makeRoom_ok h (ha.out h) ha.bounded hrun
  have hout : f.nodes.next ∉ idsAll f₁.detached := by
    rw [hroom.detached_eq, idsAll_append, List.mem_append, idsAll_singleton, not_or]
    exact ⟨ha.next_not_mem, fun hm => absurd (h.bounded _ (Or.inr hm)) (Nat.not_succ_le_self _)⟩
  have hboth := appendBoth_ok h.within h.nodup h.next_not_mem hroom.body_eq
    (hroom.detached_eq.trans hy) hout hney hz hnez hmy hmz hrun
  rw [hrest] at hboth
  refine ⟨?_, [f.nodes.next], ?_, List.nodup_singleton _, fun i hi => ?_⟩
  · exact hboth.body_eq ▸ hroom.trans hboth
  · rw [hboth.body_eq]
    exact .wrapped _ h.within
  · rw [List.mem_singleton] at hi
    exact ⟨hi ▸ Nat.lt_succ_self _, hi ▸ Nat.le_trans hsize hboth.size⟩

/-- The component and the one beside it are told apart from all others set aside. -/
theorem Aside.others_of (ha : Aside root x e l r f) (h : Stands root d e f) :
    (∀ a ∈ l ++ (r ++ [e]), a.id ≠ x.id) ∧ ∀ a ∈ l ++ r, a.id ≠ e.id := by
  have hm : e.id ∈ root.ids := by
    rw [h.id]
    exact h.within.mem_ids (id_mem_ids d)
  refine ⟨fun a ha' => ?_, fun a ha' hid => ?_⟩
  · rw [← List.append_assoc, List.mem_append, List.mem_singleton] at ha'
    rcases ha' with ha' | rfl
    · exact ha.others a ha'
    · exact ha.id_ne.symm
  · exact ha.apart _ hm (hid ▸ mem_idsAll_of_mem ha')

theorem wrapBefore_ok {mx me : Edit ComponentRef} (h : Stands root d e f)
    (ha : Aside root x e l r f) (hmx : Names x mx) (hme : Names e me)
    (hrun : (do
      let seq ← Edit.newSequence []
      Edit.replaceInParent e.id (← Edit.refTo seq)
      Edit.appendElement seq (← mx)
      Edit.appendElement seq (← me) : Edit Unit) f = .ok u f') :
    Beside root d [x, e] (l ++ r) f f' := by
  obtain ⟨hx, he⟩ := ha.others_of h
  refine wrapBoth_ok h ha (s := l) (t := r ++ [e]) (p := l ++ r) (q := []) ?_ hx ?_ ?_ ?_ hmx hme
    hrun
  · rw [ha.detached, List.append_assoc, List.cons_append]
  · rw [List.append_assoc]
  · rwa [List.append_nil]
  · rw [List.append_nil]

theorem wrapBehind_ok {mx me : Edit ComponentRef} (h : Stands root d e f)
    (ha : Aside root x e l r f) (hmx : Names x mx) (hme : Names e me)
    (hrun : (do
      let seq ← Edit.newSequence []
      Edit.replaceInParent e.id (← Edit.refTo seq)
      Edit.appendElement seq (← me)
      Edit.appendElement seq (← mx) : Edit Unit) f = .ok u f') :
    Beside root d [e, x] (l ++ r) f f' := by
  obtain ⟨_, he⟩ := ha.others_of h
  refine wrapBoth_ok h ha (s := f.detached) (t := []) (p := l) (q := r) rfl (fun a hm => ?_) ?_
    ha.others rfl hme hmx hrun
  · rw [List.append_nil, ha.detached, List.mem_append, List.mem_cons] at hm
    rcases hm with hm | rfl | hm
    · exact he a (List.mem_append_left _ hm)
    · exact ha.id_ne
    · exact he a (List.mem_append_right _ hm)
  · rw [List.append_nil, ha.detached]

theorem insertBefore_eq (t : NodeId) :
    (∃ s i, f.parent? t = some (s, .element i) ∧
      Edit.insertBefore t ref f = Edit.insertElement s i ref f) ∨
    Edit.insertBefore t ref f = (do
      let seq ← Edit.newSequence []
      Edit.replaceInParent t (← Edit.refTo seq)
      Edit.appendElement seq (← pure ref)
      Edit.appendElement seq (← Edit.refTo t) : Edit Unit) f := by
  rw [Edit.insertBefore, Edit.bind_eq Edit.get_eq]
  rcases f.parent? t with _ | ⟨s, role⟩
  · exact Or.inr rfl
  · cases role <;> first | exact Or.inl ⟨s, _, rfl, rfl⟩ | exact Or.inr rfl

theorem insertAfter_eq (t : NodeId) :
    (∃ s i, f.parent? t = some (s, .element i) ∧
      Edit.insertAfter t ref f = Edit.insertElement s (i + 1 : Nat) ref f) ∨
    Edit.insertAfter t ref f = (do
      let seq ← Edit.newSequence []
      Edit.replaceInParent t (← Edit.refTo seq)
      Edit.appendElement seq (← Edit.refTo t)
      Edit.appendElement seq (← pure ref) : Edit Unit) f := by
  rw [Edit.insertAfter, Edit.bind_eq Edit.get_eq]
  rcases f.parent? t with _ | ⟨s, role⟩
  · exact Or.inr rfl
  · cases role <;> first | exact Or.inl ⟨s, _, rfl, rfl⟩ | exact Or.inr rfl

/-- A component is put into the sequence of another one, before or behind it. -/
theorem insertBeside_ok {s : NodeId} {i k : Nat} {cs : List Component}
    (h : Stands root d e f) (ha : Aside root x e l r f) (href : ref.id = x.id)
    (hp : f.parent? e.id = some (s, .element i))
    (hcs : ∀ l' r' : List Component, l'.length = i →
      (l' ++ e :: r').insertIdx k x = l' ++ (cs ++ r'))
    (hrun : Edit.insertElement s k ref f = .ok u f') : Beside root d cs (l ++ r) f f' := by
  obtain ⟨l', r', hlen, hin, hbody⟩ := h.element hp
  have hs : s ∈ (Component.seq s (l' ++ d :: r')).ids := by
    rw [ids]
    exact List.mem_cons_self
  have hfind : f.body.find? s = some (.seq s (l' ++ e :: r')) := by
    rw [hbody]
    exact hin.find?_modify (y := .seq s (l' ++ e :: r')) h.nodup fun _ => hs
  have hplant := insertElement_ok hfind (ha.apart s (hin.mem_ids hs)) ha.detached ha.others href
    hrun
  have heq : (f.body.modify s (Edit.setElements ((l' ++ e :: r').insertIdx k x))) =
      root.modify s fun _ => .seq s (l' ++ (cs ++ r')) := by
    rw [hbody, hcs l' r' hlen]
    exact hin.modify_modify (y := .seq s (l' ++ e :: r')) h.nodup fun _ => hs
  rw [Int.toNat_natCast, heq] at hplant
  exact ⟨hplant.body_eq ▸ hplant, [], hplant.body_eq ▸ .spliced hin, List.nodup_nil,
    fun i hi => by cases hi⟩

theorem insertBefore_ok (h : Stands root d e f) (ha : Aside root x e l r f) (href : ref.id = x.id)
    (hrun : Edit.insertBefore e.id ref f = .ok u f') : Beside root d [x, e] (l ++ r) f f' := by
  rcases @insertBefore_eq f ref e.id with ⟨s, i, hp, heq⟩ | heq
  · rw [heq] at hrun
    refine insertBeside_ok h ha href hp (fun l' r' hlen => ?_) hrun
    rw [← hlen, insertIdx_append]
    rfl
  · rw [heq] at hrun
    exact wrapBefore_ok h ha (names_pure href) (names_refTo e) hrun

theorem insertAfter_ok (h : Stands root d e f) (ha : Aside root x e l r f) (href : ref.id = x.id)
    (hrun : Edit.insertAfter e.id ref f = .ok u f') : Beside root d [e, x] (l ++ r) f f' := by
  rcases @insertAfter_eq f ref e.id with ⟨s, i, hp, heq⟩ | heq
  · rw [heq] at hrun
    refine insertBeside_ok h ha href hp (fun l' r' hlen => ?_) hrun
    rw [List.append_cons, ← hlen, show l'.length + 1 = (l' ++ [e]).length by simp,
      insertIdx_append, List.append_assoc]
    rfl
  · rw [heq] at hrun
    exact wrapBehind_ok h ha (names_pure href) (names_refTo e) hrun

end

end DefFlow.Flow
