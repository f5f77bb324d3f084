import DefFlow.Proofs.Registry.Places
import DefFlow.Proofs.Tree.Simple

/-!
# Flattening, one record at a time

A flattening dissolves structures in the trees while others are in hand. What stands in one place is
exchanged, again and again, until it has the flat form of the component that stood there first.
-/

set_option autoImplicit false

namespace DefFlow.Flow

open Func Component

section

variable {s : Registry} {f : Func} {m n q k cond w : NodeId} {c d : Component}
  {l r cs hand : List Component} {K : Component → Func} {held : Bool}
  {again : NodeId → Surgery NodeId}

/-! ## Sequences among the elements of a sequence -/

theorem moveInto_tracks (hK : Place K held) (hu : ∀ c, (K c).frozen = false)
    (h : s.Tracks (cs ++ hand) (K (.seq q (l ++ r))))
    (hcs : ∀ c ∈ cs, ∃ o, s.nodes.get? c.id = some ⟨o, c.parts⟩) :
    ∃ s', Surgery.moveInto q l.length (cs.map Component.id) s = .ok () s' ∧
      s'.Tracks hand (K (.seq q (l ++ cs ++ r))) ∧
      ∀ i ∈ idsAll hand, s'.nodes.get? i = s.nodes.get? i := by
  induction cs generalizing s l with
  | nil => exact ⟨s, rfl, by rwa [List.append_nil], fun _ _ => rfl⟩
  | cons c cs ih =>
    obtain ⟨o, hc⟩ := hcs c List.mem_cons_self
    have h₁ : (s.setParent c.id none).Tracks (cs ++ hand) ((K (.seq q (l ++ r))).aside c) :=
      h.orphan hc
    obtain ⟨s₂, hrun, h₂, hframe⟩ := place_insert_tracks hK h₁ (hu _)
    have hn := h.stocked.nodup
    rw [List.cons_append, List.cons_append, idsAll, List.nodup_append] at hn
    have hkeep : ∀ i ∈ idsAll (cs ++ hand), s₂.nodes.get? i = s.nodes.get? i := fun i hi => by
      have hne : c.id ≠ i := hn.2.2 _ (id_mem_ids c) i (by
        rw [idsAll_append]
        exact List.mem_append_left _ hi)
      rw [hframe i hi, Registry.get?_setParent]
      simp [hne]
    rw [List.append_cons l c r] at h₂
    obtain ⟨s₃, hrest, h₃, hframe₃⟩ := ih h₂ fun d hd => by
      rw [hkeep d.id (mem_idsAll_of_mem (List.mem_append_left _ hd))]
      exact hcs d (List.mem_cons_of_mem _ hd)
    refine ⟨s₃, ?_, by rwa [← List.append_cons l c cs] at h₃, fun i hi => ?_⟩
    · rw [List.length_append] at hrest
      rw [List.map_cons, Surgery.moveInto, Surgery.bind_eq (Surgery.orphan_eq _),
        Surgery.bind_eq (Surgery.refTo_eq _), Surgery.bind_eq hrun]
      exact hrest
    · rw [hframe₃ i hi, hkeep i (by
        rw [idsAll_append]
        exact List.mem_append_right _ hi)]

theorem spliceFrom_tracks (hK : Place K held) (hu : ∀ c, (K c).frozen = false)
    (h : s.Tracks [] (K (.seq q (l ++ cs)))) :
    ∃ s', Surgery.spliceFrom q l.length (cs.map Component.id) s = .ok () s' ∧
      s'.Tracks [] (K (.seq q (l ++ cs.flatMap Component.spliced))) := by
  induction cs generalizing s l with
  | nil => exact ⟨s, rfl, h⟩
  | cons c cs ih =>
    obtain ⟨o, ho⟩ := h.part h.forest ((hK.element q l cs).part c)
    rw [List.map_cons, Surgery.spliceFrom, Surgery.bind_eq (Surgery.partsOf_eq ho.root)]
    have skip (hc : c.spliced = [c]) : ∃ s', Surgery.spliceFrom q (l.length + 1)
        (cs.map Component.id) s = .ok () s' ∧
          s'.Tracks [] (K (.seq q (l ++ (c :: cs).flatMap Component.spliced))) := by
      rw [List.append_cons] at h
      obtain ⟨s', hrun, ht⟩ := ih h
      rw [List.length_append] at hrun
      exact ⟨s', hrun, by rwa [List.flatMap_cons, hc, ← List.append_assoc]⟩
    cases c with
    | seq i inner =>
      obtain ⟨s₁, hremove, h₁⟩ := place_remove_tracks hK hu h
      have hroot : s₁.nodes.get? i = some ⟨none, .seq (inner.map Component.id)⟩ :=
        (h₁.detached _ (List.mem_append_right _ List.mem_cons_self)).root
      have h₂ : (s₁.setParts i (.seq [])).Tracks (inner ++ [.seq i []]) (K (.seq q (l ++ cs))) :=
        (h₁.take.alter List.mem_cons_self
            (s₁.alters_setParts i (.seq []))).dissolve Kind.noConfusion
      have hparts : ∀ c ∈ inner, ∃ o, (s₁.setParts i (.seq [])).nodes.get? c.id =
          some ⟨o, c.parts⟩ := fun c hc => by
        have hshow := (h₁.detached _ (List.mem_append_right _ List.mem_cons_self)).child hc
        have hne : i ≠ c.id := (child_ne (h₁.stocked.nodup_of_mem (c := .seq i inner)
          (List.mem_cons_of_mem _ (List.mem_append_right _ List.mem_cons_self))) hc
            (id_mem_ids c)).symm
        refine ⟨some i, ?_⟩
        rw [Registry.get?_setParts, hshow.root, Option.map_some, if_neg hne]
        rfl
      obtain ⟨s₃, hmove, h₃, hframe⟩ := moveInto_tracks hK hu h₂ hparts
      obtain ⟨s₄, hdrop, h₄, -⟩ := h₃.drop (P := .seq [])
        ((hframe i (List.mem_singleton_self i)).trans (by simp [hroot]))
      obtain ⟨s₅, hrest, h₅⟩ := ih h₄
      refine ⟨s₅, ?_, by rwa [List.flatMap_cons, ← List.append_assoc]⟩
      rw [List.length_append] at hrest
      dsimp only [Component.parts]
      rw [Surgery.bind_eq hremove, Surgery.bind_eq (Surgery.setParts_eq ..), List.length_map]
      exact (Surgery.bind_eq hmove).trans ((Surgery.bind_eq hdrop).trans hrest)
    | block => exact skip rfl
    | fork => exact skip rfl
    | loop => exact skip rfl

/-! ## The parts of a structure -/

def Func.relaid (K : Component → Func) (flat : Component × NodeId) : Func :=
  (K flat.1).upTo flat.2

def Flattens (again : NodeId → Surgery NodeId) (w : Nat) : Prop :=
  ∀ {K : Component → Func} {held : Bool} {s : Registry} {c : Component}, Place K held →
    (∀ c, (K c).frozen = false) → s.Tracks [] (K c) → c.weight < w →
      ∃ s', again c.id s = .ok (c.flatten held (K c).nodes.next).1.id s' ∧
        s'.Tracks [] (relaid K (c.flatten held (K c).nodes.next))

theorem relaid_upTo (hK : Place K held) (hm : (K c).nodes.next ≤ m) (hn : m ≤ n) :
    relaid (fun c => (K c).upTo m) (d, n) = relaid K (d, n) :=
  upTo_upTo (hK.nodes c d ▸ hm) hn

theorem flattenFrom_tracks {H : List Component → Component} {parts : Surgery (List NodeId)}
    (hH : ∀ {K : Component → Func} {held : Bool}, Place K held → ∀ l r,
      Place (fun e => K (H (l ++ e :: r))) true)
    (hparts : ∀ {K : Component → Func} {held : Bool} {s : Registry} {cs : List Component},
      Place K held → s.Tracks [] (K (H cs)) → parts s = .ok (cs.map Component.id) s)
    (hagain : Flattens again w) (hK : Place K held) (hu : ∀ c, (K c).frozen = false)
    (h : s.Tracks [] (K (H (l ++ cs)))) (hw : ∀ c ∈ cs, c.weight < w)
    (hn : (K (H (l ++ cs))).nodes.next = n) :
    ∃ s', ((List.range' l.length cs.length).forM fun i => do
        let _ ← again (← Surgery.demand (← parts)[i]?)) s = .ok () s' ∧
      s'.Tracks [] (relaid K (H (l ++ (flattenAll n cs).1), (flattenAll n cs).2)) := by
  induction cs generalizing s l K n with
  | nil =>
    rw [flattenAll, relaid, ← hn, upTo_next]
    exact ⟨s, rfl, h⟩
  | cons c cs ih =>
    obtain ⟨s₁, hrun, h₁⟩ := hagain (hH hK l cs) (fun c => hu _) h (hw c List.mem_cons_self)
    rw [show (K (H (l ++ c :: cs))).nodes.next = n from hn] at hrun h₁
    have hm : n ≤ (c.flatten true n).2 := le_flatten true n c
    have hnext : ((K (H (l ++ [(c.flatten true n).1] ++ cs))).upTo
        (c.flatten true n).2).nodes.next =
        (c.flatten true n).2 := next_upTo (by rw [hK.nodes _ (H (l ++ c :: cs)), hn]; exact hm)
    obtain ⟨s₂, hrest, h₂⟩ := ih (hK.upTo (c.flatten true n).2) (fun c => hu c)
      (l := l ++ [(c.flatten true n).1]) (by rwa [← List.append_cons])
      (fun d hd => hw d (List.mem_cons_of_mem _ hd)) hnext
    rw [relaid_upTo hK (c := H (l ++ c :: cs)) (hn ▸ hm) (le_flattenAll _ cs)] at h₂
    refine ⟨s₂, ?_, ?_⟩
    · have hget : ((l ++ c :: cs).map Component.id)[l.length]? = some c.id := by simp
      have hstep : (do
          let _ ← again (← Surgery.demand (← parts)[l.length]?) : Surgery PUnit) s = .ok ⟨⟩ s₁ := by
        rw [Surgery.bind_eq (hparts hK h), hget, Surgery.bind_eq (Surgery.demand_eq _),
          Surgery.bind_eq hrun]
        rfl
      rw [List.length_append] at hrest
      rw [List.length_cons, List.range'_succ]
      exact (Surgery.bind_eq hstep).trans hrest
    · rwa [flattenAll, List.append_cons]

theorem flattenEach_tracks {H : List Component → Component} {parts : Surgery (List NodeId)}
    (hH : ∀ {K : Component → Func} {held : Bool}, Place K held → ∀ l r,
      Place (fun e => K (H (l ++ e :: r))) true)
    (hparts : ∀ {K : Component → Func} {held : Bool} {s : Registry} {cs : List Component},
      Place K held → s.Tracks [] (K (H cs)) → parts s = .ok (cs.map Component.id) s)
    (hagain : Flattens again w) (hK : Place K held) (hu : ∀ c, (K c).frozen = false)
    (h : s.Tracks [] (K (H cs))) (hw : ∀ c ∈ cs, c.weight < w) :
    ∃ s', Surgery.flattenEach again parts cs.length s = .ok () s' ∧
      s'.Tracks [] (relaid K (H (flattenAll (K (H cs)).nodes.next cs).1,
        (flattenAll (K (H cs)).nodes.next cs).2)) := by
  obtain ⟨s', hrun, ht⟩ := flattenFrom_tracks (l := []) hH hparts hagain hK hu h hw rfl
  refine ⟨s', ?_, ht⟩
  rw [Surgery.flattenEach, List.range_eq_range']
  exact hrun

/-! ## Sequences -/

theorem collapse_cases (held : Bool) (q : NodeId) (cs : List Component) :
    (∃ c, cs = [c] ∧ held = true ∧ collapse held q cs = c) ∨
      ((decide (cs.length = 1) && held) = false ∧ collapse held q cs = .seq q cs) := by
  match held, cs with
  | true, [c] => exact .inl ⟨c, rfl, rfl, rfl⟩
  | true, [] => exact .inr ⟨rfl, rfl⟩
  | true, c :: d :: cs => exact .inr ⟨by simp, rfl⟩
  | false, cs => exact .inr ⟨by simp, rfl⟩

theorem flattenSequence_tracks (hagain : Flattens again w) (hK : Place K held)
    (hu : ∀ c, (K c).frozen = false) (h : s.Tracks [] (K (.seq q cs)))
    (hw : (Component.seq q cs).weight ≤ w) :
    ∃ s', Surgery.flattenSequence again q s =
        .ok ((Component.seq q cs).flatten held (K (.seq q cs)).nodes.next).1.id s' ∧
      s'.Tracks [] (relaid K ((Component.seq q cs).flatten held (K (.seq q cs)).nodes.next)) := by
  obtain ⟨s₁, heach, h₁⟩ := flattenEach_tracks (H := Component.seq q)
    (fun hK => hK.element q) place_elementsOf hagain hK hu h
    (fun c hc => Nat.lt_of_lt_of_le (Nat.lt_succ_of_le (weight_le_of_mem hc)) hw)
  rw [flatten]
  dsimp only
  generalize flattenAll (K (.seq q cs)).nodes.next cs = flat at h₁
  obtain ⟨ds, n⟩ := flat
  have hK₁ := hK.upTo n
  have hu₁ : ∀ c, ((K c).upTo n).frozen = false := hu
  have h₁ : s₁.Tracks [] ((K (.seq q ds)).upTo n) := h₁
  obtain ⟨s₂, hsplice, h₂⟩ := spliceFrom_tracks (l := []) hK₁ hu₁ h₁
  rw [List.length_nil] at hsplice
  have h₂ : s₂.Tracks [] ((K (.seq q (ds.flatMap Component.spliced))).upTo n) := h₂
  have hheld : Surgery.hasParent q s₂ = .ok held s₂ := place_hasParent_tracks hK₁ h₂
  rw [Surgery.flattenSequence, Surgery.bind_eq (place_elementsOf hK h), List.length_map,
    Surgery.bind_eq heach,
    Surgery.bind_eq (place_elementsOf hK₁ h₁), Surgery.bind_eq hsplice,
    Surgery.bind_eq (place_elementsOf hK₁ h₂), Surgery.bind_eq hheld, List.length_map]
  rcases collapse_cases held q (ds.flatMap Component.spliced) with ⟨c, hc, rfl, hflat⟩ | ⟨hp, hflat⟩
  · rw [hc] at h₂ hflat ⊢
    rw [hflat]
    obtain ⟨s₃, hremove, h₃⟩ := place_remove_tracks (l := []) (r := []) hK₁ hu₁ h₂
    obtain ⟨s₄, hput, h₄⟩ := place_exchange_tracks hK₁ hu₁ h₃
    obtain ⟨s₅, hrelease, h₅⟩ := release_tracks h₄
    refine ⟨s₅, ?_, h₅⟩
    rw [if_pos (by rfl)]
    exact (Surgery.bind_eq hremove).trans ((Surgery.bind_eq (Surgery.refTo_eq _)).trans
      ((Surgery.bind_eq hput).trans (Surgery.bind_eq hrelease)))
  · rw [hflat, hp]
    exact ⟨s₂, rfl, h₂⟩

/-! ## Forks with at most one case -/

theorem withSequence_eq (f : Func) :
    f.withSequence = (f.upTo (f.nodes.next + 1)).aside (.seq f.nodes.next []) := by
  rw [withSequence, upTo, Nat.add_sub_cancel_left]
  rfl

theorem newSequence_aside_tracks (h : s.Tracks [] f) (hu : f.frozen = false) :
    ∃ s', Surgery.newSequence [] s = .ok f.nodes.next s' ∧
      s'.Tracks [] ((f.upTo (f.nodes.next + 1)).aside (.seq f.nodes.next [])) := by
  rw [← withSequence_eq]
  exact newSequence_tracks h (newSequence_eq hu)

theorem unfork_single_tracks (hK : Place K true) (hu : ∀ c, (K c).frozen = false)
    (h : s.Tracks [] (K (.fork k cond [c]))) (hn : (K (.fork k cond [c])).nodes.next = n) :
    ∃ s₁ s₂, Surgery.unfork k cond true s = .ok n s₁ ∧
      Surgery.release k (s₁.setParts k (.fork none [])) = .ok () s₂ ∧
      s₂.Tracks [] ((K (.seq n [.block cond, c])).upTo (n + 1)) := by
  obtain ⟨s₁, hremove, h₁⟩ := orphanCase_tracks (l := []) (r := []) h (hu _) (hK.part _)
  have h₁ : s₁.Tracks [] ((K (.fork k cond [])).aside c) :=
    hK.put (c := .fork k cond [c]) (Edit.setCases []) h.stocked.trees_nodup ▸ h₁
  obtain ⟨s₂, hnew, h₂⟩ := newSequence_aside_tracks h₁ (hu _)
  have hn' : ((K (.fork k cond [])).aside c).nodes.next = n := by
    rw [Func.aside, hK.nodes _ (.fork k cond [c]), hn]
  rw [hn'] at hnew h₂
  have hK₁ := (hK.aside c).upTo (n + 1)
  have hK₂ := hK.upTo (n + 1)
  obtain ⟨s₃, hput, h₃⟩ := place_exchange_tracks hK₁ hu h₂
  -- The fork is taken to pieces, and its condition leaves it.
  have hfork := h₃.detached _ (List.mem_append_right _ List.mem_cons_self)
  have hcond : s₃.nodes.get? cond = some ⟨some k, .block⟩ :=
    (hfork.child (d := .block cond) (by simp [children])).root
  have h₄ := (h₃.take.dissolve Kind.noConfusion).orphan hcond
  obtain ⟨s₅, happend₁, h₅, hframe₁⟩ := place_append_tracks hK₁ h₄ (hu _)
  obtain ⟨s₆, happend₂, h₆, hframe₂⟩ := place_append_tracks hK₂ h₅ (hu _)
  have hne : cond ≠ k := by
    have hn := h₃.stocked.nodup_of_mem (c := .fork k cond []) (List.mem_cons_of_mem _
      (List.mem_append_right _ List.mem_cons_self))
    simpa [ids, idsAll, eq_comm] using hn
  have hmem : k ∈ idsAll [Component.seq k []] := List.mem_singleton_self k
  have hroot : s₆.nodes.get? k = some ⟨none, .fork (some cond) []⟩ := by
    have hk : s₃.nodes.get? k = some ⟨none, .fork (some cond) []⟩ := hfork.root
    rw [hframe₂ k hmem, hframe₁ k hmem, Registry.get?_setParent, hk]
    exact congrArg some (if_neg hne)
  have h₆ : (s₆.setParts k (.fork none [])).Tracks [.seq k []]
      ((K (.seq n [.block cond, c])).upTo (n + 1)) :=
    h₆.alter List.mem_cons_self (s₆.alters_setParts k (.fork none []))
  obtain ⟨s₇, hdrop, h₇, -⟩ := h₆.drop (P := .fork none []) (by simp [hroot])
  refine ⟨s₆, s₇, ?_, hdrop, h₇⟩
  rw [Surgery.unfork, if_pos rfl]
  exact (Surgery.bind_eq hremove).trans ((Surgery.bind_eq hnew).trans
    ((Surgery.bind_eq (Surgery.refTo_eq _)).trans ((Surgery.bind_eq hput).trans
      ((Surgery.bind_eq (Surgery.orphan_eq cond)).trans ((Surgery.bind_eq
          (Surgery.refTo_eq _)).trans
        ((Surgery.bind_eq happend₁).trans ((Surgery.bind_eq (Surgery.refTo_eq _)).trans
          (Surgery.bind_eq happend₂))))))))

theorem unfork_empty_tracks (hK : Place K true) (hu : ∀ c, (K c).frozen = false)
    (h : s.Tracks [] (K (.fork k cond []))) :
    ∃ s₁ s₂, Surgery.unfork k cond false s = .ok cond s₁ ∧
      Surgery.release k (s₁.setParts k (.fork none [])) = .ok () s₂ ∧
      s₂.Tracks [] (K (.block cond)) := by
  have h₁ := h.detach (g := fun _ => .seq k []) (l := []) (r := []) (hK.part _) rfl
      Kind.noConfusion Kind.noConfusion
    rfl rfl
  rw [hK.put (c := .fork k cond []) _ h.stocked.trees_nodup] at h₁
  have h₁ : ((s.setParent cond none).setParts k (.seq [])).Tracks []
      ((K (.seq k [])).aside (.block cond)) := h₁.of_records (fun i => by
    simp only [Registry.get?_setParent, Registry.get?_setParts, Option.map_map]
    congr 1
    funext x
    by_cases hi : cond = i <;> by_cases hk : k = i <;>
      simp [hi, hk, Component.id, Component.parts]) rfl rfl (by simp)
  obtain ⟨s', hput, -, ht⟩ := place_exchange_untold hK hu (d := .seq k []) h₁
  have hroot : (s'.setParts k (.seq [])).nodes.get? k = some ⟨none, .seq []⟩ :=
    (ht.detached _ (List.mem_append_right _ List.mem_cons_self)).root
  have h₂ : (s'.setParts k (.fork none [])).Tracks [.seq k []] (K (.block cond)) :=
    (ht.take.alter (x := .seq k []) List.mem_cons_self
      (Registry.alters_setParts _ k (.fork none []))).of_records (fun i => by
        simp only [Registry.get?_setParts, Option.map_map]
        congr 1
        funext x
        by_cases hk : k = i <;> simp [hk, Component.id, Component.parts]) rfl rfl (by simp)
  obtain ⟨s'', hdrop, h₃, -⟩ := h₂.drop (P := .fork none []) (by
    rw [Registry.get?_setParts] at hroot ⊢
    obtain ⟨x, hx, he⟩ := Option.map_eq_some_iff.mp hroot
    rw [if_pos rfl] at he
    obtain ⟨parent, parts⟩ := x
    cases he
    rw [hx]
    simp)
  refine ⟨s', s'', ?_, hdrop, h₃⟩
  rw [Surgery.unfork, if_neg Bool.false_ne_true]
  exact (Surgery.bind_eq (Surgery.orphan_eq cond)).trans ((Surgery.bind_eq
      (Surgery.refTo_eq _)).trans
    (Surgery.bind_eq hput))

/-! ## Every structure -/

theorem flatten_seq_of_simple (held : Bool) (next : NodeId) (hc : c.Simple) :
    (Component.seq n [.block cond, c]).flatten held next =
      (collapse held n (.block cond :: c.spliced), next) := by
  have hall : SimpleAll [.block cond, c] := simpleAll_iff.mpr (by simp [hc, Simple])
  rw [flatten, flattenAll_of_simple next _ hall]
  simp [spliced]

/-- A fork that is held and has at most one case is dissolved, any other fork stays. -/
theorem flattenFork_tracks (hagain : Flattens again w) (hK : Place K held)
    (hu : ∀ c, (K c).frozen = false) (h : s.Tracks [] (K (.fork k cond cs)))
    (hw : (Component.fork k cond cs).weight ≤ w) :
    ∃ s', Surgery.flattenFork again k s =
        .ok ((Component.fork k cond cs).flatten held (K (.fork k cond cs)).nodes.next).1.id s' ∧
      s'.Tracks [] (relaid K
        ((Component.fork k cond cs).flatten held (K (.fork k cond cs)).nodes.next)) := by
  rw [weight] at hw
  have hcases {K : Component → Func} {held : Bool} {s : Registry} {cs : List Component}
      (hK : Place K held) (h : s.Tracks [] (K (.fork k cond cs))) :
      (do return (← Surgery.forkOf k).2 : Surgery (List NodeId)) s =
          .ok (cs.map Component.id) s := by
    rw [Surgery.bind_eq (place_forkOf hK h)]
    rfl
  obtain ⟨s₁, heach, h₁⟩ := flattenEach_tracks (H := Component.fork k cond)
    (fun hK => hK.case k cond) hcases hagain hK hu h fun c hc => by
      have := weight_le_of_mem hc
      omega
  have hsimple := flattenAll_simple (K (.fork k cond cs)).nodes.next cs
  have hweight := weightAll_flattenAll_le (K (.fork k cond cs)).nodes.next cs
  have hnext := le_flattenAll (K (.fork k cond cs)).nodes.next cs
  rw [flatten]
  generalize flattenAll (K (.fork k cond cs)).nodes.next cs = flat at h₁ hsimple hweight hnext
  obtain ⟨ds, n⟩ := flat
  dsimp only at hsimple hweight hnext
  have hK₁ := hK.upTo n
  have hu₁ : ∀ c, ((K c).upTo n).frozen = false := hu
  have h₁ : s₁.Tracks [] ((K (.fork k cond ds)).upTo n) := h₁
  have hn : ∀ c, ((K c).upTo n).nodes.next = n := fun c =>
    next_upTo (hK.nodes (.fork k cond cs) c ▸ hnext)
  have hheld : Surgery.hasParent k s₁ = .ok held s₁ := place_hasParent_tracks hK₁ h₁
  rw [Surgery.flattenFork, Surgery.bind_eq (place_forkOf hK h)]
  dsimp only
  rw [List.length_map, Surgery.bind_eq heach, Surgery.bind_eq (place_forkOf hK₁ h₁)]
  dsimp only
  rw [Surgery.bind_eq hheld, List.length_map]
  match held, ds with
  | false, ds =>
    rw [if_pos (by simp)]
    exact ⟨s₁, rfl, h₁⟩
  | true, [] =>
    obtain ⟨s₂, s₃, hunfork, hdrop, h₃⟩ := unfork_empty_tracks hK₁ hu₁ h₁
    obtain ⟨s₄, hrest, h₄⟩ := hagain hK₁ hu₁ h₃ (by rw [weight]; omega)
    refine ⟨s₄, ?_, ?_⟩
    · exact (Surgery.bind_eq hunfork).trans ((Surgery.bind_eq (Surgery.setParts_eq ..)).trans
        ((Surgery.bind_eq hdrop).trans hrest))
    · rwa [flatten, relaid, upTo_next] at h₄
  | true, [c] =>
    obtain ⟨s₂, s₃, hunfork, hdrop, h₃⟩ := unfork_single_tracks hK₁ hu₁ h₁ (hn _)
    obtain ⟨s₄, hrest, h₄⟩ := hagain (hK₁.upTo (n + 1)) hu₁ h₃ (by
      simp only [weight, weightAll] at hweight ⊢
      omega)
    rw [flatten_seq_of_simple _ _ (hsimple c List.mem_cons_self)] at hrest h₄
    refine ⟨s₄, ?_, ?_⟩
    · exact (Surgery.bind_eq hunfork).trans ((Surgery.bind_eq (Surgery.setParts_eq ..)).trans
        ((Surgery.bind_eq hdrop).trans hrest))
    · rw [relaid] at h₄ ⊢
      rw [next_upTo (by rw [hn]; exact Nat.le_succ n)] at h₄
      rwa [upTo_upTo (by rw [hn]; exact Nat.le_succ n) (Nat.le_refl _),
        upTo_upTo (hK.nodes (.fork k cond cs) _ ▸ hnext) (Nat.le_succ n)] at h₄
  | true, c :: d :: ds => exact ⟨s₁, rfl, h₁⟩

variable {start body update : Component} {after : NodeId}

/-- The members of a loop are flattened one after the other. -/
theorem flattenLoop_tracks (hagain : Flattens again w) (hK : Place K held)
    (hu : ∀ c, (K c).frozen = false) (h : s.Tracks [] (K (.loop k start cond body update after)))
    (hw : (Component.loop k start cond body update after).weight ≤ w) :
    ∃ s', Surgery.flattenLoop again k s = .ok k s' ∧
      s'.Tracks [] (relaid K ((Component.loop k start cond body update after).flatten held
        (K (.loop k start cond body update after)).nodes.next)) := by
  rw [weight] at hw
  have hn : ∀ c, (K c).nodes.next = (K (.loop k start cond body update after)).nodes.next :=
    fun c => by rw [hK.nodes c]
  rw [flatten]
  generalize (K (.loop k start cond body update after)).nodes.next = n at hn
  have hm₁ := le_flatten true n start
  have hm₂ := le_flatten true (start.flatten true n).2 body
  have hm₃ := le_flatten true (body.flatten true (start.flatten true n).2).2 update
  obtain ⟨s₁, hrun₁, h₁⟩ := hagain (hK.start k cond after body update) (fun c => hu _) h (by omega)
  rw [hn] at hrun₁ h₁
  generalize start.flatten true n = flat₁ at hm₁ hm₂ hm₃ hrun₁ h₁
  obtain ⟨start', n₁⟩ := flat₁
  have hK₁ := hK.upTo n₁
  have hn₁ : ∀ c, ((K c).upTo n₁).nodes.next = n₁ := fun c => next_upTo (hn c ▸ hm₁)
  obtain ⟨s₂, hrun₂, h₂⟩ := hagain (hK₁.body k cond after start' update) (fun c => hu _) h₁
    (by omega)
  rw [hn₁] at hrun₂ h₂
  dsimp only at hm₁ hm₂ hm₃ ⊢
  generalize body.flatten true n₁ = flat₂ at hm₂ hm₃ hrun₂ h₂
  obtain ⟨body', n₂⟩ := flat₂
  have hK₂ := hK₁.upTo n₂
  have hn₂ : ∀ c, (((K c).upTo n₁).upTo n₂).nodes.next = n₂ := fun c => next_upTo (by
    rw [hn₁]
    exact hm₂)
  obtain ⟨s₃, hrun₃, h₃⟩ := hagain (hK₂.update k cond after start' body') (fun c => hu _) h₂
    (by omega)
  rw [hn₂] at hrun₃ h₃
  refine ⟨s₃, ?_, ?_⟩
  · rw [Surgery.flattenLoop, Surgery.bind_eq (place_membersOf hK h), Surgery.bind_eq hrun₁,
      Surgery.bind_eq (place_membersOf hK₁ h₁), Surgery.bind_eq hrun₂,
      Surgery.bind_eq (place_membersOf hK₂ h₂), Surgery.bind_eq hrun₃]
    rfl
  · dsimp only
    generalize update.flatten true n₂ = flat₃ at hm₃ h₃
    obtain ⟨update', n₃⟩ := flat₃
    have h₃ : s₃.Tracks [] ((((K (.loop k start' cond body' update' after)).upTo n₁).upTo
      n₂).upTo n₃) := h₃
    rwa [upTo_upTo (by rw [hn₁]; exact hm₂) hm₃,
      upTo_upTo (hn _ ▸ hm₁) (Nat.le_trans hm₂ hm₃)] at h₃

theorem flattenAt_flattens (n : Nat) : Flattens (Surgery.flattenAt n) n := by
  induction n with
  | zero => exact fun _ _ _ hw => absurd hw (Nat.not_lt_zero _)
  | succ n ih =>
    intro K held s c hK hu h hw
    obtain ⟨o, ho⟩ := h.part h.forest (hK.part c)
    rw [Surgery.flattenAt, Surgery.bind_eq (Surgery.partsOf_eq ho.root)]
    have hw := Nat.le_of_lt_succ hw
    cases c with
    | block b =>
      rw [flatten, relaid, upTo_next]
      exact ⟨s, rfl, h⟩
    | seq => exact flattenSequence_tracks ih hK hu h hw
    | fork => exact flattenFork_tracks ih hK hu h hw
    | loop => exact flattenLoop_tracks ih hK hu h hw

end

section

variable {s : Registry} {f f' : Func} {c e t : NodeId} {old : Component} {w : Nat}

/-! ## Flattening in a place -/

/-- A component that is not alone in a place is a block, which is flat. -/
theorem flattenAt_tracks (h : s.Tracks [] f) (hu : f.frozen = false) (hold : f.find? t = some old)
    (hw : f.nodes.size ≤ w) : ∃ s' f₁, Surgery.flattenAt w t s =
        .ok (old.flatten (f.hasParent t) f.nodes.next).1.id s' ∧ s'.Tracks [] f₁ ∧
      (do
        Edit.registerUpTo (old.flatten (f.hasParent t) f.nodes.next).2
        if (old.flatten (f.hasParent t) f.nodes.next).1.ids ≠ old.ids then
          Edit.changeAt t fun _ => (old.flatten (f.hasParent t) f.nodes.next).1
          Edit.touch : Edit Unit) f = .ok () f₁ := by
  have ht : t ∈ idsAll f.trees := by
    by_contra ht
    rw [Func.find?, findAll?_of_not_mem f.trees ht] at hold
    cases hold
  rw [Edit.bind_eq (registerUpTo_eq f _), registered_eq_upTo]
  by_cases hk : old.kind = .block
  · obtain ⟨d, hfind, hid, hx⟩ := h.record h.forest ht
    cases hold.symm.trans hfind
    have hbound := h.forest.bounded t ht
    obtain ⟨w, rfl⟩ := Nat.exists_eq_add_of_le' (Nat.le_trans (Nat.le_trans
      (Nat.le_of_lt_succ (Nat.lt_succ_of_lt hbound.1)) hbound.2) hw)
    cases old with
    | block b =>
      obtain rfl := hid
      refine ⟨s, f, ?_, h, ?_⟩
      · rw [Surgery.flattenAt, Surgery.bind_eq (Surgery.partsOf_eq hx)]
        rfl
      · rw [flatten, upTo_next, if_neg (not_not_intro rfl)]
        rfl
    | _ => cases hk
  · obtain ⟨hpart, rfl⟩ := partOf_of_find? hold hk
    obtain ⟨K, held, hK, rfl⟩ := hpart.place
    have hheld := hK.hasParent h.stocked.trees_nodup h.bodyHeld
    have hu' : ∀ c, (K c).frozen = false := fun c => hK.frozen c old ▸ hu
    have hweight : old.weight < w := by
      obtain ⟨x, hx, hwithin⟩ := hpart
      refine Nat.lt_of_lt_of_le (Nat.lt_of_le_of_lt (weight_le_length old) ?_) hw
      exact Nat.lt_of_le_of_lt hwithin.ids_sublist.length_le (h.forest.length_tree_le hx)
    obtain ⟨s', hrun, hs'⟩ := flattenAt_flattens w hK hu' h hweight
    rw [hheld]
    have hput := hK.put (c := old) (fun _ => (old.flatten held (K old).nodes.next).1)
      h.stocked.trees_nodup
    by_cases hne : (old.flatten held (K old).nodes.next).1.ids ≠ old.ids
    · rw [if_pos hne]
      refine ⟨s', _, hrun, hs'.of_graph ?_, rfl⟩
      rw [relaid, ← hput]
      exact ⟨rfl, rfl, rfl, rfl, rfl, rfl, fun _ => rfl⟩
    · rw [if_neg hne]
      rw [not_not] at hne
      have hsame : (old.flatten held (K old).nodes.next).1 = old := flatten_of_ids
        (fun i hi => Nat.lt_succ_of_le (h.forest.bounded i (hpart.mem_ids hi)).2) hne
      refine ⟨s', _, hrun, ?_, rfl⟩
      rwa [relaid, hsame] at hs'

theorem flatten_tail {f₁ : Func} (hold : f.find? (if c = rootId then f.body.id else c) = some old)
    {new : Component} {n : NodeId}
    (hnew : old.flatten (f.hasParent (if c = rootId then f.body.id else c)) f.nodes.next = (new, n))
    (hput : (do
      Edit.registerUpTo n
      if new.ids ≠ old.ids then
        Edit.changeAt (if c = rootId then f.body.id else c) fun _ => new
        Edit.touch : Edit Unit) f = .ok () f₁)
    (hrun : Edit.flatten c f = .ok e f') :
    (if c = rootId then c else new.id) = e ∧ ∃ n, Edit.pruneIncoming f₁ = .ok n f' := by
  obtain ⟨-, hrun⟩ := Edit.unfrozen_bind_ok hrun
  rw [Edit.bind_eq Edit.get_eq] at hrun
  dsimp only at hrun
  rw [hold] at hrun
  dsimp only at hrun
  rw [hnew] at hrun
  dsimp only at hrun
  rw [Edit.bind_eq (registerUpTo_eq f _)] at hput hrun
  have prune {g : Func} {d : NodeId} (hrun : (do let _ ← Edit.pruneIncoming; return d : Edit NodeId)
      g = .ok e f') : d = e ∧ ∃ n, Edit.pruneIncoming g = .ok n f' := by
    obtain ⟨n, g', hprune, hret⟩ := Edit.bind_ok hrun
    cases hret
    exact ⟨rfl, n, hprune⟩
  by_cases hne : new.ids ≠ old.ids
  · rw [if_pos hne] at hput hrun
    cases hput
    exact prune hrun
  · rw [if_neg hne] at hput hrun
    cases hput
    exact prune hrun

theorem flatten_tracks (h : s.Tracks [] f) (hlive : c = rootId ∨ (f.find? c).isSome)
    (hrun : Edit.flatten c f = .ok e f') : ∃ s' f₁, Surgery.flatten c s = .ok e s' ∧
      s'.Tracks [] f₁ ∧ ∃ n, Edit.pruneIncoming f₁ = .ok n f' := by
  obtain ⟨hu, -⟩ := Edit.unfrozen_bind_ok hrun
  rw [Surgery.flatten, Surgery.bind_eq (Surgery.unfrozen_eq (h.frozen.trans hu) _),
    Surgery.bind_eq Surgery.get_eq]
  by_cases hc : c = rootId
  · subst hc
    obtain ⟨s', f₁, hs, h', hput⟩ :=
        flattenAt_tracks (w := s.nodes.size) h hu f.find?_body h.size.ge
    have hold : f.find? (if rootId = rootId then f.body.id else rootId) = some f.body := by
      rw [if_pos rfl]
      exact f.find?_body
    obtain ⟨rfl, hprune⟩ := flatten_tail hold (Prod.mk.eta).symm (by rwa [if_pos rfl]) hrun
    refine ⟨s', f₁, ?_, h', hprune⟩
    rw [Surgery.flattenAt, Surgery.bind_eq (Surgery.partsOf_eq h.root), if_pos rfl]
    exact (Surgery.bind_eq (Surgery.demand_eq _)).trans (Surgery.bind_eq hs)
  · obtain ⟨old, hold⟩ := Option.isSome_iff_exists.mp (hlive.resolve_left hc)
    obtain ⟨s', f₁, hs, h', hput⟩ := flattenAt_tracks (w := s.nodes.size + 1) h hu hold
      (Nat.le_succ_of_le h.size.ge)
    have hold' : f.find? (if c = rootId then f.body.id else c) = some old := by rwa [if_neg hc]
    obtain ⟨rfl, hprune⟩ := flatten_tail hold' (Prod.mk.eta).symm (by rwa [if_neg hc]) hrun
    simp only [if_neg hc]
    exact ⟨s', f₁, hs, h', hprune⟩

end

end DefFlow.Flow
