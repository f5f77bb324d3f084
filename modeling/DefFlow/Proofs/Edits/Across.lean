import DefFlow.Proofs.Edits.Cut
import DefFlow.Proofs.Resolution.Sight

/-!
# Sight across a cut

When a block is cut, no block sees anything else than before. Where the second half decides nothing
it passes on what leaves the first. Where it decides something, everything behind it knows the block
by the name of its second half.
-/

set_option autoImplicit false

namespace DefFlow.Flow

open Func Component

namespace Bisects

variable {b b' x p : NodeId} {v : VarId} {f f' : Func}

theorem preds_old (h : Bisects b b' f f') (hx : x ∈ f.blocks) :
    f'.preds x = (f.preds x).map (Equiv.swap b b') := by
  by_cases hxb : x = b
  · rw [hxb]
    exact (h.edges .first h.first).1
  · exact (h.edges (.other hxb (h.ne_new hx)) hx).1

theorem preds_new (h : Bisects b b' f f') : f'.preds b' = [b] := (h.edges .second h.first).1

theorem mem_preds_old (h : Bisects b b' f f') (hf : f.Forest) (hx : x ∈ f.blocks)
    (hp : p ∈ f.preds x) (hpb : p ≠ b) : p ∈ f'.preds x := by
  rw [h.preds_old hx]
  have hswap := Equiv.swap_apply_of_ne_of_ne hpb (h.ne_new (hf.pred_mem hx hp))
  exact List.mem_map.mpr ⟨p, hp, hswap⟩

theorem mem_preds_behind (h : Bisects b b' f f') (hx : x ∈ f.blocks) (hp : b ∈ f.preds x) :
    b' ∈ f'.preds x := by
  rw [h.preds_old hx]
  exact List.mem_map.mpr ⟨b, hp, Equiv.swap_apply_left b b'⟩

/-- The second half in place of the first is read as the first. -/
theorem folded_swap (h : Bisects b b' f f') (hp : p ∈ f.blocks) :
    (if Equiv.swap b b' p = b' then b else Equiv.swap b b' p) = p := by
  by_cases hpb : p = b
  · rw [hpb, Equiv.swap_apply_left, if_pos rfl]
  · rw [Equiv.swap_apply_of_ne_of_ne hpb (h.ne_new hp), if_neg (h.ne_new hp)]

/-- A walk backwards passes the second half on its way to the first. -/
theorem arrives_folded (h : Bisects b b' f f') (hf : f.Forest) {out : NodeId → Option NodeId}
    (hout : out b ≠ some b') {a : Option NodeId}
    (ha : Arrives f.preds (fun z => out z = some z) x a) (hx : x ∈ f.blocks) :
    Arrives f'.preds (fun z => out (if z = b' then b else z) = some z) x a := by
  have hself : ∀ {p}, p ≠ b' → (out (if p = b' then b else p) = some p ↔ out p = some p) :=
    fun hp => by rw [if_neg hp]
  have hthrough : ¬ (out (if b' = b' then b else b') = some b') := by rwa [if_pos rfl]
  have hmem : b ∈ f'.preds b' := by rw [h.preds_new]; exact List.mem_singleton_self b
  induction ha with
  | start hnil => exact .start (by rw [h.preds_old hx, hnil]; rfl)
  | @leaves x p hp ho =>
    by_cases hpb : p = b
    · subst hpb
      exact .passes (h.mem_preds_behind hx hp) hthrough
        (.leaves hmem ((hself (h.ne_new h.first)).mpr ho))
    · exact .leaves (h.mem_preds_old hf hx hp hpb)
        ((hself (h.ne_new (hf.pred_mem hx hp))).mpr ho)
  | @passes x p a hp ho _ ih =>
    have hpm := hf.pred_mem hx hp
    have ho' := mt (hself (h.ne_new hpm)).mp ho
    by_cases hpb : p = b
    · subst hpb
      exact .passes (h.mem_preds_behind hx hp) hthrough (.passes hmem ho' (ih hpm))
    · exact .passes (h.mem_preds_old hf hx hp hpb) ho' (ih hpm)

theorem not_decides_new (h : Bisects b b' f f') (ht : f.Tables) : ¬ f.Decides v b' := by
  rw [ht.decides_iff, Defining, locals_of_none (h.unlisted v), joinNodes_of_none (h.unlisted v)]
  simp

abbrev passing (f : Func) (v : VarId) (x : NodeId) : Prop := x ∈ f.blocks ∧ ¬ f.Decides v x

theorem out_ne_new (h : Bisects b b' f f') (ht : f.Tables) {out : NodeId → Option NodeId}
    (M : Marks f.preds (f.Decides v) (passing f v) out) (hx : x ∈ f.blocks) :
    out x ≠ some b' := by
  intro ho
  by_cases hd : f.Decides v x
  · rw [M.opaque_out hd, Option.some.injEq] at ho
    exact h.ne_new hx ho
  · exact (M.source ⟨hx, hd⟩ ho).2.elim (h.not_decides_new ht) fun hr => h.new hr.1

/-! ## Where the second half decides nothing -/

section

variable (h : Bisects b b' f f') (hf : f.Forest) (ht : f.Tables) (hnew : ¬ f'.Decides v b')
  {out : NodeId → Option NodeId}

include h ht hnew

theorem decides_old (hx : x ≠ b') : f'.Decides v x ↔ f.Decides v x := by
  by_cases hxb : x = b
  · rw [hxb]
    exact h.decides_first ht hnew
  · exact h.decides_other ht hxb hx

include hf

theorem marks_before (M : Marks f'.preds (f'.Decides v) (passing f' v) out) :
    Marks f.preds (f.Decides v) (passing f v) out ∧ out b' = out b := by
  have hsecond : passing f' v b' := ⟨h.mem_blocks.mpr (.inr rfl), hnew⟩
  have hpass : out b' = out b := (M.out_of_single hsecond h.preds_new).symm
  have hregion : ∀ {x}, passing f v x → passing f' v x := fun hx =>
    ⟨h.mem_blocks.mpr (.inl hx.1), mt (h.decides_old ht hnew (h.ne_new hx.1)).mp hx.2⟩
  have hout : ∀ {x p}, x ∈ f.blocks → p ∈ f.preds x → out (Equiv.swap b b' p) = out p := by
    intro x p hx hp
    by_cases hpb : p = b
    · rw [hpb, Equiv.swap_apply_left, hpass]
    · rw [Equiv.swap_apply_of_ne_of_ne hpb (h.ne_new (hf.pred_mem hx hp))]
  have hmem : ∀ {x p}, x ∈ f.blocks → p ∈ f.preds x → Equiv.swap b b' p ∈ f'.preds x :=
    fun hx hp => h.preds_old hx ▸ List.mem_map_of_mem hp
  have hnot : out b' ≠ some b' := fun ho => by
    obtain ⟨p, hp, q, hq, hpq, -, -⟩ := M.differ hsecond ho
    rw [h.preds_new, List.mem_singleton] at hp hq
    exact hpq (by rw [hp, hq])
  refine ⟨⟨fun hx => hx.2, fun {x p} hx hp => ?_, fun {x} hx => ?_, fun {x} hx hnil => ?_,
    fun {x p} hx ho hp => ?_, fun {x} hx ho => ?_, fun {x y} hx ho hyx => ?_⟩, hpass⟩
  · by_cases hd : f.Decides v p
    · exact .inl hd
    · exact .inr ⟨hf.pred_mem hx.1 hp, hd⟩
  · refine M.opaque_out ((h.decides_old ht hnew fun he => ?_).mpr hx)
    exact h.not_decides_new ht (he ▸ hx)
  · exact M.start_out (hregion hx) (by rw [h.preds_old hx.1, hnil]; rfl)
  · rw [← hout hx.1 hp]
    exact M.pass_out (hregion hx) ho (hmem hx.1 hp)
  · obtain ⟨p', hp', q', hq', hd⟩ := M.differ (hregion hx) ho
    rw [h.preds_old hx.1, List.mem_map] at hp' hq'
    obtain ⟨p, hp, rfl⟩ := hp'
    obtain ⟨q, hq, rfl⟩ := hq'
    rw [hout hx.1 hp, hout hx.1 hq] at hd
    exact ⟨p, hp, q, hq, hd⟩
  · refine (h.arrives_of_walk hf (fun _ hs => hs) (fun _ _ hs => hs) (fun _ hs => hs)
      (M.traced (hregion hx) ho hyx) fun he => hnot ?_).1 hx.1
    cases he
    exact (M.source (hregion hx) ho).1

/-- Marks before the cut mark the blocks after, the second half like the first. -/
theorem marks_after (M : Marks f.preds (f.Decides v) (passing f v) out) :
    Marks f'.preds (f'.Decides v) (passing f' v) fun x => out (if x = b' then b else x) := by
  have hregion : ∀ {x}, passing f' v x → x ≠ b' → passing f v x := fun hx hxb =>
    ⟨(h.mem_blocks.mp hx.1).resolve_right hxb, mt (h.decides_old ht hnew hxb).mpr hx.2⟩
  have hnot := h.out_ne_new ht M h.first
  refine ⟨fun hx => hx.2, fun {x p} hx hp => ?_, fun {x} hx => ?_, fun {x} hx hnil => ?_,
    fun {x p} hx ho hp => ?_, fun {x} hx ho => ?_, fun {x y} hx ho hyx => ?_⟩
  · by_cases hd : f'.Decides v p
    · exact .inl hd
    · exact .inr ⟨(h.reshapes.forest hf).pred_mem hx.1 hp, hd⟩
  · have hxb : x ≠ b' := fun he => hnew (he ▸ hx)
    rw [if_neg hxb]
    exact M.opaque_out ((h.decides_old ht hnew hxb).mp hx)
  · have hxb : x ≠ b' := by
      rintro rfl
      rw [h.preds_new] at hnil
      cases hnil
    rw [h.preds_old (hregion hx hxb).1, List.map_eq_nil_iff] at hnil
    rw [if_neg hxb]
    exact M.start_out (hregion hx hxb) hnil
  · by_cases hxb : x = b'
    · rw [hxb, h.preds_new, List.mem_singleton] at hp
      rw [hxb, if_pos rfl, hp, if_neg (h.ne_new h.first)]
    · rw [h.preds_old (hregion hx hxb).1, List.mem_map] at hp
      obtain ⟨q, hq, rfl⟩ := hp
      rw [if_neg hxb] at ho ⊢
      rw [h.folded_swap (hf.pred_mem (hregion hx hxb).1 hq)]
      exact M.pass_out (hregion hx hxb) ho hq
  · have hxb : x ≠ b' := by
      rintro rfl
      rw [if_pos rfl] at ho
      exact hnot ho
    have hr := hregion hx hxb
    rw [if_neg hxb] at ho
    obtain ⟨p, hp, q, hq, hd⟩ := M.differ hr ho
    refine ⟨_, h.preds_old hr.1 ▸ List.mem_map_of_mem hp, _,
      h.preds_old hr.1 ▸ List.mem_map_of_mem hq, ?_⟩
    rwa [h.folded_swap (hf.pred_mem hr.1 hp), h.folded_swap (hf.pred_mem hr.1 hq)]
  · by_cases hxb : x = b'
    · subst hxb
      rw [if_pos rfl] at ho
      have hmem : b ∈ f'.preds x := by rw [h.preds_new]; exact List.mem_singleton_self b
      by_cases hyb : y = b
      · subst hyb
        exact .leaves hmem (by rwa [if_neg (h.ne_new h.first)])
      · have hr : passing f v b := ⟨h.first, fun hd => hyb (by
          rw [M.opaque_out hd, Option.some.injEq] at ho
          exact ho.symm)⟩
        refine .passes hmem (fun ho' => ?_)
          (h.arrives_folded hf hnot (M.traced hr ho hyb) h.first)
        rw [if_neg (h.ne_new h.first), ho, Option.some.injEq] at ho'
        exact hyb ho'
    · have hr := hregion hx hxb
      rw [if_neg hxb] at ho
      exact h.arrives_folded hf hnot (M.traced hr ho hyx) hr.1

theorem origin_old (hx : x ∈ f.blocks) : f'.origin v x = f.origin v x := by
  have hxb := h.ne_new hx
  by_cases hd : f.Decides v x
  · rw [origin_of_decides hd, origin_of_decides ((h.decides_old ht hnew hxb).mpr hd)]
  have F := origin_finest hf.net (Solution.placed ht) (v := v)
  have F' := origin_finest (h.reshapes.forest hf).net (Solution.placed h.tables) (v := v)
  have N := (h.marks_before hf ht hnew F'.marks).1
  refine N.eq_of_finer F.marks (fun hr hr' => F.finer N hr' hr) (fun {y} hr hr' => ?_)
    ⟨hx, hd⟩ ⟨hx, hd⟩
  -- The new marks tell what the old ones tell, and no mark names the second half.
  have hyb := h.ne_new hr.1
  have hfine := F'.finer (h.marks_after hf ht hnew F.marks)
    (x := y) ⟨h.mem_blocks.mpr (.inl hr.1), mt (h.decides_old ht hnew hyb).mp hr.2⟩
    ⟨h.mem_blocks.mpr (.inl hr.1), mt (h.decides_old ht hnew hyb).mp hr.2⟩
  rw [if_neg hyb] at hfine
  rw [hfine]
  cases ho : f'.origin v y with
  | none => rfl
  | some z =>
    have hzb : z ≠ b' := fun he => h.out_ne_new ht N hr.1 (he ▸ ho)
    rw [Option.bind_some, Option.bind_some, if_neg hzb]

theorem origin_second : f'.origin v b' = f'.origin v b :=
  (h.marks_before hf ht hnew
    (origin_finest (h.reshapes.forest hf).net (Solution.placed h.tables)).marks).2

end

/-! ## Where the second half decides -/

section

variable (h : Bisects b b' f f') (hf : f.Forest) (ht : f.Tables) (hnew : f'.Decides v b')
  {out : NodeId → Option NodeId}

include h ht hnew

theorem decides_cut : f.Decides v b := by
  rw [h.decides_new] at hnew
  rw [ht.decides_iff, Defining, h.halves]
  exact .inl fun hnil => hnew (List.append_eq_nil_iff.mp hnil).2

theorem passing_apart (hx : passing f v x) : x ≠ b ∧ x ≠ b' ∧ Equiv.swap b b' x = x ∧
    ¬ f'.Decides v x := by
  have hxb : x ≠ b := fun he => hx.2 (he ▸ h.decides_cut ht hnew)
  have hxb' := h.ne_new hx.1
  exact ⟨hxb, hxb', Equiv.swap_apply_of_ne_of_ne hxb hxb',
    mt (h.decides_other ht hxb hxb').mp hx.2⟩

theorem marks_behind (M : Marks f.preds (f.Decides v) (passing f v) out) :
    Marks f'.preds (f'.Decides v) (passing f v) fun x =>
      if x = b then some b else (out (Equiv.swap b b' x)).map (Equiv.swap b b') := by
  have hdecides : ∀ {p}, f.Decides v p → p ≠ b → p ≠ b' ∧ f'.Decides v p := fun {p} hp hpb => by
    have hpb' : p ≠ b' := fun he => h.not_decides_new ht (he ▸ hp)
    exact ⟨hpb', (h.decides_other ht hpb hpb').mpr hp⟩
  refine M.renamed (Equiv.swap b b') (fun hx => (h.passing_apart ht hnew hx).2.2.2)
    (fun hx => (h.passing_apart ht hnew hx).2.2.1) (fun hx => h.preds_old hx.1)
        (fun {_ p} _ _ hp => ?_)
    (fun {p} hp => ?_) fun {p} hp => ?_
  · by_cases hpb : p = b
    · rwa [hpb, Equiv.swap_apply_left]
    · obtain ⟨hpb', hd⟩ := hdecides hp hpb
      rwa [Equiv.swap_apply_of_ne_of_ne hpb hpb']
  · by_cases hpb : p = b
    · rw [if_pos hpb, hpb]
    · rw [if_neg hpb]
      by_cases hpb' : p = b'
      · rw [hpb', Equiv.swap_apply_right, M.opaque_out (h.decides_cut ht hnew), Option.map_some,
          Equiv.swap_apply_left]
      · rw [Equiv.swap_apply_of_ne_of_ne hpb hpb',
          M.opaque_out ((h.decides_other ht hpb hpb').mp hp), Option.map_some,
          Equiv.swap_apply_of_ne_of_ne hpb hpb']
  · have hpb' : p ≠ b' := by
      rintro rfl
      exact hp.elim (h.not_decides_new ht) fun hr => h.new hr.1
    have hne : Equiv.swap b b' p ≠ b := fun he => hpb' (by
      rw [← Equiv.swap_apply_self b b' p, he, Equiv.swap_apply_left])
    rw [if_neg hne, Equiv.swap_apply_self]

include hf

theorem marks_ahead {region : NodeId → Prop} (M : Marks f'.preds (f'.Decides v) region out)
    (hregion : ∀ {x}, region x → passing f v x) :
    Marks f.preds (f.Decides v) region fun x =>
      if x = b' then some b' else (out (Equiv.swap b b' x)).map (Equiv.swap b b') := by
  have hpreds : ∀ {x}, region x → f.preds x = (f'.preds x).map (Equiv.swap b b') := fun hx => by
    rw [h.preds_old (hregion hx).1, List.map_map]
    refine (List.map_id' _).symm.trans (List.map_congr_left fun p _ => ?_)
    exact (Equiv.swap_apply_self b b' p).symm
  refine M.renamed (Equiv.swap b b') (fun hx => (hregion hx).2)
    (fun hx => (h.passing_apart ht hnew (hregion hx)).2.2.1) hpreds (fun {x p} hx hp hd => ?_)
    (fun {p} hp => ?_) fun {p} hp => ?_
  · -- The first half leads to the second only.
    have hm : Equiv.swap b b' p ∈ f.preds x := hpreds hx ▸ List.mem_map_of_mem hp
    have hpb : p ≠ b := by
      rintro rfl
      rw [Equiv.swap_apply_left] at hm
      exact h.new (hf.pred_mem (hregion hx).1 hm)
    by_cases hpb' : p = b'
    · rw [hpb', Equiv.swap_apply_right]
      exact h.decides_cut ht hnew
    · rw [Equiv.swap_apply_of_ne_of_ne hpb hpb']
      exact (h.decides_other ht hpb hpb').mp hd
  · have hpb' : p ≠ b' := fun he => h.not_decides_new ht (he ▸ hp)
    rw [if_neg hpb']
    by_cases hpb : p = b
    · rw [hpb, Equiv.swap_apply_left, M.opaque_out hnew, Option.map_some, Equiv.swap_apply_right]
    · rw [Equiv.swap_apply_of_ne_of_ne hpb hpb',
        M.opaque_out ((h.decides_other ht hpb hpb').mpr hp), Option.map_some,
        Equiv.swap_apply_of_ne_of_ne hpb hpb']
  · by_cases hpb : p = b
    · have hd : f'.Decides v p := hp.resolve_right fun hr =>
        (h.passing_apart ht hnew (hregion hr)).1 hpb
      rw [hpb, Equiv.swap_apply_left, if_pos rfl, ← hpb, M.opaque_out hd, Option.map_some, hpb,
        Equiv.swap_apply_left]
    · have hne : Equiv.swap b b' p ≠ b' := fun he => hpb (by
        rw [← Equiv.swap_apply_self b b' p, he, Equiv.swap_apply_right])
      rw [if_neg hne, Equiv.swap_apply_self]

theorem origin_swap (hx : x ∈ f.blocks) :
    f'.origin v (Equiv.swap b b' x) = (f.origin v x).map (Equiv.swap b b') := by
  by_cases hd : f.Decides v x
  · rw [origin_of_decides hd, Option.map_some, origin_of_decides]
    by_cases hxb : x = b
    · rwa [hxb, Equiv.swap_apply_left]
    · have hxb' := h.ne_new hx
      rw [Equiv.swap_apply_of_ne_of_ne hxb hxb']
      exact (h.decides_other ht hxb hxb').mpr hd
  have F := origin_finest hf.net (Solution.placed ht) (v := v)
  have F' := origin_finest (h.reshapes.forest hf).net (Solution.placed h.tables) (v := v)
  have B := h.marks_behind ht hnew F.marks
  have N := h.marks_ahead hf ht hnew (F'.marks.inter B) fun hr => hr.2
  have hafter : ∀ {y}, passing f v y → passing f' v y := fun hr =>
    ⟨h.mem_blocks.mpr (.inl hr.1), (h.passing_apart ht hnew hr).2.2.2⟩
  have hN : ∀ {y}, passing f v y → (if y = b' then some b' else
      (f'.origin v (Equiv.swap b b' y)).map (Equiv.swap b b')) =
        (f'.origin v y).map (Equiv.swap b b') := fun hr => by
    obtain ⟨-, hyb', hswap, -⟩ := h.passing_apart ht hnew hr
    rw [if_neg hyb', hswap]
  have hsame := N.eq_of_finer F.marks (fun hr hr' => F.finer N hr' hr) (fun {y} hr hr' => ?_)
    ⟨hafter ⟨hx, hd⟩, hx, hd⟩ ⟨hx, hd⟩
  · obtain ⟨-, -, hswap, -⟩ := h.passing_apart ht hnew ⟨hx, hd⟩
    rw [← hsame, hN ⟨hx, hd⟩, hswap, Option.map_map]
    cases f'.origin v x with
    | none => rfl
    | some z => exact congrArg some (Equiv.swap_apply_self b b' z).symm
  · -- The new marks tell what the old ones tell, and no mark names the first half.
    obtain ⟨hyb, -, hswap, -⟩ := h.passing_apart ht hnew hr
    have hfine := F'.finer B (hafter hr) hr
    rw [if_neg hyb, hswap] at hfine
    have hinj := Option.map_injective (Equiv.injective (Equiv.swap b b'))
    rw [hN hr]
    cases ho : f'.origin v y with
    | none =>
      rw [ho, Option.bind_none, Option.map_eq_none_iff] at hfine
      rw [hfine]
      rfl
    | some z =>
      have hzb : z ≠ b := by
        rintro rfl
        have hsource := N.source (y := b') ⟨hafter hr, hr⟩ (by
          rw [hN hr, ho, Option.map_some, Equiv.swap_apply_left])
        exact hsource.2.elim (h.not_decides_new ht) fun hm => h.new hm.2.1
      rw [ho, Option.bind_some, if_neg hzb] at hfine
      exact hinj hfine

end

/-! ## What the blocks see -/

noncomputable def naming (f' : Func) (v : VarId) (b b' : NodeId) : Equiv.Perm NodeId :=
  open Classical in if f'.Decides v b' then Equiv.swap b b' else Equiv.refl NodeId

section

variable (h : Bisects b b' f f') (hf : f.Forest) (ht : f.Tables)

include h hf ht

theorem origin_cut (hx : x ∈ f.blocks) :
    f'.origin v (Equiv.swap b b' x) = (f.origin v x).map (naming f' v b b') := by
  by_cases hnew : f'.Decides v b'
  · rw [naming, if_pos hnew]
    exact h.origin_swap hf ht hnew hx
  · rw [naming, if_neg hnew]
    refine Eq.trans ?_ Option.map_id'.symm
    by_cases hxb : x = b
    · rw [hxb, Equiv.swap_apply_left, h.origin_second hf ht hnew, h.origin_old hf ht hnew h.first]
    · have hxb' := h.ne_new hx
      rw [Equiv.swap_apply_of_ne_of_ne hxb hxb', h.origin_old hf ht hnew hx]

omit hf in
theorem origin_ne_new (hf : f.Forest) (hx : x ∈ f.blocks) : f.origin v x ≠ some b' :=
  h.out_ne_new ht (origin_finest hf.net (Solution.placed ht)).marks hx

omit hf ht in
theorem sight_cut {a : Option NodeId} (ha : a ≠ some b') :
    f'.sightFrom v (a.map (naming f' v b b')) = f.sightFrom v a := by
  cases a with
  | none => rfl
  | some y =>
    have hyb' : y ≠ b' := fun he => ha (congrArg some he)
    by_cases hnew : f'.Decides v b'
    · rw [naming, if_pos hnew, Option.map_some]
      by_cases hyb : y = b
      · rw [h.decides_new] at hnew
        have hlast : f.lastDef v b = f'.lastDef v b' := by
          rw [Func.lastDef, h.halves, List.getLast?_append_of_ne_nil _ hnew, Func.lastDef]
        rw [hyb, Equiv.swap_apply_left, sightFrom, sightFrom, hlast]
        cases hl : f'.lastDef v b' with
        | some i => rfl
        | none => exact absurd (List.getLast?_eq_none_iff.mp hl) hnew
      · rw [Equiv.swap_apply_of_ne_of_ne hyb hyb', sightFrom, sightFrom, Func.lastDef, Func.lastDef,
          h.locals y v hyb hyb']
    · rw [naming, if_neg hnew, Option.map_some, Equiv.refl_apply, sightFrom, sightFrom]
      have hlocals : f'.locals y v = f.locals y v := by
        by_cases hyb : y = b
        · rw [h.decides_new, not_not] at hnew
          rw [hyb, h.halves, hnew, List.append_nil]
        · exact h.locals y v hyb hyb'
      rw [Func.lastDef, Func.lastDef, hlocals]

theorem view_old (hx : x ∈ f.blocks) : f'.view v x = f.view v x := by
  refine view_congr (Option.map_injective (Equiv.injective (naming f' v b b'))) rfl (h.joins x v) ?_
    fun p hp => h.sight_cut (h.origin_ne_new ht hf (hf.pred_mem hx hp))
  rw [h.preds_old hx, List.forall₂_map_right_iff]
  exact List.forall₂_same.mpr fun p hp => h.origin_cut hf ht (hf.pred_mem hx hp)

/-- The second half sees the last definition of the first, or what the first sees. -/
theorem view_second : f'.view v b' =
    match f'.lastDef v b with
    | some i => .definition i
    | none => f.view v b := by
  have hsees : f'.view v b' = f'.sightFrom v (f'.origin v b) := by
    refine view_of_agree h.joinNodes_new (fun hnil => ?_) fun p hp => ?_
    · rw [h.preds_new] at hnil
      cases hnil
    · rw [h.preds_new, List.mem_singleton] at hp
      rw [hp]
  rw [hsees, ← h.view_old hf ht h.first]
  by_cases hd : f'.Decides v b
  · rw [origin_of_decides hd, sightFrom]
    cases hl : f'.lastDef v b with
    | some i => rfl
    | none =>
      have hnil := List.getLast?_eq_none_iff.mp hl
      exact (view_of_nodes ((h.tables.decides_iff.mp hd).resolve_left (not_not.mpr hnil))).symm
  · have hnil : f'.locals b v = [] := by
      rw [h.tables.decides_iff, not_or, Defining, not_not] at hd
      exact hd.1
    rw [Func.lastDef, hnil]
    exact (view_of_passing (h.reshapes.forest hf) h.tables
        (h.mem_blocks.mpr (.inl h.first)) hd).symm

end

end Bisects

end DefFlow.Flow
