import DefFlow.Proofs.Resolution.Beside
import DefFlow.Proofs.Runs.Requests
import DefFlow.Proofs.State.Linked

/-!
# Resolving and propagating in linked functions

Every answer names a timeline of the variable that was asked for, so whatever a resolution
builds and a propagation binds leaves a linked function linked. Nothing is asked of the shape
of the trees: the function may be half edited.
-/

set_option autoImplicit false

namespace DefFlow.Flow

open Func Component

section

variable {f f' : Func} {b p : NodeId} {v : VarId} {t : TimelineId} {n : IncomingId}
  {T : Option TimelineId} {s : Stack}

/-! ## Building joins -/

theorem Weaves.outlives (h : Weaves f f') (hf : f.Linked) : Outlives f f' :=
  h.toRewires.outlives hf.tables h.linked.tables

theorem Func.Target.weaves (h : f.Target v T) (hw : Weaves f f') (hf : f.Linked) :
    f'.Target v T :=
  h.mono hw.toRewires hf.tables hw.linked.tables

theorem target_none (f : Func) (v : VarId) : f.Target v none := fun _ h => by cases h

theorem target_of_timelineId? (h : f.Tables) (ht : f.timelineId? b v = some t) :
    f.Target v (some t) := by
  intro u hu
  cases hu
  obtain ⟨x, hx, _, hv⟩ := h.placed ht
  exact ⟨x, hx, hv⟩

theorem pathTarget_weaves (h : f.Linked) (hs : s.Real f) {join : NodeId} {r : Reach}
    (hr : r.Real f s.var) (hrun : Edit.pathTarget s join r f = .ok T f') :
    Weaves f f' ∧ f'.Target s.var T := by
  obtain ⟨c, f₁, hask, hrun⟩ := Edit.bind_ok hrun
  obtain ⟨hcanon, rfl⟩ := Edit.ask_ok hask
  have hc := hs.canon hr hcanon
  cases c with
  | undefined =>
    cases hrun
    exact ⟨.refl h, target_none _ _⟩
  | timeline t =>
    cases hrun
    refine ⟨.refl h, fun u hu => ?_⟩
    cases hu
    exact hc
  | pending b => cases hrun
  | join b =>
    obtain ⟨t, f₂, hfor, hrun⟩ := Edit.bind_ok hrun
    cases hrun
    obtain ⟨hw, hid⟩ := timelineFor_weaves h hc hfor
    exact ⟨hw, target_of_timelineId? hw.linked.tables hid⟩

theorem buildJoin_weaves (h : f.Linked) (hs : s.Real f) {x : Frame} (hx : x.Real f s.var)
    (hd : x.preds = f.preds x.join) {out : List IncomingId} (hrun : Edit.buildJoin s x f = .ok out
        f') : Weaves f f' := by
  rw [buildJoin_eq] at hrun
  obtain ⟨t, f₁, hfor, hrun⟩ := Edit.bind_ok hrun
  obtain ⟨h₁, hid⟩ := timelineFor_weaves h hx.join hfor
  refine (Edit.mapM_ok (fun g => Weaves f g ∧ g.timelineId? x.join s.var = some t)
    (fun _ => True) (fun {e g m g'} he hg hlink => ?_) ⟨h₁, hid⟩ hrun).1.1
  obtain ⟨hg, hid⟩ := hg
  have ho := hg.outlives h
  obtain ⟨T, g₁, hpath, hlink⟩ := Edit.bind_ok hlink
  obtain ⟨hw, hT⟩ := pathTarget_weaves hg.linked (hs.mono ho)
    ((hx.values _ (List.of_mem_zip he).2).mono ho) hpath
  have hp := hw.block (ho.blocks (hx.preds _ (List.of_mem_zip he).1))
  have hedge : e.1 ∈ g₁.preds x.join := by
    rw [(hg.trans hw).preds, ← hd]
    exact (List.of_mem_zip he).1
  have hl := linkIncoming_weaves hw.linked (hw.id hid) hp (fun _ => hedge) hT hlink
  exact ⟨⟨(hg.trans hw).trans hl, hl.id (hw.id hid)⟩, trivial⟩

theorem buildJoins_weaves (h : f.Linked) (hs : s.Found f v) (hd : s.Drawn f) {s' : Stack}
    (hrun : Edit.buildJoins s f = .ok s' f') : Weaves f f' ∧ s'.Found f' v := by
  obtain ⟨created, f₁, hmap, hrun⟩ := Edit.bind_ok hrun
  cases hrun
  have hw := (Edit.mapM_ok (fun g => Weaves f g) (fun _ => True)
    (fun {j g out g'} hj hg hbuild => by
      have ho := hg.outlives h
      have hjoin := hs.phis j (Stack.mem_surviving.mp hj).1
      have hdrawn : (s.frame j).preds = g.preds (s.frame j).join := by
        rw [hg.preds]
        exact hd.frame hjoin
      exact ⟨hg.trans (buildJoin_weaves hg.linked (hs.toReal.mono ho) ((hs.frame hjoin).mono ho)
        hdrawn hbuild), trivial⟩)
    (.refl h) hmap).1
  have hfound := hs.mono (hw.outlives h)
  have hreal := hfound.toReal
  exact ⟨hw, ⟨hreal.frames, hreal.phis, hreal.tops, hreal.replaced, hreal.root⟩, hfound.var,
    hfound.ended⟩

/-! ## Resolving -/

theorem answer_weaves {q : Question} (h : f.Linked) (hb : (f.nodes.get? q.block).isSome)
    (hrun : Edit.answer q f = .ok s f') : Weaves f f' ∧ s.Found f' q.var := by
  obtain ⟨-, ⟨hm, rfl⟩ | ⟨-, s₀, g, hsolve, rfl, hbuild⟩⟩ := Edit.answer_cases hrun
  · obtain ⟨l, r, hl, _⟩ := List.lookup_eq_some_iff.mp hm
    have hmem : (q, s) ∈ f'.memo := by
      rw [hl]
      exact List.mem_append_right _ List.mem_cons_self
    exact ⟨.refl h, h.recalls hmem⟩
  have hs₀ := solve_real h.toGrounds hb hsolve
  have hsolution : f.Forest → q.block ∈ blocksAll f.trees → ∃ root rest,
      (root :: rest).Perm f.trees ∧ q.block ∈ root.blocks ∧
      Solution (f.rooted root rest) q.var q.block s₀ ∧ Finest (f.rooted root rest) q.var
        (s₀.Visited (f.rooted root rest) q.var) (s₀.out (f.rooted root rest) q.var) := by
    intro hf hin
    obtain ⟨root, rest, hp, hbr⟩ := exists_root hin
    obtain ⟨s, hs, hsol⟩ := solve_finest (forest_rooted hf hp).net
      (Solution.placed (tables_rooted h.tables)) (v := q.var) hbr
    rw [solve_congr (f := f) (preds_rooted hf.nodup hp) (fun _ _ => rfl) (fun _ _ => rfl) rfl
      rfl] at hs
    cases hsolve.symm.trans hs
    exact ⟨root, rest, hp, hbr, hsol⟩
  -- Where no join may be built the search itself is the answer.
  obtain ⟨hg, hs, hmeets⟩ : Weaves f g ∧ s.Found g q.var ∧
      (f.Forest → q.block ∈ blocksAll f.trees → ∃ r, s.resolution g = .ok r ∧ g.Meets q r) := by
    rcases hbuild with ⟨hkeep, rfl, rfl⟩ | ⟨-, hbuild⟩
    · refine ⟨.refl h, hs₀, fun hf hin => ?_⟩
      obtain ⟨root, rest, hp, hbr, hsol, hfine⟩ := hsolution hf hin
      obtain ⟨r, hr, hcases⟩ := hsol.tells_or_unbuilt_beside hf hp h.tables hbr hfine
      exact ⟨r, hr, hcases.imp_right fun hk => ⟨hkeep, hk⟩⟩
    · obtain ⟨hg, hs⟩ := buildJoins_weaves h hs₀ (solve_drawn hsolve) hbuild
      refine ⟨hg, hs, fun hf hin => ?_⟩
      obtain ⟨root, rest, hp, hbr, hsol, hfine⟩ := hsolution hf hin
      obtain ⟨c, g', hbuild', hbuilt⟩ := hsol.buildJoins_beside (g := f) (forest_rooted hf hp)
        (tables_rooted h.tables) h.tables rfl rfl rfl
      cases hbuild.symm.trans hbuild'
      obtain ⟨-, r, hr, htells⟩ := hsol.tells_beside hf hp h.tables hbr hfine hbuilt (c := c)
      exact ⟨r, hr, Or.inl htells⟩
  have hmemo : Relinks g { g with memo := (q, s) :: g.memo } := .memo hg.linked fun {q r} hr => by
    rcases List.mem_cons.mp hr with hr | hr
    · cases hr
      exact hs
    · exact hg.linked.recalls hr
  exact ⟨⟨hg.toRelinks.trans hmemo, hg.nodes, hg.edged, fun hf hr =>
      retells_cons (hg.retells hf hr) fun hb => hmeets hf (hg.trees ▸ hb)⟩,
    hs.mono (hmemo.outlives hg.linked.tables hmemo.linked.tables)⟩

theorem stackAt_weaves (h : f.Linked) (hb : (f.nodes.get? b).isSome)
    (hrun : Edit.stackAt b v f = .ok s f') : Weaves f f' ∧ s.Found f' v :=
  answer_weaves h hb hrun

theorem resolution_target (h : f.Tables) (hs : s.Real f) {r : Resolution}
    (hrun : s.resolution f = .ok r) : f.Target s.var r.timeline? := by
  rw [Stack.resolution, Stack.resolutionOf] at hrun
  obtain ⟨c, hcanon, hrun⟩ := of_bind_ok hrun
  have hc := hs.canon hs.root hcanon
  cases c with
  | timeline t =>
    cases hrun
    intro u hu
    cases hu
    exact hc
  | join b =>
    dsimp only at hrun
    split at hrun
    · next t ht =>
      cases hrun
      rw [joined?, Option.filter_eq_some_iff] at ht
      exact target_of_timelineId? h ht.1
    · cases hrun
      exact target_none _ _
  | _ =>
    cases hrun
    exact target_none _ _

theorem resolveAt_weaves (h : f.Linked) (hb : (f.nodes.get? b).isSome) {r : Resolution}
    (hrun : Edit.resolveAt b v f = .ok r f') : Weaves f f' ∧ f'.Target v r.timeline? := by
  obtain ⟨s, f₁, hstack, hask⟩ := Edit.bind_ok hrun
  obtain ⟨hw, hs⟩ := stackAt_weaves h hb hstack
  obtain rfl := hs.var
  obtain ⟨hres, rfl⟩ := Edit.ask_ok hask
  exact ⟨hw, resolution_target hw.linked.tables hs.toReal hres⟩

theorem valueLeaving_weaves (h : f.Linked) (hb : (f.nodes.get? b).isSome)
    (hrun : Edit.valueLeaving b v f = .ok T f') : Weaves f f' ∧ f'.Target v T := by
  rw [Edit.valueLeaving, Edit.bind_eq Edit.get_eq] at hrun
  cases he : f.explicit? b v with
  | some t =>
    rw [he] at hrun
    cases hrun
    exact ⟨.refl h, target_of_explicit? h.tables he⟩
  | none =>
    rw [he] at hrun
    obtain ⟨r, f₁, hres, hrun⟩ := Edit.bind_ok hrun
    cases hrun
    exact resolveAt_weaves h hb hres

theorem stored_of_mem_timelines {e : VarId × TimelineId} (h : e ∈ (f.blockAt b).timelines) :
    (f.nodes.get? b).isSome := by
  rw [blockAt] at h
  cases hb : f.nodes.get? b with
  | some x => rfl
  | none =>
    rw [hb] at h
    cases h

theorem resolveAll_weaves (h : f.Linked) {k : Nat} (hrun : Edit.resolveAll f = .ok k f') :
    Weaves f f' := by
  refine Edit.resolveAll_ok (I := Weaves f) (fun {b g e} _ hg he => ?_)
    (fun {b v s g g'} (hb : (f.nodes.get? b).isSome) hg hstack => ?_) (.refl h) hrun
  · rw [← hg.stored]
    exact stored_of_mem_timelines he
  · exact hg.trans (stackAt_weaves hg.linked (hg.block hb) hstack).1

/-! ## Binding many nodes -/

def Func.NodesOf (f : Func) (v : VarId) (nodes : List IncomingId) : Prop :=
  ∀ n ∈ nodes, ∃ i, f.incoming.get? n = some i ∧ (f.timelineAt i.owner).var = v

theorem nodesOf_joinNodes (h : f.Tables) (b : NodeId) (v : VarId) :
    f.NodesOf v (f.joinNodes b v) := by
  intro n hn
  obtain ⟨t, i, hid, hi, rfl⟩ := h.get?_of_mem hn
  exact ⟨i, hi, h.var_eq hid⟩

theorem Func.NodesOf.weaves {nodes : List IncomingId} (h : f.NodesOf v nodes)
    (hw : Weaves f f') (hf : f.Linked) : f'.NodesOf v nodes := by
  intro n hn
  obtain ⟨i, hi, hv⟩ := h n hn
  obtain ⟨x, hx, _⟩ := hf.tables.node hi
  obtain ⟨j, hj, ho, _⟩ := hw.nodes hi
  obtain ⟨y, hy, _, hyv⟩ := hw.live hf.tables hw.linked.tables hx
  refine ⟨j, hj, ?_⟩
  rw [ho, timelineAt_of_get? hy, hyv, ← hv, timelineAt_of_get? hx]

theorem rebind_nodesOf {nodes : List IncomingId} (h : f.Linked) (hn : f.NodesOf v nodes)
    (hm : n ∈ nodes) (hT : f.Target v T) {c : Bool} (hrun : Edit.rebind n T f = .ok c f') :
    Weaves f f' := by
  obtain ⟨i, hi, hv⟩ := hn n hm
  exact rebind_weaves h hi (hv ▸ hT) hrun

/-- Where the value that leaves a block is one of this function. -/
def Edit.Outlook.Sound (o : Edit.Outlook) : Prop :=
  ∀ {f f' : Func} {b v T}, f.Linked → (f.nodes.get? b).isSome → o.leaving b v f = .ok T f' →
    Weaves f f' ∧ f'.Target v T

theorem rebindNodes_weaves {o : Edit.Outlook} (ho : o.Sound) (h : f.Linked)
    {admitted : List NodeId} {step : PropagationStep} {nodes : List IncomingId} {k : Nat}
    (hn : f.NodesOf v nodes) (hs : f.Target v step.value)
    (hrun : Edit.rebindNodes o v admitted step nodes f = .ok k f') : Weaves f f' := by
  refine Edit.foldlM_ok (fun g => Weaves f g) (fun {count n g count' g'} hm hg hround => ?_)
    (.refl h) hrun
  have hng := hn.weaves hg h
  rw [Edit.bind_eq Edit.get_eq] at hround
  split at hround
  · cases hround
    exact hg
  -- The target is known, or is asked for at the predecessor of the node.
  have bind : ∀ {k : Func} {T : Option TimelineId}, Weaves g k → k.Target v T →
      (do if ← Edit.rebind n T then return count + 1 else return count : Edit Nat) k =
        .ok count' g' → Weaves f g' := by
    intro k T hk hT hround
    obtain ⟨c, k₁, hbind, hround⟩ := Edit.bind_ok hround
    have hw := rebind_nodesOf hk.linked (hng.weaves hk hg.linked) hm hT hbind
    have hsame : g' = k₁ := by
      cases c <;> (cases hround; rfl)
    rw [hsame]
    exact (hg.trans hk).trans hw
  dsimp only at hround
  split at hround
  · exact bind (.refl hg.linked) (hs.weaves hg h) hround
  · obtain ⟨T, k, hleave, hround⟩ := Edit.bind_ok hround
    obtain ⟨i, hi, _⟩ := hng n hm
    obtain ⟨hk, hT⟩ := ho hg.linked (by
      rw [incomingAt_of_get? hi]
      exact hg.linked.pred hi) hleave
    exact bind hk hT hround

theorem carriedOn_target (h : f.Tables) {mark : IncomingId} {step : PropagationStep}
    {r : Option (Option TimelineId × Bool)} (hs : f.Target v step.value)
    (hrun : Edit.carriedOn v mark step f = .ok r f') :
    f' = f ∧ ∀ e, r = some e → f.Target v e.1 := by
  rw [Edit.carriedOn, Edit.bind_eq Edit.get_eq] at hrun
  cases hid : f.timelineId? step.block v with
  | none =>
    rw [hid] at hrun
    dsimp only at hrun
    split at hrun
    · cases hrun
      exact ⟨rfl, fun e he => by cases he; exact target_none _ _⟩
    · cases hrun
      exact ⟨rfl, fun e he => by cases he; exact hs⟩
  | some t =>
    rw [hid] at hrun
    dsimp only at hrun
    split at hrun
    · split at hrun
      · cases hrun
        exact ⟨rfl, fun e he => by cases he⟩
      · cases hrun
        exact ⟨rfl, fun e he => by cases he; exact target_of_timelineId? h hid⟩
    · split at hrun
      · cases hrun
        exact ⟨rfl, fun e he => by cases he⟩
      · split at hrun
        · cases hrun
          exact ⟨rfl, fun e he => by cases he; exact target_none _ _⟩
        · cases hrun
          exact ⟨rfl, fun e he => by cases he; exact hs⟩

theorem spread_weaves {o : Edit.Outlook} (ho : o.Sound) {fuel : Nat} : ∀ {f f' : Func}
    {steps : List PropagationStep} {visited : List (NodeId × NodeId)} {count k : Nat}, f.Linked →
    (∀ step ∈ steps, f.Target v step.value) →
    Edit.spread o v fuel steps visited count f = .ok k f' → Weaves f f' := by
  induction fuel with
  | zero =>
    intro f f' steps visited count k h _ hrun
    cases hrun
    exact .refl h
  | succ fuel ih =>
    intro f f' steps visited count k h hsteps hrun
    cases steps with
    | nil =>
      cases hrun
      exact .refl h
    | cons step queue =>
      have hs := hsteps step List.mem_cons_self
      rw [Edit.spread, Edit.bind_eq Edit.get_eq] at hrun
      obtain ⟨c, f₁, hnodes, hrun⟩ := Edit.bind_ok hrun
      have h₁ := rebindNodes_weaves ho h (nodesOf_joinNodes h.tables _ v) hs hnodes
      obtain ⟨r, f₂, hcarry, hrun⟩ := Edit.bind_ok hrun
      obtain ⟨rfl, hr⟩ := carriedOn_target h₁.linked.tables (hs.weaves h₁ h) hcarry
      have hqueue : ∀ step ∈ queue, f₂.Target v step.value := fun s hm =>
        (hsteps s (List.mem_cons_of_mem _ hm)).weaves h₁ h
      cases r with
      | none => exact h₁.trans (ih h₁.linked hqueue hrun)
      | some e =>
        obtain ⟨value, known⟩ := e
        dsimp only at hrun
        rw [Edit.bind_eq Edit.get_eq] at hrun
        refine h₁.trans (ih h₁.linked (fun s hm => ?_) hrun)
        rcases List.mem_append.mp hm with hm | hm
        · exact hqueue s hm
        · obtain ⟨_, _, rfl⟩ := List.mem_map.mp hm
          exact hr (value, known) rfl

theorem announce_weaves {o : Edit.Outlook} (ho : o.Sound) (h : f.Linked)
    (ht : (f.timelines.get? t).isSome) {cache : Option IncomingCache} {k : Nat}
    (hrun : Edit.announce o t cache f = .ok k f') : Weaves f f' := by
  obtain ⟨x, hx⟩ := Option.isSome_iff_exists.mp ht
  rw [Edit.announce, Edit.bind_eq Edit.get_eq, timelineAt_of_get? hx] at hrun
  dsimp only at hrun
  split at hrun
  · cases hrun
    exact .refl h
  · refine spread_weaves ho h (fun step hm => ?_) hrun
    obtain ⟨⟨s, i⟩, _, rfl⟩ := List.mem_map.mp hm
    intro u hu
    cases hu
    exact ⟨x, hx, rfl⟩

theorem propagate_weaves (h : f.Linked) (ht : (f.timelines.get? t).isSome)
    {cache : Option IncomingCache} {k : Nat} (hrun : Edit.propagate t cache f = .ok k f') :
    Weaves f f' := by
  obtain ⟨_, hrun⟩ := Edit.unfrozen_bind_ok hrun
  rw [Edit.bind_eq Edit.get_eq] at hrun
  exact announce_weaves (fun hf hb hleave => valueLeaving_weaves hf hb hleave) h ht hrun

/-- The nodes that refer to a timeline are nodes of its variable. -/
theorem nodesOf_referrers (h : f.Tables) {x : Timeline} (hx : f.timelines.get? t = some x) :
    f.NodesOf x.var x.referrers := by
  intro n hn
  obtain ⟨i, hi, hit⟩ := h.referrer hx hn
  obtain ⟨y, hy, _, hv⟩ := h.target hi hit
  rw [hx, Option.some.injEq] at hy
  exact ⟨i, hi, by rw [← hv, hy]⟩

theorem retarget_weaves (h : f.Linked) {u : Unit} (hrun : Edit.retarget t f = .ok u f') :
    Weaves f f' := by
  rw [Edit.retarget, Edit.bind_eq Edit.get_eq] at hrun
  dsimp only at hrun
  split at hrun
  · cases hrun
    exact .refl h
  · next hne =>
    -- A timeline with referrers is there.
    obtain ⟨x, hx⟩ : ∃ x, f.timelines.get? t = some x := by
      cases hx : f.timelines.get? t with
      | some x => exact ⟨x, rfl⟩
      | none =>
        rw [timelineAt, hx] at hne
        exact absurd rfl hne
    rw [timelineAt_of_get? hx] at hrun
    obtain ⟨r, f₁, hres, hrun⟩ := Edit.bind_ok hrun
    obtain ⟨h₁, hT⟩ := resolveAt_weaves h (stored_of_timelineId? (h.tables.listed hx)) hres
    obtain ⟨y, hy, _, hyv⟩ := h₁.live h.tables h₁.linked.tables hx
    split at hrun
    · cases hrun
      exact h₁
    · rw [Edit.bind_eq Edit.get_eq, timelineAt_of_get? hy] at hrun
      have hn := nodesOf_referrers h₁.linked.tables hy
      rw [hyv] at hn
      obtain ⟨g, hg, hrun⟩ := Edit.forIn_ok (k := fun _ => pure PUnit.unit) (u := PUnit.unit)
        (fun _ g => Weaves f₁ g)
        (fun done n rest g s g' hl hg hround => by
          obtain ⟨c, g₁, hbind, hround⟩ := Edit.bind_ok hround
          cases hround
          have hm : n ∈ y.referrers := by rw [hl]; simp
          exact ⟨rfl, hg.trans (rebind_nodesOf hg.linked (hn.weaves hg h₁.linked) hm
            (hT.weaves hg h₁.linked) hbind)⟩) (.refl h₁.linked) hrun
      cases hrun
      exact h₁.trans hg

/-! ## Pruning -/

/-- Nodes that are there can be removed one after the other. -/
theorem removeAll_ok {nodes : List IncomingId} (h : f.Linked)
    (hn : ∀ n ∈ nodes, (f.incoming.get? n).isSome) (hd : nodes.Nodup) :
    ∃ g, nodes.forM Edit.removeIncoming f = .ok () g ∧ Relinks f g ∧
      (∀ m, g.incoming.get? m = if m ∈ nodes then none else f.incoming.get? m) ∧
      g.incoming.size = f.incoming.size ∧ (nodes ≠ [] → g.memo = []) := by
  obtain ⟨g, hrun, hg, hget, hsize, hmemo⟩ := Edit.forM_run (l := nodes) (f := f)
    (g := Edit.removeIncoming)
    (fun done g => Relinks f g ∧
      (∀ m, g.incoming.get? m = if m ∈ done then none else f.incoming.get? m) ∧
      g.incoming.size = f.incoming.size ∧ (done ≠ [] → g.memo = []))
    (fun {done n rest g} hl ⟨hg, hget, hsize, _⟩ => by
      have hm : n ∈ nodes := by rw [hl]; simp
      have hnew : n ∉ done := by
        rw [hl, List.nodup_append] at hd
        exact fun hm => hd.2.2 n hm n List.mem_cons_self rfl
      have hlive : (g.incoming.get? n).isSome := by
        rw [hget, if_neg hnew]
        exact hn n hm
      obtain ⟨i, hi⟩ := Option.isSome_iff_exists.mp hlive
      have hremove := removeIncoming_eq hi
      obtain ⟨hr, hget'⟩ := removeIncoming_relinks hg.linked hlive hremove
      refine ⟨_, hremove, hg.trans hr, fun m => ?_, size_unlinked.trans hsize, fun _ => rfl⟩
      rw [hget', hget]
      by_cases hmn : m = n <;> by_cases hmd : m ∈ done <;> simp [hmn, hmd])
    ⟨.refl h, fun m => by simp, rfl, fun hne => absurd rfl hne⟩
  exact ⟨g, hrun, hg, hget, hsize, hmemo⟩

theorem pruneTimeline_relinks (h : f.Linked) {r : Nat × Bool}
    (hrun : Edit.pruneTimeline t f = .ok r f') : Relinks f f' ∧ Forgets f f' := by
  rw [Edit.pruneTimeline, Edit.bind_eq Edit.get_eq] at hrun
  obtain ⟨_, f₁, hremove, hrun⟩ := Edit.bind_ok hrun
  rw [Edit.bind_eq Edit.get_eq] at hrun
  cases hrun
  cases hx : f.timelines.get? t with
  | none =>
    rw [timelineAt, hx] at hremove
    cases hremove
    exact ⟨.refl h, Or.inl rfl⟩
  | some x =>
    rw [timelineAt_of_get? hx] at hremove
    obtain ⟨g, hrun, hr, -, -, hmemo⟩ := removeAll_ok h (fun n hn => by
      obtain ⟨i, hi, _⟩ := h.tables.owner hx (List.mem_filter.mp hn).1
      rw [hi]
      rfl) ((h.tables.nodes_nodup hx).filter _)
    rw [hrun] at hremove
    cases hremove
    refine ⟨hr, ?_⟩
    by_cases hnil :
        x.incoming.filter (fun n => !(f.preds x.block).contains (f.incomingAt n).pred) = []
    · rw [hnil] at hrun
      cases hrun
      exact Or.inl rfl
    · exact Or.inr (hmemo hnil)

theorem pruneIncoming_relinks (h : f.Linked) {k : Nat}
    (hrun : Edit.pruneIncoming f = .ok k f') : Relinks f f' :=
  Edit.pruneIncoming_ok (fun hg hprune => hg.trans (pruneTimeline_relinks hg.linked hprune).1)
    (fun hg hretarget => hg.trans (retarget_weaves hg.linked hretarget).toRelinks) (.refl h) hrun

/-! ## Binding by hand -/

theorem rebind_var {c : Bool} (hrun : Edit.rebind n T f = .ok c f') :
    ∀ t, T = some t → (f.timelineAt t).var = (f.timelineAt (f.incomingAt n).owner).var := by
  intro t ht
  rw [Edit.rebind, Edit.bind_eq Edit.get_eq, ht] at hrun
  exact of_decide_eq_true (Edit.require_bind_ok hrun).1

theorem bindTo_eq {target : Option TimelineRef} (h : ∀ t ∈ target, t.owner = f.handle) :
    Edit.bindTo n target f = Edit.rebind n (target.map TimelineRef.id) f := by
  cases target with
  | none => rfl
  | some t =>
    rw [Edit.bindTo, Edit.bind_eq Edit.get_eq, if_pos (h t rfl)]
    rfl

theorem target_of_live {target : Option TimelineRef} (hl : ∀ t ∈ target, f.hasTimeline t.id = true)
    (hv : ∀ t, target.map TimelineRef.id = some t → (f.timelineAt t).var = v) :
    f.Target v (target.map TimelineRef.id) := by
  intro u hu
  obtain ⟨t, ht, rfl⟩ := Option.map_eq_some_iff.mp hu
  obtain ⟨x, hx⟩ := Option.isSome_iff_exists.mp (hl t ht)
  exact ⟨x, hx, by rw [← hv _ hu, timelineAt_of_get? hx]⟩

theorem bindTo_weaves (h : f.Linked) (hn : f.hasNode n = true) {target : Option TimelineRef}
    (hown : f.ownTarget target = true) {c : Bool} (hrun : Edit.bindTo n target f = .ok c f') :
    Weaves f f' := by
  obtain ⟨i, hi⟩ := Option.isSome_iff_exists.mp hn
  simp only [ownTarget, Option.all_eq_true, Bool.and_eq_true, decide_eq_true_eq] at hown
  rw [bindTo_eq fun t ht => (hown t ht).1] at hrun
  refine rebind_weaves h hi (target_of_live (fun t ht => (hown t ht).2) fun t ht => ?_) hrun
  rw [rebind_var hrun t ht, incomingAt_of_get? hi]

/-- What binds the node decides how a predecessor is linked. -/
theorem linkBound_congr {bound bound' : IncomingId → Edit Bool}
    (h : ∀ g : Func, g.handle = f.handle → ∀ m, bound m g = bound' m g) :
    Edit.linkBound t p bound f = Edit.linkBound t p bound' f := by
  have left : ∀ {α β : Type} {x y : Edit α} {k : α → Edit β} {g : Func}, x g = y g →
      (x >>= k) g = (y >>= k) g := by
    intro α β x y k g hxy
    change EStateM.bind x k g = EStateM.bind y k g
    rw [EStateM.bind, EStateM.bind, hxy]
  rw [Edit.linkBound, Edit.linkBound, Edit.bind_eq Edit.get_eq, Edit.bind_eq Edit.get_eq]
  cases f.incomingFrom? t p with
  | some n => exact left (h f rfl n)
  | none => exact left (h { f with incoming := f.incoming.push ⟨t, p, none⟩ } rfl _)

/-- A predecessor is linked to timelines of the variable only. -/
theorem linkBound_var (h : f.Tables) {x : Timeline} (hx : f.timelines.get? t = some x) {c : Bool}
    (hrun : Edit.linkBound t p (Edit.rebind · T) f = .ok (n, c) f') :
    ∀ u, T = some u → (f.timelineAt u).var = x.var := by
  intro u hu
  rw [Edit.linkBound, Edit.bind_eq Edit.get_eq] at hrun
  cases hfrom : f.incomingFrom? t p with
  | some m =>
    rw [hfrom] at hrun
    obtain ⟨c, f₁, hbind, _⟩ := Edit.bind_ok hrun
    rw [incomingFrom?, timelineAt_of_get? hx] at hfrom
    obtain ⟨i, hi, ho⟩ := h.owner hx (List.mem_of_find?_eq_some hfrom)
    rw [rebind_var hbind u hu, incomingAt_of_get? hi, ho, timelineAt_of_get? hx]
  | none =>
    rw [hfrom] at hrun
    obtain ⟨c, f₁, hbind, _⟩ := Edit.bind_ok (x := Edit.rebind f.incoming.next T)
      (f := { f with incoming := f.incoming.push ⟨t, p, none⟩ }) hrun
    have hv := rebind_var hbind u hu
    rw [show (({ f with incoming := f.incoming.push ⟨t, p, none⟩ } : Func).incomingAt
      f.incoming.next) = ⟨t, p, none⟩ by rw [incomingAt, Arena.get?_push, if_pos rfl]; rfl] at hv
    exact hv.trans (congrArg Timeline.var (timelineAt_of_get? hx))

theorem appendIncoming_relinks (h : f.Linked) {pred : ComponentRef} {target : Option TimelineRef}
    (ht : f.hasTimeline t = true) (hp : f.hasBlock pred.id = true)
    (hown : f.ownTarget target = true) {r : IncomingId × Bool}
    (hrun : Edit.appendIncoming t pred target f = .ok r f') : Relinks f f' ∧ Forgets f f' := by
  obtain ⟨x, hx⟩ := Option.isSome_iff_exists.mp ht
  simp only [ownTarget, Option.all_eq_true, Bool.and_eq_true, decide_eq_true_eq] at hown
  obtain ⟨_, hrun⟩ := Edit.unfrozen_bind_ok hrun
  rw [Edit.bind_eq Edit.get_eq] at hrun
  obtain ⟨_, hrun⟩ := Edit.require_bind_ok hrun
  rw [linkBound_congr fun g hg m => bindTo_eq fun t ht => (hown t ht).1.trans hg.symm] at hrun
  obtain ⟨n, c⟩ := r
  have hlink : Edit.linkIncoming t pred.id (target.map TimelineRef.id) f = .ok n f' := by
    rw [Edit.linkIncoming, Edit.bind_eq hrun]
    rfl
  obtain ⟨hr, hforgets, -⟩ := linkIncoming_relinks h (h.tables.listed hx) hp
    (target_of_live (fun t ht => (hown t ht).2) (linkBound_var h.tables hx hrun)) hlink
  exact ⟨hr, hforgets⟩

/-! ## Questions -/

theorem ownQuery_ok {c : ComponentRef} {w : Variable} {u : Unit}
    (hrun : Edit.ownQuery c w f = .ok u f') :
    (c.owner = f.handle ∧ w.owner = f.handle) ∧ f' = f := by
  rw [Edit.ownQuery, Edit.bind_eq Edit.get_eq] at hrun
  obtain ⟨hp, rfl⟩ := Edit.require_ok hrun
  simpa using hp

variable {c : ComponentRef} {w : Variable}

theorem resolve_weaves (h : f.Linked) (hb : f.hasBlock c.id = true) {r : Resolution}
    (hrun : Edit.resolve c w f = .ok r f') : Weaves f f' := by
  obtain ⟨_, f₁, hown, hrun⟩ := Edit.bind_ok hrun
  rw [(ownQuery_ok hown).2] at hrun
  exact (resolveAt_weaves h hb hrun).1

theorem resolveStack_weaves (h : f.Linked) (hb : f.hasBlock c.id = true)
    (hrun : Edit.resolveStack c w f = .ok s f') : Weaves f f' := by
  obtain ⟨_, f₁, hown, hrun⟩ := Edit.bind_ok hrun
  rw [(ownQuery_ok hown).2] at hrun
  exact (stackAt_weaves h hb hrun).1

theorem reprobe_weaves (h : f.Linked) (hb : f.hasBlock c.id = true) {r : Resolution}
    (hrun : Edit.reprobe c w f = .ok r f') : Weaves f f' := by
  obtain ⟨_, f₁, hown, hrun⟩ := Edit.bind_ok hrun
  rw [(ownQuery_ok hown).2] at hrun
  obtain ⟨s, g, hanswer, hrun⟩ := Edit.bind_ok hrun
  rw [(Edit.ask_ok hrun).2]
  exact (answer_weaves (q := ⟨c.id, w.id, true⟩) h hb hanswer).1

theorem reachingDef_weaves (h : f.Linked) {u : UseSite} {r : Reaching}
    (hb : ∀ b, (f.inst u.inst).block = some b → (f.nodes.get? b).isSome)
    (hrun : Edit.reachingDef u f = .ok r f') : Weaves f f' := by
  rw [Edit.reachingDef, Edit.bind_eq Edit.get_eq] at hrun
  cases hblock : (f.inst u.inst).block with
  | none =>
    rw [hblock] at hrun
    cases hrun
  | some b =>
    rw [hblock] at hrun
    cases hobs : f.observed? u with
    | some i =>
      rw [hobs] at hrun
      cases hrun
      exact .refl h
    | none =>
      rw [hobs] at hrun
      obtain ⟨_, f₁, hres, hrun⟩ := Edit.bind_ok hrun
      rw [Edit.bind_eq Edit.get_eq] at hrun
      cases hrun
      exact (resolveAt_weaves h (hb b hblock) hres).1

theorem reachingAt_weaves (h : f.Linked) (hb : f.hasBlock c.id = true) {position : Nat}
    {r : Reaching} (hrun : Edit.reachingAt c position w f = .ok r f') : Weaves f f' := by
  rw [Edit.reachingAt, Edit.bind_eq Edit.get_eq] at hrun
  cases hdef : f.latestDefBefore? c.id position w.id with
  | some i =>
    rw [hdef] at hrun
    cases hrun
    exact .refl h
  | none =>
    rw [hdef] at hrun
    obtain ⟨_, f₁, hres, hrun⟩ := Edit.bind_ok hrun
    rw [Edit.bind_eq Edit.get_eq] at hrun
    cases hrun
    exact resolve_weaves h hb hres

theorem outgoing_weaves (h : f.Linked) (ht : f.hasTimeline t = true) {r : Reaching}
    (hrun : Edit.outgoing t f = .ok r f') : Weaves f f' := by
  obtain ⟨x, hx⟩ := Option.isSome_iff_exists.mp ht
  rw [Edit.outgoing, Edit.bind_eq Edit.get_eq, timelineAt_of_get? hx] at hrun
  split at hrun
  · cases hrun
    exact .refl h
  · obtain ⟨_, f₁, hres, hrun⟩ := Edit.bind_ok hrun
    rw [Edit.bind_eq Edit.get_eq] at hrun
    cases hrun
    exact (resolveAt_weaves h (stored_of_timelineId? (h.tables.listed hx)) hres).1

end

end DefFlow.Flow
