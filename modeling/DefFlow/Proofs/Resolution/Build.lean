import DefFlow.Proofs.Resolution.Solve
import DefFlow.Proofs.State.Trees
import DefFlow.Proofs.State.Wiring

/-!
# Building joins

A resolution builds the joins that it needs and changes nothing else. Afterwards each
of them has one node for each predecessor, bound to the timeline whose value leaves
that predecessor.
-/

set_option autoImplicit false

namespace DefFlow.Flow

open Func

structure Extended (v : VarId) (J : NodeId → Prop) (f f' : Func) : Prop where
  keeps : Keeps f f'
  id : ∀ {b w t}, f.timelineId? b w = some t → f'.timelineId? b w = some t
  other : ∀ {b w}, w ≠ v → f'.timelineId? b w = f.timelineId? b w
  held : ∀ b w, f'.held b w = f.held b w
  waiting : ∀ b w, f'.waiting b w = f.waiting b w
  joinNodes : ∀ b w, ∃ l, f'.joinNodes b w = f.joinNodes b w ++ l ∧
    (∀ n ∈ l, f.incoming.size < n) ∧ (l ≠ [] → w = v ∧ J b)
  node : ∀ {n i}, f.incoming.get? n = some i → f'.incoming.get? n = some i
  live : ∀ {t}, (f.timelines.get? t).isSome → (f'.timelines.get? t).isSome
  size : f.incoming.size ≤ f'.incoming.size

namespace Extended

variable {v : VarId} {J : NodeId → Prop} {f f' f'' : Func}

theorem locals (h : Extended v J f f') (b : NodeId) (w : VarId) :
    f'.locals b w = f.locals b w := locals_of_held (h.held b w)

theorem refl (f : Func) : Extended v J f f where
  keeps := .refl f
  id h := h
  other _ := rfl
  held _ _ := rfl
  waiting _ _ := rfl
  joinNodes _ _ := ⟨[], by simp, by simp, by simp⟩
  node h := h
  live h := h
  size := Nat.le_refl _

theorem trans (h : Extended v J f f') (h' : Extended v J f' f'') : Extended v J f f'' where
  keeps := h.keeps.trans h'.keeps
  id ht := h'.id (h.id ht)
  other hw := (h'.other hw).trans (h.other hw)
  held b w := (h'.held b w).trans (h.held b w)
  waiting b w := (h'.waiting b w).trans (h.waiting b w)
  joinNodes b w := by
    obtain ⟨l, hl, hn, hJ⟩ := h.joinNodes b w
    obtain ⟨l', hl', hn', hJ'⟩ := h'.joinNodes b w
    refine ⟨l ++ l', by rw [hl', hl, List.append_assoc], fun n hm => ?_, fun hne => ?_⟩
    · rcases List.mem_append.mp hm with hm | hm
      · exact hn n hm
      · exact Nat.lt_of_le_of_lt h.size (hn' n hm)
    · by_cases he : l = []
      · exact hJ' fun he' => hne (by rw [he, he', List.append_nil])
      · exact hJ he
  node hn := h'.node (h.node hn)
  live ht := h'.live (h.live ht)
  size := Nat.le_trans h.size h'.size

theorem mono {K : NodeId → Prop} (h : Extended v J f f') (hJ : ∀ b, J b → K b) :
    Extended v K f f' := by
  refine { h with joinNodes := fun b w => ?_ }
  obtain ⟨l, hl, hn, hne⟩ := h.joinNodes b w
  exact ⟨l, hl, hn, fun h => ⟨(hne h).1, hJ b (hne h).2⟩⟩

theorem feeds (h : Extended v J f f') (ht : f.Tables) {b : NodeId} {w : VarId}
    (hb : ¬ (w = v ∧ J b)) : f'.feeds b w = f.feeds b w := by
  obtain ⟨l, hl, _, hJ⟩ := h.joinNodes b w
  have hnil : l = [] := by_contra fun hne => hb (hJ hne)
  rw [hnil, List.append_nil] at hl
  rw [Func.feeds, Func.feeds, hl]
  apply List.map_congr_left
  intro n hn
  obtain ⟨_, i, _, hi, _⟩ := ht.get?_of_mem hn
  rw [incomingAt_of_get? hi, incomingAt_of_get? (h.node hi)]

theorem ofLists {b : NodeId} {t : TimelineId} (h : Lists b v t f f') : Extended v J f f' where
  keeps := h.keeps
  id := fun {c w u} hu => by
    rw [h.id]
    split
    · next hc =>
      rw [hc.1, hc.2] at hu
      rcases h.old with hn | hn
      · rw [hn] at hu
        cases hu
      · rw [← hn, hu]
    · exact hu
  other := fun hw => by rw [h.id, if_neg fun hc => hw hc.2]
  held := h.held
  waiting := h.waiting
  joinNodes := fun c w => ⟨[], by rw [h.joinNodes, List.append_nil], by simp, by simp⟩
  node := fun hn => by rw [h.incoming]; exact hn
  live := fun hu => by
    obtain ⟨x, hx⟩ := Option.isSome_iff_exists.mp hu
    rw [h.live hx]
    rfl
  size := by rw [h.incoming]

theorem ofLinks {t : TimelineId} {b : NodeId} {n : IncomingId} {i : Incoming} (hb : J b)
    (h : Links t b v n i f f') : Extended v J f f' where
  keeps := h.keeps
  id := fun hu => by rw [h.same.id]; exact hu
  other := fun _ => h.same.id _ _
  held := h.same.held
  waiting := h.same.waiting
  joinNodes := fun c w => by
    rw [h.joinNodes]
    by_cases hc : c = b ∧ w = v
    · refine ⟨[n], if_pos hc, fun m hm => ?_, fun _ => ⟨hc.2, hc.1 ▸ hb⟩⟩
      rw [List.mem_singleton] at hm
      rw [hm, h.fresh, Arena.next_eq]
      exact Nat.lt_succ_self _
    · exact ⟨[], by rw [if_neg hc, List.append_nil], by simp, by simp⟩
  node := fun {m j} hm => by
    rw [h.get, if_neg, hm]
    rw [h.fresh]
    exact Arena.ne_next_of_get? _ hm
  live := fun hu => by rw [h.live]; exact hu
  size := by rw [h.size]; exact Nat.le_succ _

end Extended

def Func.aim (f : Func) (v : VarId) : Reach → Option TimelineId
  | .undefined => none
  | .timeline t => some t
  | .pending _ => none
  | .join k => f.timelineId? k v

def Func.Aimable (f : Func) (v : VarId) : Reach → Prop
  | .undefined => True
  | .timeline t => ∃ x, f.timelines.get? t = some x ∧ x.var = v
  | .pending _ => False
  | .join k => (f.nodes.get? k).isSome

section

variable {v : VarId} {J : NodeId → Prop} {f f' : Func}

theorem Func.Aimable.extended (h : Extended v J f f') (ht : f.Tables) (ht' : f'.Tables) {r : Reach}
    (hr : f.Aimable v r) : f'.Aimable v r := by
  cases r with
  | undefined => exact trivial
  | pending _ => exact hr
  | timeline t =>
    obtain ⟨x, hx, rfl⟩ := hr
    have hid := h.id (ht.listed hx)
    obtain ⟨y, hy, _, hv⟩ := ht'.placed hid
    exact ⟨y, hy, hv⟩
  | join k =>
    show (f'.nodes.get? k).isSome = true
    rw [h.keeps.stored]
    exact hr

/-- A node that is bound to a timeline stays bound to it. -/
theorem aim_extended (h : Extended v J f f') {r : Reach}
    (hr : ∀ k, r = .join k → (f.timelineId? k v).isSome) : f'.aim v r = f.aim v r := by
  cases r with
  | join k =>
    obtain ⟨t, ht⟩ := Option.isSome_iff_exists.mp (hr k rfl)
    show f'.timelineId? k v = f.timelineId? k v
    rw [ht, h.id ht]
  | _ => rfl

structure Readable (v : VarId) (s : Stack) : Prop where
  var : s.var = v
  canon : ∀ f r, s.canon f r = .ok (s.rep r)

theorem pathTarget_ok {s : Stack} (hs : Readable v s) (h : f.Tables) {r : Reach} (join : NodeId)
    (hr : f.Aimable v (s.rep r)) :
    ∃ f', Edit.pathTarget s join r f = .ok (f'.aim v (s.rep r)) f' ∧ f'.Tables ∧
      Extended v J f f' ∧ Forgets f f' ∧
      ∀ k, s.rep r = .join k → (f'.timelineId? k v).isSome := by
  rw [Edit.pathTarget, Edit.bind_eq (Edit.ask_eq (hs.canon f r))]
  cases hc : s.rep r with
  | undefined => exact ⟨f, rfl, h, .refl f, Or.inl rfl, by simp⟩
  | timeline t => exact ⟨f, rfl, h, .refl f, Or.inl rfl, by simp⟩
  | pending b =>
    rw [hc] at hr
    exact hr.elim
  | join b =>
    rw [hc] at hr
    obtain ⟨t, f', hrun, htab, hl⟩ := Edit.timelineFor_ok h hr v
    have hself : f'.timelineId? b v = some t := hl.self
    refine ⟨f', ?_, htab, .ofLists hl, hl.forgets, fun k hk => ?_⟩
    · simp only [hs.var]
      rw [Edit.bind_eq hrun, Func.aim, hself]
      rfl
    · cases hk
      rw [hself]
      rfl

def linkPath (s : Stack) (t : TimelineId) (join : NodeId) (e : NodeId × Reach) :
    Edit IncomingId := do
  Edit.linkIncoming t e.1 (← Edit.pathTarget s join e.2)

theorem buildJoin_eq (s : Stack) (x : Frame) :
    Edit.buildJoin s x = (do
      let t ← Edit.timelineFor x.join s.var
      (x.preds.zip x.values).mapM (linkPath s t x.join)) := rfl

structure LinkedPaths (v : VarId) (s : Stack) (j : NodeId) (l : List (NodeId × Reach))
    (f f' : Func) : Prop where
  tables : f'.Tables
  extended : Extended v (· = j) f f'
  forgets : Forgets f f'
  feeds : f'.feeds j v = f.feeds j v ++ l.map fun e => (e.1, f'.aim v (s.rep e.2))
  aimed : ∀ e ∈ l, ∀ k, s.rep e.2 = .join k → (f'.timelineId? k v).isSome

theorem linkPath_ok {s : Stack} (hs : Readable v s) {t : TimelineId} {j : NodeId}
    {e : NodeId × Reach} (h : f.Tables) (hid : f.timelineId? j v = some t)
    (hnew : e.1 ∉ (f.feeds j v).map Prod.fst) (hr : f.Aimable v (s.rep e.2)) :
    ∃ n f', linkPath s t j e f = .ok n f' ∧ LinkedPaths v s j [e] f f' := by
  obtain ⟨f₁, hrun, h₁, hext, _, haim⟩ := pathTarget_ok (J := (· = j)) hs h j hr
  have hid₁ := hext.id hid
  have hfeeds : f₁.feeds j v = f.feeds j v := by
    obtain ⟨f₂, hrun₂, _, hext₂, _⟩ := pathTarget_ok (J := fun _ => False) hs h j hr
    rw [hrun, EStateM.Result.ok.injEq] at hrun₂
    rw [hrun₂.2]
    exact hext₂.feeds h fun hf => hf.2
  obtain ⟨n, f', hlink, h', hlinks⟩ := linkIncoming_ok h₁ hid₁ (p := e.1)
    (T := f₁.aim v (s.rep e.2))
    (fun n hn he => hnew (by
      rw [← hfeeds]
      exact List.mem_map.mpr ⟨_, List.mem_map.mpr ⟨n, hn, rfl⟩, he⟩))
    (fun u hu => by
      have hr₁ := hr.extended hext h h₁
      cases hc : s.rep e.2 with
      | undefined => rw [hc] at hu; cases hu
      | pending _ => rw [hc] at hu; cases hu
      | timeline t =>
        rw [hc] at hu hr₁
        cases hu
        exact hr₁
      | join k =>
        rw [hc] at hu
        obtain ⟨x, hx, _, hv⟩ := h₁.placed hu
        exact ⟨x, hx, hv⟩)
  have hext' : Extended v (· = j) f₁ f' := .ofLinks rfl hlinks
  refine ⟨n, f', ?_, h', hext.trans hext', Or.inr hlinks.memo, ?_, ?_⟩
  · rw [linkPath, Edit.bind_eq hrun]
    exact hlink
  · rw [hlinks.feeds h₁, if_pos ⟨rfl, rfl⟩, hfeeds, List.map_singleton, aim_extended hext' haim]
  · intro e' he' k hk
    rw [List.mem_singleton] at he'
    subst he'
    obtain ⟨u, hu⟩ := Option.isSome_iff_exists.mp (haim k hk)
    rw [hext'.id hu]
    rfl

theorem linkPaths_ok {s : Stack} (hs : Readable v s) {t : TimelineId} {j : NodeId}
    (l : List (NodeId × Reach)) (h : f.Tables) (hid : f.timelineId? j v = some t)
    (hl : (l.map Prod.fst).Nodup) (hnew : ∀ e ∈ l, e.1 ∉ (f.feeds j v).map Prod.fst)
    (hr : ∀ e ∈ l, f.Aimable v (s.rep e.2)) :
    ∃ ns f', l.mapM (linkPath s t j) f = .ok ns f' ∧ LinkedPaths v s j l f f' := by
  induction l generalizing f with
  | nil => exact ⟨[], f, rfl, h, .refl f, Or.inl rfl, by simp, by simp⟩
  | cons e l ih =>
    rw [List.map_cons, List.nodup_cons] at hl
    obtain ⟨n, f₁, hrun, h₁⟩ := linkPath_ok hs h hid (hnew e List.mem_cons_self)
      (hr e List.mem_cons_self)
    have hnew₁ : ∀ e' ∈ l, e'.1 ∉ (f₁.feeds j v).map Prod.fst := by
      intro e' he' hm
      rw [h₁.feeds, List.map_append, List.mem_append] at hm
      rcases hm with hm | hm
      · exact hnew e' (List.mem_cons_of_mem _ he') hm
      · simp only [List.map_cons, List.map_nil, List.mem_singleton] at hm
        exact hl.1 (hm ▸ List.mem_map_of_mem he')
    obtain ⟨ns, f', hrun', h'⟩ := ih h₁.tables (h₁.extended.id hid) hl.2 hnew₁
      fun e' he' => (hr e' (List.mem_cons_of_mem _ he')).extended h₁.extended h h₁.tables
    refine ⟨n :: ns, f', ?_, h'.tables, h₁.extended.trans h'.extended,
      h₁.forgets.trans h'.forgets, ?_, ?_⟩
    · rw [List.mapM_cons, Edit.bind_eq hrun, Edit.bind_eq hrun']
      rfl
    · rw [h'.feeds, h₁.feeds, List.append_assoc]
      simp only [List.map_cons, List.map_nil, List.cons_append, List.nil_append]
      rw [aim_extended h'.extended (h₁.aimed e (by simp))]
    · intro e' he' k hk
      rcases List.mem_cons.mp he' with rfl | he'
      · obtain ⟨u, hu⟩ := Option.isSome_iff_exists.mp (h₁.aimed e' (by simp) k hk)
        rw [h'.extended.id hu]
        rfl
      · exact h'.aimed e' he' k hk

theorem buildJoin_ok {s : Stack} (hs : Readable v s) {x : Frame} (h : f.Tables)
    (hb : (f.nodes.get? x.join).isSome) (hfeeds : f.feeds x.join v = [])
    (hlen : x.preds.length = x.values.length) (hp : x.preds.Nodup)
    (hr : ∀ r ∈ x.values, f.Aimable v (s.rep r)) :
    ∃ ns f', Edit.buildJoin s x f = .ok ns f' ∧
      LinkedPaths v s x.join (x.preds.zip x.values) f f' := by
  obtain ⟨t, f₁, hrun, h₁, hl⟩ := Edit.timelineFor_ok h hb v
  have hext : Extended v (· = x.join) f f₁ := .ofLists hl
  have hf₁ : f₁.feeds x.join v = f.feeds x.join v := hl.feeds _ _
  obtain ⟨ns, f', hrun', h'⟩ := linkPaths_ok hs (x.preds.zip x.values) h₁ hl.self
    (by rw [List.map_fst_zip hlen.le]; exact hp)
    (fun e _ => by rw [hf₁, hfeeds]; simp)
    (fun e he => (hr e.2 (List.of_mem_zip he).2).extended hext h h₁)
  refine ⟨ns, f', ?_, h'.tables, hext.trans h'.extended, hl.forgets.trans h'.forgets, ?_,
    h'.aimed⟩
  · rw [buildJoin_eq, hs.var, Edit.bind_eq hrun]
    exact hrun'
  · rw [h'.feeds, hf₁]

structure Built (v : VarId) (s : Stack) (js : List NodeId) (f f' : Func) : Prop where
  tables : f'.Tables
  extended : Extended v (· ∈ js) f f'
  forgets : Forgets f f'
  feeds : ∀ j ∈ js, f'.feeds j v =
    ((s.frame j).preds.zip (s.frame j).values).map fun e => (e.1, f'.aim v (s.rep e.2))
  aimed : ∀ j ∈ js, ∀ r ∈ (s.frame j).values, ∀ k, s.rep r = .join k → (f'.timelineId? k v).isSome

theorem buildAll_ok {s : Stack} (hs : Readable v s) (js : List NodeId) (h : f.Tables)
    (hjs : js.Nodup) (hj : ∀ j ∈ js, (s.frame j).join = j)
    (hb : ∀ j ∈ js, (f.nodes.get? j).isSome) (hfeeds : ∀ j ∈ js, f.feeds j v = [])
    (hlen : ∀ j ∈ js, (s.frame j).preds.length = (s.frame j).values.length)
    (hp : ∀ j ∈ js, (s.frame j).preds.Nodup)
    (hr : ∀ j ∈ js, ∀ r ∈ (s.frame j).values, f.Aimable v (s.rep r)) :
    ∃ ns f', js.mapM (fun j => Edit.buildJoin s (s.frame j)) f = .ok ns f' ∧
      Built v s js f f' := by
  induction js generalizing f with
  | nil => exact ⟨[], f, rfl, h, .refl f, Or.inl rfl, by simp, by simp⟩
  | cons j js ih =>
    rw [List.nodup_cons] at hjs
    have hjj := hj j List.mem_cons_self
    obtain ⟨n, f₁, hrun, h₁⟩ := buildJoin_ok hs (x := s.frame j) h
      (by rw [hjj]; exact hb j List.mem_cons_self) (by rw [hjj]; exact hfeeds j List.mem_cons_self)
      (hlen j List.mem_cons_self) (hp j List.mem_cons_self) (hr j List.mem_cons_self)
    rw [hjj] at h₁
    have rest : ∀ {k}, k ∈ js → k ∈ j :: js := List.mem_cons_of_mem _
    obtain ⟨ns, f', hrun', h'⟩ := ih h₁.tables hjs.2 (fun k hk => hj k (rest hk))
      (fun k hk => by rw [h₁.extended.keeps.stored]; exact hb k (rest hk))
      (fun k hk => by
        rw [h₁.extended.feeds h fun hc => hjs.1 (hc.2 ▸ hk)]
        exact hfeeds k (rest hk))
      (fun k hk => hlen k (rest hk)) (fun k hk => hp k (rest hk))
      (fun k hk r hkr => (hr k (rest hk) r hkr).extended h₁.extended h h₁.tables)
    have hlater : ∀ r ∈ (s.frame j).values, ∀ k, s.rep r = .join k →
        (f₁.timelineId? k v).isSome := by
      intro r hrv k hk
      obtain ⟨p, hpr⟩ : ∃ p, (p, r) ∈ (s.frame j).preds.zip (s.frame j).values := by
        obtain ⟨i, hi, rfl⟩ := List.getElem_of_mem hrv
        have hi' : i < (s.frame j).preds.length := by
          rw [hlen j List.mem_cons_self]
          exact hi
        exact ⟨(s.frame j).preds[i], List.mem_iff_getElem.mpr ⟨i, by simp; omega, by simp⟩⟩
      exact h₁.aimed _ hpr k hk
    refine ⟨n :: ns, f', ?_, h'.tables, ?_, h₁.forgets.trans h'.forgets, ?_, ?_⟩
    · rw [List.mapM_cons, Edit.bind_eq hrun, Edit.bind_eq hrun']
      rfl
    · exact (h₁.extended.mono fun b hb => hb ▸ List.mem_cons_self).trans
        (h'.extended.mono fun b hb => rest hb)
    · intro k hk
      rcases List.mem_cons.mp hk with rfl | hk
      · rw [h'.extended.feeds h₁.tables fun hc => hjs.1 hc.2, h₁.feeds,
          hfeeds k List.mem_cons_self, List.nil_append]
        apply List.map_congr_left
        intro e he
        rw [aim_extended h'.extended (hlater e.2 (List.of_mem_zip he).2)]
      · exact h'.feeds k hk
    · intro k hk r hkr m hm
      rcases List.mem_cons.mp hk with rfl | hk
      · obtain ⟨u, hu⟩ := Option.isSome_iff_exists.mp (hlater r hkr m hm)
        rw [h'.extended.id hu]
        rfl
      · exact h'.aimed k hk r hkr m hm

end

namespace Solution

variable {f : Func} {v : VarId} {leaf : NodeId} {s : Stack}

theorem readable (h : Solution f v leaf s) : Readable v s where
  var := h.var_eq
  canon g r := Stack.canon_eq g h.search.total h.search.bounded r

theorem aimable (h : Solution f v leaf s) (hf : f.Forest) (ht : f.Tables) {r : Reach}
    (hr : Grounded f v s r) : f.Aimable v r := by
  cases r with
  | undefined => exact trivial
  | pending _ => exact hr
  | timeline t =>
    obtain ⟨b, _, hb⟩ := hr
    obtain ⟨x, hx, _, hv⟩ := ht.placed (timelineId?_of_explicit? hb)
    exact ⟨x, hx, hv⟩
  | join k =>
    obtain ⟨x, hx⟩ := hf.stored_block (h.search.block (h.phi_of_surviving hr.1)).block
    show (f.nodes.get? k).isSome = true
    rw [hx]
    rfl

theorem frame_join {j : NodeId} (hj : j ∈ s.joins) : (s.frame j).join = j := by
  rw [Stack.frame]
  cases hx : s.frames.find? fun x => x.join = j with
  | some x => simpa using List.find?_some hx
  | none =>
    obtain ⟨x, hm, hxj⟩ := List.mem_map.mp hj
    exact absurd hxj (by simpa using List.find?_eq_none.mp hx x hm)

theorem frame_preds (h : Solution f v leaf s) {j : NodeId} (hj : j ∈ s.surviving) :
    (s.frame j).preds = f.preds j :=
  h.search.preds (h.search.phi (Stack.mem_surviving.mp hj).1)

/-- What a search has found is built also in a function that differs from it in its trees. -/
theorem buildJoins_beside {g : Func} (h : Solution f v leaf s) (hf : f.Forest) (ht : f.Tables)
    (hg : g.Tables) (hnodes : g.nodes = f.nodes) (htimelines : g.timelines = f.timelines)
    (hincoming : g.incoming = f.incoming) :
    ∃ created g', Edit.buildJoins s g = .ok { s with created := created } g' ∧
      Built v s s.surviving g g' := by
  have G := hf.net
  have hopens : ∀ j ∈ s.surviving, f.Opens v j :=
    fun j hj => h.search.block (h.phi_of_surviving hj)
  have hfeeds : ∀ j, g.feeds j v = f.feeds j v := fun j => by
    have hid : g.timeline? j v = f.timeline? j v := by
      rw [timeline?, timeline?, timelineId?, timelineId?, blockAt, blockAt, hnodes, htimelines]
    have hat : g.incomingAt = f.incomingAt := funext fun n => by
      rw [incomingAt, incomingAt, hincoming]
    rw [feeds, feeds, joinNodes, joinNodes, hid, hat]
  have haim : ∀ {r}, f.Aimable v r → g.Aimable v r := fun {r} hr => by
    cases r with
    | undefined => exact trivial
    | timeline t =>
      obtain ⟨x, hx, hv⟩ := hr
      exact ⟨x, by rw [htimelines, hx], hv⟩
    | pending _ => exact hr
    | join k =>
      show (g.nodes.get? k).isSome = true
      rw [hnodes]
      exact hr
  obtain ⟨ns, g', hrun, hb⟩ := buildAll_ok h.readable s.surviving hg
    (h.search.phis_nodup.filter _)
    (fun j hj => frame_join (h.phi_of_surviving hj))
    (fun j hj => by
      obtain ⟨x, hx⟩ := hf.stored_block (hopens j hj).block
      rw [hnodes, hx]
      rfl)
    (fun j hj => by
      have hun := (hopens j hj).unjoined
      rw [ht.joined?_eq] at hun
      rw [hfeeds, feeds_eq_nil_iff]
      by_contra hne
      rw [if_neg hne] at hun
      exact hne (joinNodes_of_none hun))
    (fun j hj => by
      rw [h.frame_preds hj]
      exact (h.values_of_mem (h.phi_of_surviving hj)).length_eq)
    (fun j hj => by rw [h.frame_preds hj]; exact hf.preds_nodup (hopens j hj).block)
    (fun j hj r hr => by
      obtain ⟨p, hp, hc⟩ := forall₂_right (h.values_of_mem (h.phi_of_surviving hj)) hr
      exact haim (h.aimable hf ht
        (h.search.grounded_carried G (G.mem (hopens j hj).block hp) hc)))
  refine ⟨ns.flatten, g', ?_, hb⟩
  rw [Edit.buildJoins, Edit.bind_eq hrun]
  rfl

theorem buildJoins_ok (h : Solution f v leaf s) (hf : f.Forest) (ht : f.Tables) :
    ∃ created f', Edit.buildJoins s f = .ok { s with created := created } f' ∧
      Built v s s.surviving f f' :=
  h.buildJoins_beside hf ht ht rfl rfl rfl

end Solution

end DefFlow.Flow
