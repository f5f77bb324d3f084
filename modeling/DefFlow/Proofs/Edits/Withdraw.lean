import DefFlow.Proofs.Edits.Enter

/-!
# Withdrawing instructions

An instruction is taken out of the ledgers before it is taken out of the code: first its
uses, then its definition, whose uses go back to the definition before it. What the
timelines list is the ledger of the code again once the instruction has left its block.
-/

set_option autoImplicit false

namespace DefFlow.Flow

open Func Account

/-! ## Ledgers -/

section

variable {A B : List Event} {i : InstId} {u : UseSite}

theorem eq_nil_of_ledger {es : List Event} (h : ledger es = .empty) : es = [] := by
  have hu := allUses_ledger es
  have hd := map_inst_ledger es
  rw [h] at hu hd
  cases es with
  | nil => rfl
  | cons e es =>
    cases e with
    | use u => cases hu
    | define i => cases hd

/-- A use that is listed once is erased where it is listed. -/
theorem account_eraseUse (x : Timeline) (hn : x.account.allUses.Nodup) (u : UseSite) :
    (x.eraseUse u).account = x.account.restrict (fun _ => true) fun w => w ≠ u := by
  have herase : ∀ {l : List UseSite}, l.Nodup → l.erase u = l.filter fun w => w ≠ u := by
    intro l hl
    rw [hl.erase_eq_filter]
    exact List.filter_congr fun w _ => by simp [bne, beq_eq_decide]
  obtain ⟨hw, hl, _⟩ := List.nodup_append.mp hn
  change x.waiting.Nodup at hw
  have hkeep : x.locals.filter (fun _ => true) = x.locals := List.filter_true x.locals
  rw [restrict, Timeline.eraseUse, Timeline.account, Timeline.account]
  dsimp only
  rw [hkeep, herase hw]
  congr 1
  refine List.map_congr_left fun l hm => ?_
  rw [herase ((List.nodup_flatMap.mp hl).1 l hm)]

/-- Without its definition, what stands before it holds nothing of what it held. -/
theorem locals_undefine (hA : i ∉ defsIn A) (hB : i ∉ defsIn B) :
    (⟨(ledger (A ++ .define i :: B)).waiting,
      (ledger (A ++ .define i :: B)).locals.filter fun l => l.inst ≠ i⟩ : Account) =
      prepend A ⟨[], (ledger B).locals⟩ := by
  obtain ⟨ls, hls, hinst, hrest⟩ := prepend_locals A (ledger (.define i :: B))
  have hw : (ledger (.define i :: B)).waiting = [] := rfl
  have hl : (ledger (.define i :: B)).locals = ⟨i, (ledger B).waiting⟩ :: (ledger B).locals := rfl
  rw [hw] at hrest
  rw [hrest, ledger_append, hls, hl, List.filter_append, List.filter_eq_self.mpr,
    List.filter_cons_of_neg (by simp), List.filter_eq_self.mpr]
  · intro l hm
    refine decide_eq_true fun he => hB ?_
    rw [← he, ← map_inst_ledger]
    exact List.mem_map_of_mem hm
  · intro l hm
    refine decide_eq_true fun he => hA ?_
    rw [← he, ← hinst]
    exact List.mem_map_of_mem hm

end

/-! ## Erasing the uses of an instruction -/

section

variable {f f' f'' : Func} {b : NodeId} {v : VarId} {t : TimelineId} {i : InstId} {k : Nat}

structure Posts (L : NodeId → VarId → List Event) (f f' : Func) : Prop
    extends Keeps f f', SameLinks f f' where
  memo : f'.memo = f.memo ∨ f'.memo = []
  books : f'.Books L

theorem Posts.rewrites {L : NodeId → VarId → List Event} (h : Posts L f f') : Rewrites f f' :=
  ⟨h.toSameGraph, h.toSameLinks, h.memo⟩

theorem Posts.trans {L L' : NodeId → VarId → List Event} (h : Posts L f f') (h' : Posts L' f' f'') :
    Posts L' f f'' where
  toKeeps := h.toKeeps.trans h'.toKeeps
  toSameLinks := h.toSameLinks.trans h'.toSameLinks
  memo := (h.rewrites.trans h'.rewrites).memo
  books := h'.books

theorem Func.Keeps.indexOf (h : Keeps f f') : f'.indexOf = f.indexOf := by
  funext j
  rw [Func.indexOf, h.inst, Func.indexOf]

theorem Posts.seated {L : NodeId → VarId → List Event} (h : Posts L f f') (hs : f.Scheduled) :
    f'.Seated := hs.seated.congr h.instructions fun _ => by rw [h.insts]

theorem Posts.phis {L : NodeId → VarId → List Event} (h : Posts L f f') (hs : f.Scheduled)
    (c : NodeId) : (f'.blockAt c).phiCount ≤ (f'.code c).length := by
  rw [h.phiCount, Func.code, h.instructions]
  exact hs.phis c

theorem posts_relisted {L : NodeId → VarId → List Event} {change : Timeline → Timeline}
    (hc : Relisting change) (ht : f.Tables) (hid : f.timelineId? b v = some t)
    (hself : (change (f.timelineAt t)).account = ledger (L b v))
    (hrest : ∀ c w, ¬ (c = b ∧ w = v) → f.account c w = ledger (L c w)) :
    Posts L f (f.relisted t change) where
  toKeeps := keeps_relisted
  toSameLinks := sameLinks_relisted hc
  memo := .inl rfl
  books c w := by
    rw [account_relisted ht hid]
    split
    · next h =>
      rw [h.1, h.2]
      exact hself
    · next h => exact hrest c w h

theorem Func.Scheduled.usesIn_nodup (h : f.Scheduled) (b : NodeId) (v : VarId) :
    (usesIn (f.events b v)).Nodup := by
  refine (pairwise_usesIn (h.pairwise_code b) v).imp fun {u w} huw he => ?_
  rw [he] at huw
  have := siteBefore_asymm huw
  rw [huw] at this
  cases this

/-- A use is an event of its own block and variable only. -/
theorem use_mem_events (h : f.Scheduled) (hi : i ∈ f.code b) {u : UseSite}
    (hu : (u, v) ∈ f.usesOf i) {c : NodeId} {w : VarId} :
    Event.use u ∈ f.events c w ↔ c = b ∧ w = v := by
  obtain ⟨rfl, ho⟩ := mem_usesOf.mp hu
  rw [← mem_usesIn, events, mem_usesIn_flatMap]
  constructor
  · rintro ⟨hc, ho'⟩
    rw [ho, Option.some.injEq, Operand.use.injEq] at ho'
    exact ⟨h.seated.block_unique hc hi, ho'.symm⟩
  · rintro ⟨rfl, rfl⟩
    exact ⟨hi, ho⟩

def Func.eventsLess (f : Func) (gone : List UseSite) (c : NodeId) (w : VarId) : List Event :=
  (f.events c w).filter (Event.allows fun u => u ∉ gone)

theorem usesIn_filter (p : UseSite → Bool) (es : List Event) :
    usesIn (es.filter (Event.allows p)) = (usesIn es).filter p := by
  induction es with
  | nil => rfl
  | cons e es ih =>
    cases e with
    | use u =>
      by_cases hu : p u = true
      · rw [List.filter_cons_of_pos (show Event.allows p (.use u) = true from hu)]
        exact (congrArg (u :: ·) ih).trans (List.filter_cons_of_pos hu).symm
      · rw [List.filter_cons_of_neg (show ¬ Event.allows p (.use u) = true from hu), ih]
        exact (List.filter_cons_of_neg hu).symm
    | define i => exact ih

theorem eraseUse_posts (h : f.Consistent) (hi : i ∈ f.code b) {gone : List UseSite} {u : UseSite}
    (hu : (u, v) ∈ f.usesOf i) {g : Func} (hg : Posts (f.eventsLess gone) f g)
    (hid : f.timelineId? b v = some t) :
    Posts (f.eventsLess (gone ++ [u])) f (g.relisted t fun x => x.eraseUse u) := by
  have ht := hg.tables h.linked.tables
  have hid' := (hg.timelineId? b v).trans hid
  have hacc : (g.timelineAt t).account = ledger (f.eventsLess gone b v) := by
    rw [account_at ht hid', hg.books]
  have hless : ∀ c w, f.eventsLess (gone ++ [u]) c w =
      (f.eventsLess gone c w).filter (Event.allows fun x => x ≠ u) := by
    intro c w
    rw [eventsLess, eventsLess, List.filter_filter]
    refine List.filter_congr fun e _ => ?_
    cases e with
    | use x => simp [Event.allows, and_comm]
    | define j => rfl
  refine hg.trans (posts_relisted (relisting_eraseUse u) ht hid' ?_ fun c w hc => ?_)
  · rw [account_eraseUse, hacc, hless, ledger, restrict_prepend fun _ _ => rfl]
    · rfl
    · rw [hacc, allUses_ledger, eventsLess, usesIn_filter]
      exact (h.scheduled.usesIn_nodup b v).filter _
  · rw [hg.books, hless, List.filter_eq_self.mpr]
    intro e he
    cases e with
    | define j => rfl
    | use x =>
      refine decide_eq_true fun hx => hc ?_
      exact (use_mem_events h.scheduled hi hu).mp (hx ▸ List.mem_of_mem_filter he)

theorem eventsLess_nil (f : Func) (c : NodeId) (w : VarId) :
    f.eventsLess [] c w = f.events c w := by
  refine List.filter_eq_self.mpr fun e _ => ?_
  cases e with
  | use u => exact decide_eq_true (show u ∉ [] from List.not_mem_nil)
  | define i => rfl

/-- Without its uses an instruction still defines what it defined. -/
theorem eventsLess_all (h : f.Scheduled) (hi : (f.code b)[k]? = some i) (c : NodeId) (w : VarId) :
    f.eventsLess ((f.usesOf i).map Prod.fst) c w = if c = b then
      f.eventsTo b w k ++ ((if f.defines w i then [.define i] else []) ++ f.eventsFrom b w (k + 1))
      else f.events c w := by
  have hmem := List.mem_of_getElem? hi
  have hother : ∀ {l : List InstId}, i ∉ l → (l.flatMap (f.eventsOf w)).filter
      (Event.allows fun u => u ∉ (f.usesOf i).map Prod.fst) = l.flatMap (f.eventsOf w) := by
    intro l hl
    refine List.filter_eq_self.mpr fun e he => ?_
    cases e with
    | define j => rfl
    | use u =>
      refine decide_eq_true fun hm => hl ?_
      obtain ⟨x, hx, rfl⟩ := List.mem_map.mp hm
      rw [← (mem_usesOf.mp hx).1]
      exact mem_of_usesIn (mem_usesIn.mpr he)
  have hown : (f.eventsOf w i).filter (Event.allows fun u => u ∉ (f.usesOf i).map Prod.fst) =
      if f.defines w i then [.define i] else [] := by
    rw [eventsOf, List.filter_append, List.filter_eq_nil_iff.mpr, List.nil_append]
    · split <;> rfl
    · intro e he
      obtain ⟨u, hu, rfl⟩ := List.mem_map.mp he
      obtain ⟨x, hx, rfl⟩ := List.mem_map.mp hu
      have hgone : x.1 ∈ (f.usesOf i).map Prod.fst :=
        List.mem_map_of_mem (List.mem_of_mem_filter hx)
      simp only [Event.allows, hgone, not_true_eq_false, decide_false]
      exact Bool.false_ne_true
  split
  · next hc =>
    subst hc
    have hnodup := h.nodup c
    obtain ⟨hk, hget⟩ := List.getElem?_eq_some_iff.mp hi
    rw [← List.take_append_drop k (f.code c), List.drop_eq_getElem_cons hk, hget] at hnodup
    obtain ⟨hnot, _⟩ := List.nodup_cons.mp (List.nodup_middle.mp hnodup)
    rw [List.mem_append, not_or] at hnot
    rw [eventsLess, events_at hi, List.filter_append, List.filter_append, hown, eventsTo,
      eventsFrom, hother hnot.1, hother hnot.2]
  · next hc =>
    exact hother fun hm => hc (h.seated.block_unique hm hmem)

theorem eraseUses_posts (h : f.Consistent) (hi : i ∈ f.code b) {α : Type}
    {m : PUnit → Edit α} {a : α}
    (hrun : (forIn (f.usesOf i) PUnit.unit (fun (x : UseSite × VarId) _ =>
      match x with
      | (u, v) =>
        match f.timelineId? b v with
        | some t => do
          Edit.changeTimeline t fun y => y.eraseUse u
          pure (ForInStep.yield PUnit.unit)
        | _ => pure (ForInStep.yield PUnit.unit)) >>= m) f = .ok a f') :
    ∃ f₁, Posts (f.eventsLess ((f.usesOf i).map Prod.fst)) f f₁ ∧ m ⟨⟩ f₁ = .ok a f' := by
  have hstart : Posts (f.eventsLess []) f f :=
    ⟨.refl f, ⟨fun _ => rfl, fun _ => rfl, rfl⟩, .inl rfl,
    h.books.congr (fun _ _ => rfl) (eventsLess_nil f)⟩
  refine Edit.forIn_ok (fun done g => Posts (f.eventsLess (done.map Prod.fst)) f g)
    (fun done x rest g s g' hl hg hstep => ?_) hstart hrun
  obtain ⟨u, v⟩ := x
  have hu : (u, v) ∈ f.usesOf i := hl ▸ List.mem_append_right _ List.mem_cons_self
  -- A variable that is used has a timeline.
  obtain ⟨t, hid⟩ : ∃ t, f.timelineId? b v = some t := by
    cases hid : f.timelineId? b v with
    | some t => exact ⟨t, rfl⟩
    | none =>
      have hacc := h.books b v
      rw [account_of_none (by rw [timeline?, hid]; rfl)] at hacc
      have hm := (use_mem_events h.scheduled hi hu).mpr ⟨rfl, rfl⟩
      rw [eq_nil_of_ledger hacc.symm] at hm
      cases hm
  simp only [hid] at hstep
  cases hstep
  rw [List.map_append]
  exact ⟨rfl, eraseUse_posts h hi hu hg hid⟩

/-! ## Taking the definition away -/

theorem exists_lead (B : List Event) :
    ∃ (W : List UseSite) (B' : List Event), B = W.map .use ++ B' ∧ (ledger B').waiting = [] := by
  induction B with
  | nil => exact ⟨[], [], rfl, rfl⟩
  | cons e B ih =>
    cases e with
    | define i => exact ⟨[], .define i :: B, rfl, rfl⟩
    | use u =>
      obtain ⟨W, B', rfl, hB'⟩ := ih
      exact ⟨u :: W, B', rfl, hB'⟩

def amend (L : NodeId → VarId → List Event) (b : NodeId) (v : VarId) (es : List Event)
    (c : NodeId) (w : VarId) : List Event := if c = b ∧ w = v then es else L c w

theorem amend_self (L : NodeId → VarId → List Event) (es : List Event) :
    amend L b v es b v = es := if_pos ⟨rfl, rfl⟩

theorem posts_amend {L : NodeId → VarId → List Event} {es es' : List Event}
    {change : Timeline → Timeline} (hc : Relisting change) (ht : f.Tables)
    (hid : f.timelineId? b v = some t) (hb : f.Books (amend L b v es))
    (hself : (change (f.timelineAt t)).account = ledger es') :
    Posts (amend L b v es') f (f.relisted t change) := by
  refine posts_relisted hc ht hid (by rw [amend_self, hself]) fun c w hcw => ?_
  rw [hb, amend, amend, if_neg hcw, if_neg hcw]

structure Func.Between (f : Func) (A : List Event) (i : InstId) (B : List Event) : Prop where
  nodup : (defsIn A ++ defsIn B).Nodup
  defs_before : ∀ j ∈ defsIn A, f.indexOf j < f.indexOf i
  defs_behind : ∀ j ∈ defsIn B, f.indexOf i < f.indexOf j
  uses_before : ∀ u ∈ usesIn A, f.indexOf u.inst < f.indexOf i
  uses_behind : ∀ u ∈ usesIn B, f.indexOf i < f.indexOf u.inst
  sorted : (usesIn B).Pairwise fun u w => f.siteBefore u w = true

/-- A use of a definition that is gone goes back to the definition before it. -/
theorem giveBack {A B' : List Event} {W done rest : List UseSite} {u : UseSite}
    (hb : f.Between A i (W.map .use ++ B')) (hB' : (ledger B').waiting = [])
    (hW : W = done ++ u :: rest) {a : Account}
    (ha : a = ledger (A ++ (done.map .use ++ B'))) :
    a.change (f.lastBefore (ledger (A ++ B')).locals (f.indexOf i)) (f.insertSite u) =
      ledger (A ++ ((done ++ [u]).map .use ++ B')) := by
  have hdefs : defsIn (W.map Event.use ++ B') = defsIn B' := by rw [defsIn_append, defsIn_uses]; rfl
  have hbehind := hb.defs_behind
  have hnodup := hb.nodup
  rw [hdefs] at hbehind hnodup
  have hsplit : ∀ U : List UseSite, ledger (A ++ (U.map .use ++ B')) =
      prepend A ⟨U, (ledger B').locals⟩ := fun U => by
    rw [ledger_append, ledger_append, prepend_uses, hB', List.append_nil]
  have huses : usesIn (W.map Event.use ++ B') = done ++ u :: (rest ++ usesIn B') := by
    rw [usesIn_append, usesIn_uses, hW, List.append_assoc, List.cons_append]
  have hlast : f.lastBefore (ledger (A ++ B')).locals (f.indexOf i) = lastDef A := by
    rw [ledger_append]
    exact lastBefore_prepend hb.defs_before fun j hj =>
      Nat.le_of_lt (hbehind j (map_inst_ledger B' ▸ hj))
  rw [ha, hlast, hsplit, hsplit]
  refine change_prepend (w := done ++ [u]) (by rw [map_inst_ledger]; exact hnodup) fun U hU => ?_
  have hins : f.insertSite u ((U ++ done) ++ []) = (U ++ done) ++ [u] := by
    refine insertSite_between (fun w hw => siteBefore_asymm ?_) fun w hw => by cases hw
    rcases List.mem_append.mp hw with hw | hw
    · refine siteBefore_of_lt (Nat.lt_trans (hb.uses_before w (mem_usesIn.mpr (hU w hw))) ?_)
      exact hb.uses_behind u (by rw [huses]; exact List.mem_append_right _ List.mem_cons_self)
    · have hsorted := hb.sorted
      rw [huses] at hsorted
      exact (List.pairwise_append.mp hsorted).2.2 w hw u List.mem_cons_self
  rw [List.append_nil, List.append_assoc] at hins
  exact hins

theorem undefine_posts {L : NodeId → VarId → List Event} {A B : List Event} (ht : f.Tables)
    (hid : f.timelineId? b v = some t) (hL : f.Books (amend L b v (A ++ .define i :: B)))
    (hb : f.Between A i B) :
    ∃ f', Edit.undefine t i f = .ok () f' ∧ Posts (amend L b v (A ++ B)) f f' := by
  obtain ⟨W, B', rfl, hB'⟩ := exists_lead B
  have hA : i ∉ defsIn A := fun hm => Nat.lt_irrefl _ (hb.defs_before i hm)
  have hB : i ∉ defsIn (W.map .use ++ B') := fun hm => Nat.lt_irrefl _ (hb.defs_behind i hm)
  have hacc : (f.timelineAt t).account = ledger (A ++ .define i :: (W.map .use ++ B')) := by
    rw [account_at ht hid, hL, amend_self]
  have hrel : Relisting fun x => { x with locals := x.locals.filter fun l => l.inst ≠ i } :=
    ⟨fun _ => rfl, fun _ => rfl, fun _ => rfl, fun _ => rfl⟩
  have hwait : ledger (W.map .use ++ B') = ⟨W, (ledger B').locals⟩ := by
    rw [ledger_append, prepend_uses, hB', List.append_nil]
  have huses : (f.timelineAt t).usesOf (some i) = W := by
    rw [uses_account, hacc, ledger, uses_prepend_define hA]
    exact congrArg Account.waiting hwait
  -- Once the definition is gone, its uses are nowhere.
  let f₁ : Func := { f.relisted t (fun x => { x with
    locals := x.locals.filter fun l => l.inst ≠ i }) with memo := [] }
  have hfirst : Posts (amend L b v (A ++ B')) f f₁ := by
    have hundef := locals_undefine hA hB
    rw [← hacc, hwait] at hundef
    have hp := posts_amend hrel ht hid hL (hundef.trans (by rw [← hB', ← ledger_append]))
    exact ⟨hp.toKeeps.trans (keeps_of_stores rfl),
      hp.toSameLinks.trans ⟨fun _ => rfl, fun _ => rfl, rfl⟩, .inr rfl, hp.books⟩
  have hid₁ := (hfirst.timelineId? b v).trans hid
  have hholder : (f₁.timelineAt t).locals = (ledger (A ++ B')).locals := by
    have := account_at (hfirst.tables ht) hid₁
    rw [hfirst.books, amend_self] at this
    exact congrArg Account.locals this
  obtain ⟨f₂, hrun, h₂⟩ := Edit.forIn_run (f := f₁) (l := W) (k := fun _ => pure ())
    (g := fun u _ => do
      Edit.addUse t (f₁.lastBefore (f₁.timelineAt t).locals (f₁.indexOf i)) u
      pure (ForInStep.yield PUnit.unit))
    (fun done g => Posts (amend L b v (A ++ (done.map .use ++ B'))) f g)
    (fun done u rest g hW hg => by
      have hidg := (hg.timelineId? b v).trans hid
      have hacc : (g.timelineAt t).account = ledger (A ++ (done.map .use ++ B')) := by
        rw [account_at (hg.tables ht) hidg, hg.books, amend_self]
      refine ⟨_, rfl, hg.trans
        (posts_amend (relisting_changeUses _ _) (hg.tables ht) hidg hg.books ?_)⟩
      rw [account_changeUses, ← giveBack hb hB' hW hacc, hholder]
      have hlast : f₁.lastBefore = f.lastBefore := by
        funext l n
        rw [lastBefore, lastBefore, hfirst.toKeeps.indexOf]
      have hins : g.insertSite = f.insertSite := by
        funext u l
        simp only [insertSite, siteBefore, hg.toKeeps.indexOf]
      rw [hlast, hins, hfirst.toKeeps.indexOf])
    hfirst
  refine ⟨f₂, Eq.trans ?_ hrun, h₂⟩
  rw [← huses]
  rfl

/-- The code around an instruction, from its front to its back. -/
theorem Func.Scheduled.between (h : f.Scheduled) (hi : (f.code b)[k]? = some i) (v : VarId) :
    f.Between (f.eventsTo b v k) i (f.eventsFrom b v (k + 1)) where
  nodup := by
    have hn := h.defsIn_nodup b v
    rw [events_at hi, defsIn_append, defsIn_append] at hn
    exact hn.sublist (.append_left (List.sublist_append_right _ _) _)
  defs_before j hj := by
    rw [h.indexOf hi]
    exact h.index_take (mem_of_defsIn hj)
  defs_behind j hj := by
    rw [h.indexOf hi]
    exact h.index_drop (mem_of_defsIn hj)
  uses_before u hu := by
    rw [h.indexOf hi]
    exact h.index_take (mem_of_usesIn hu)
  uses_behind u hu := by
    rw [h.indexOf hi]
    exact h.index_drop (mem_of_usesIn hu)
  sorted := pairwise_usesIn ((h.pairwise_code b).sublist (List.drop_sublist _ _)) v

theorem Func.Between.congr {A B : List Event} (h : f.Between A i B)
    (hk : f'.indexOf = f.indexOf) : f'.Between A i B := by
  have hsite : f'.siteBefore = f.siteBefore := by
    funext u w
    rw [siteBefore, siteBefore, hk]
  constructor
  · exact h.nodup
  · rw [hk]; exact h.defs_before
  · rw [hk]; exact h.defs_behind
  · rw [hk]; exact h.uses_before
  · rw [hk]; exact h.uses_behind
  · rw [hsite]; exact h.sorted

def Func.eventsWithout (f : Func) (b : NodeId) (k : Nat) (c : NodeId) (w : VarId) : List Event :=
  if c = b then f.eventsTo b w k ++ f.eventsFrom b w (k + 1) else f.events c w

theorem eventsLess_of_dest (h : f.Scheduled) (hi : (f.code b)[k]? = some i) {d : Def}
    (hd : (f.inst i).dest = some d) (c : NodeId) (w : VarId) :
    f.eventsLess ((f.usesOf i).map Prod.fst) c w = amend (f.eventsWithout b k) b d.var
      (f.eventsTo b d.var k ++ .define i :: f.eventsFrom b d.var (k + 1)) c w := by
  rw [eventsLess_all h hi, amend, eventsWithout, defines, hd]
  by_cases hc : c = b
  · by_cases hw : w = d.var
    · simp [hc, hw]
    · simp [hc, hw, Ne.symm hw]
  · simp [hc]

theorem amend_eventsWithout (f : Func) (b : NodeId) (v : VarId) (k : Nat) :
    amend (f.eventsWithout b k) b v (f.eventsTo b v k ++ f.eventsFrom b v (k + 1)) =
      f.eventsWithout b k := by
  funext c w
  rw [amend]
  split
  · next h => rw [h.1, h.2, eventsWithout, if_pos rfl]
  · rfl

/-- The instruction leaves the code after it has left the ledgers. -/
theorem Unplaces.wellFormed (h : Unplaces i f' f'') (hp : Posts (f.eventsWithout b k) f f')
    (hf : f.WellFormed) (hi : (f.code b)[k]? = some i) (hm : f''.memo = []) : f''.WellFormed := by
  have hcontent : ∀ j, (f''.inst j).content = (f.inst j).content := fun j => by
    rw [h.content, hp.inst]
  have hcode : ∀ c, f''.code c = (f.code c).filter fun j => j ≠ i := fun c => by
    rw [h.code, Func.code, hp.instructions, Func.code]
  have hevents : ∀ c w, f''.events c w = f.eventsWithout b k c w := by
    intro c w
    have hsame (l : List InstId) : l.flatMap (f''.eventsOf w) = l.flatMap (f.eventsOf w) :=
      List.flatMap_congr fun j _ => eventsOf_congr (congrArg (fun x => x.2.1) (hcontent j))
        (congrArg (fun x => x.2.2) (hcontent j)) w
    rw [events, hsame, hcode, eventsWithout]
    split
    · next hc =>
      subst hc
      rw [← eraseIdx_eq_filter (hf.scheduled.nodup c) hi, List.eraseIdx_eq_take_drop_succ,
        List.flatMap_append, eventsTo, eventsFrom]
    · next hc =>
      rw [List.filter_eq_self.mpr, events]
      intro j hj
      refine decide_eq_true fun he => hc ?_
      exact hf.scheduled.seated.block_unique (he ▸ hj) (List.mem_of_getElem? hi)
  have hbooks : f''.Books f''.events := hp.books.congr h.toSameRecords.account hevents
  refine ⟨(hp.rewrites.trans (.of_recodes h.toRecodes (.inr hm))).consistent hf.toConsistent
    (h.seated.consistent h.phis hbooks) hbooks, ?_⟩
  refine hf.phisFirst.of_sublist (fun c => ⟨c, ?_, ?_⟩) fun c j _ =>
    ⟨congrArg (fun x => x.1) (hcontent j), congrArg (fun x => x.2.2) (hcontent j)⟩
  · have hs := h.front c
    rw [Func.code, Func.code, hp.instructions, hp.phiCount] at hs
    exact hs
  · have hs := h.back c
    rw [Func.code, Func.code, hp.instructions, hp.phiCount] at hs
    exact hs

/-! ## Forgetting what nothing needs -/

theorem dropped_wellFormed (h : f.WellFormed) (hid : f.timelineId? b v = some t)
    (hunused : (f.timelineAt t).unused = true) : (f.dropped b v t).WellFormed := by
  have hop := operates_dropped h.linked.tables hid hunused
  have hstocked := h.stocked.sameGraph hop.toSameGraph
  simp only [Timeline.unused, Timeline.isEmpty, Bool.and_eq_true, List.isEmpty_iff] at hunused
  obtain ⟨⟨⟨_, hlocals⟩, _⟩, hwaiting⟩ := hunused
  refine ⟨{
    held := h.held
    stocked := hstocked
    linked := {
      tables := hop.tables
      preds := hstocked.stored_preds
      pred := fun hi => by
        rw [hop.stored]
        exact h.linked.pred hi
      apart := fun c w => by
        rw [hop.feeds]
        exact h.linked.apart c w
      recalls := fun hm => by cases hm }
    scheduled := h.scheduled.congr hop.code hop.phiCount hop.locals hop.standing
    books := h.books.congr (fun c w => ?_) fun c w => events_congr (hop.code c) fun _ _ => rfl },
    h.phisFirst.congr hop.code hop.phiCount fun _ => ⟨rfl, rfl⟩⟩
  have hwait : (f.dropped b v t).waiting c w = f.waiting c w := by
    rw [waiting_elim, waiting_elim]
    exact view_dropped h.linked.tables hid (·.elim [] Timeline.waiting) hwaiting c w
  have hheld : (f.dropped b v t).held c w = f.held c w := by
    rw [held_elim, held_elim]
    exact view_dropped h.linked.tables hid (·.elim [] Timeline.locals) hlocals c w
  rw [account, hwait, hheld, account]

theorem dropUnused_memoCorrect (h : f.MemoCorrect) {u : Unit}
    (hrun : Edit.dropUnused b v t f = .ok u f') :
    f'.MemoCorrect := by
  rw [Edit.dropUnused, Edit.bind_eq Edit.get_eq] at hrun
  by_cases hc : f.timelineId? b v = some t ∧ (f.timelineAt t).unused = true
  · rw [if_pos (by simpa using hc)] at hrun
    cases hrun
    exact .of_nil (dropped_wellFormed h.toWellFormed hc.1 hc.2) rfl
  · rw [if_neg (by simpa using hc)] at hrun
    cases hrun
    exact h

theorem dropAll_memoCorrect (h : f.MemoCorrect) {l : List (VarId × TimelineId)} {u : PUnit}
    (hrun : (do
      for (v, t) in l do
        Edit.dropUnused b v t : Edit Unit) f = .ok u f') : f'.MemoCorrect := by
  obtain ⟨g, hg, hdone⟩ := Edit.forIn_ok (k := fun _ => pure ()) (fun _ g => g.MemoCorrect)
    (fun done x rest g s g' _ hg hstep => by
      obtain ⟨u, g₁, hdrop, hnext⟩ := Edit.bind_ok hstep
      cases hnext
      exact ⟨rfl, dropUnused_memoCorrect hg hdrop⟩) h hrun
  cases hdone
  exact hg

theorem keeps_dropped (hid : f.timelineId? b v = some t) : Keeps f (f.dropped b v t) where
  toSameGraph := sameGraph_dropped
  name := rfl
  vars := rfl
  args := rfl
  returns := rfl
  insts := rfl
  label c := by
    rw [blockAt_dropped (stored_of_timelineId? hid)]
    split <;> rfl
  instructions c := by
    rw [blockAt_dropped (stored_of_timelineId? hid)]
    split <;> rfl
  phiCount c := by
    rw [blockAt_dropped (stored_of_timelineId? hid)]
    split <;> rfl

theorem dropUnused_keeps {u : Unit} (hrun : Edit.dropUnused b v t f = .ok u f') : Keeps f f' := by
  rw [Edit.dropUnused, Edit.bind_eq Edit.get_eq] at hrun
  by_cases hc : f.timelineId? b v = some t ∧ (f.timelineAt t).unused = true
  · rw [if_pos (by simpa using hc)] at hrun
    cases hrun
    exact keeps_dropped hc.1
  · rw [if_neg (by simpa using hc)] at hrun
    cases hrun
    exact .refl f

theorem dropAll_keeps {l : List (VarId × TimelineId)} {u : PUnit}
    (hrun : (do
      for (v, t) in l do
        Edit.dropUnused b v t : Edit Unit) f = .ok u f') : Keeps f f' := by
  obtain ⟨g, hg, hdone⟩ := Edit.forIn_ok (k := fun _ => pure ()) (fun _ g => Keeps f g)
    (fun done x rest g s g' _ hg hstep => by
      obtain ⟨u, g₁, hdrop, hnext⟩ := Edit.bind_ok hstep
      cases hnext
      exact ⟨rfl, hg.trans (dropUnused_keeps hdrop)⟩) (.refl f) hrun
  cases hdone
  exact hg

/-- The instruction is withdrawn from the timelines and taken out of the code, then its definition
is withdrawn downstream, and last what nothing needs any more is forgotten. -/
theorem removeInst_unplaces (h : f.WellFormed) {r : InstRef} {u : Unit}
    (hrun : Edit.removeInst b r f = .ok u f') :
    ∃ f₁ f₂ f₃, ∃ l : List (VarId × TimelineId),
      Posts (f.eventsWithout b (f.indexOf r.id)) f f₁ ∧ Unplaces r.id f₁ f₂ ∧ f₂.MemoCorrect ∧
      Weaves f₂ f₃ ∧ (do
        for (v, t) in l do
          Edit.dropUnused b v t : Edit Unit) f₃ = .ok u f' := by
  obtain ⟨_, hrun₁⟩ := Edit.unfrozen_bind_ok hrun
  rw [Edit.bind_eq Edit.get_eq] at hrun₁
  obtain ⟨hi, hrun₂⟩ := standsIn_bind_ok h.scheduled hrun₁
  obtain ⟨f₁, hless, hrun₃⟩ := eraseUses_posts h.toConsistent (List.mem_of_getElem? hi) hrun₂
  cases hd : (f.inst r.id).dest with
  | none =>
    have hposts : Posts (f.eventsWithout b (f.indexOf r.id)) f f₁ := {
      hless with
      books := hless.books.congr (fun _ _ => rfl) fun c w => by
        rw [eventsLess_all h.scheduled hi, defines, hd]
        rfl }
    simp only [hd, Option.bind_none] at hrun₃
    obtain ⟨f₂, hout, hm, hrun₄⟩ := takeOut_ok (hposts.seated h.scheduled)
      (hposts.phis h.scheduled) (by rw [Func.code, hposts.instructions]; exact hi) hrun₃
    have hformed := hout.wellFormed hposts h hi hm
    exact ⟨f₁, f₂, f₂, _, hposts, hout, .of_nil hformed hm, .refl hformed.linked, hrun₄⟩
  | some d =>
    obtain ⟨t, hexp⟩ := h.scheduled.explicit?_of_dest h.linked.tables hi hd
    have hid := timelineId?_of_explicit? hexp
    obtain ⟨f₂, hundef, hun⟩ := undefine_posts (hless.tables h.linked.tables)
      ((hless.timelineId? b d.var).trans hid)
      (hless.books.congr (fun _ _ => rfl) fun c w =>
        (eventsLess_of_dest h.scheduled hi hd c w).symm)
      ((h.scheduled.between hi d.var).congr hless.toKeeps.indexOf)
    have hposts := hless.trans hun
    rw [amend_eventsWithout] at hposts
    simp only [hd, Option.bind_some, hid, Option.map_some] at hrun₃
    rw [Edit.bind_eq hundef] at hrun₃
    obtain ⟨f₃, hout, hm, hrun₄⟩ := takeOut_ok (hposts.seated h.scheduled)
      (hposts.phis h.scheduled) (by rw [Func.code, hposts.instructions]; exact hi) hrun₃
    obtain ⟨_, f₄, hretarget, hrun₅⟩ := Edit.bind_ok hrun₄
    have hformed := hout.wellFormed hposts h hi hm
    exact ⟨f₂, f₃, f₄, _, hposts, hout, .of_nil hformed hm,
        retarget_weaves hformed.linked hretarget,
      hrun₅⟩

theorem removeInst_memoCorrect (h : f.WellFormed) {r : InstRef} {u : Unit}
    (hrun : Edit.removeInst b r f = .ok u f') : f'.MemoCorrect := by
  obtain ⟨_, _, _, _, _, _, h₂, hw, hdrop⟩ := removeInst_unplaces h hrun
  exact dropAll_memoCorrect (hw.memoCorrect h₂) hdrop

end

end DefFlow.Flow
