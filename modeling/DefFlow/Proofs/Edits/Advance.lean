import DefFlow.Proofs.Resolution.Refine

/-!
# Binding nodes anew

An edit that has changed what some block decides binds nodes anew, and resolves
variables on the way. Between two of its steps joins are added, and a node is either
left alone or bound to what arrives along its edge.
-/

set_option autoImplicit false

namespace DefFlow.Flow

open Func

def Func.Fed (f : Func) : Prop :=
  ∀ {b v}, ∀ e ∈ f.feeds b v, b ∈ f.blocks ∧ e.1 ∈ f.preds b

theorem Func.Shaped.fed {f : Func} (h : f.Shaped) : f.Fed := fun _ he => h.mem_preds he

theorem mem_feeds {f : Func} {b : NodeId} {v : VarId} {n : IncomingId}
    (hn : n ∈ f.joinNodes b v) : ((f.incomingAt n).pred, (f.incomingAt n).target) ∈ f.feeds b v :=
  List.mem_map_of_mem (f := fun n => ((f.incomingAt n).pred, (f.incomingAt n).target)) hn

def Spares (v : VarId) (f f' : Func) : Prop :=
  ∀ b w, w ≠ v → f'.explicit? b w = f.explicit? b w ∧ f'.feeds b w = f.feeds b w

theorem Spares.trans {v : VarId} {f f' f'' : Func} (h : Spares v f f') (h' : Spares v f' f'') :
    Spares v f f'' := fun b w hw =>
  ⟨(h' b w hw).1.trans (h b w hw).1, (h' b w hw).2.trans (h b w hw).2⟩

theorem Resolves.spares {f f' : Func} {v : VarId} {leaf : NodeId} (ht : f.Tables)
    (h : Resolves v leaf f f') : Spares v f f' := by
  rcases h with rfl | ⟨s, f₁, m, _, hb, rfl⟩
  · exact fun _ _ _ => ⟨rfl, rfl⟩
  · intro b w hw
    exact ⟨hb.extended.explicit?_other ht hb.tables hw b,
      hb.extended.feeds ht fun hc => hw hc.1⟩

/-- Joins of `v` have been added where they were missing, and nodes have been bound to
what arrives along their edge. -/
structure Advances (v : VarId) (f f' : Func) : Prop where
  keeps : Keeps f f'
  tables : f'.Tables
  locals : ∀ b v, f'.locals b v = f.locals b v
  waiting : ∀ b v, f'.waiting b v = f.waiting b v
  id : ∀ {b v t}, f.timelineId? b v = some t → f'.timelineId? b v = some t
  pred : ∀ {b v n}, n ∈ f.joinNodes b v → (f'.incomingAt n).pred = (f.incomingAt n).pred
  target : ∀ {b v n}, n ∈ f.joinNodes b v →
    (f'.incomingAt n).target = (f.incomingAt n).target ∨
      f'.Fresh v (f.incomingAt n).pred (f'.incomingAt n).target
  size : f.incoming.size ≤ f'.incoming.size
  fresh : ∀ {v p T}, p ∈ f.blocks → f.Fresh v p T → f'.Fresh v p T
  joins : ∀ b v, f'.joinNodes b v = f.joinNodes b v ∨ NewJoin f f' b v
  spares : Spares v f f'

theorem Refines.advances {v : VarId} {f f' : Func} (h : Refines f f') (ht : f.Tables)
    (ho : Spares v f f') : Advances v f f' where
  keeps := h.keeps
  tables := h.tables
  locals := h.locals
  waiting := h.waiting
  id := h.id
  pred hn := by rw [h.incomingAt ht hn]
  target hn := Or.inl (by rw [h.incomingAt ht hn])
  size := h.size
  fresh := h.fresh
  joins := h.joins
  spares := ho

namespace Advances

variable {u : VarId} {f f' f'' : Func}

theorem refl (h : f.Tables) : Advances u f f :=
  (Refines.refl h).advances h fun _ _ _ => ⟨rfl, rfl⟩

/-- A node that was fresh is fresh, whether it has been bound anew or not. -/
theorem fresh_target (h : Advances u f f') (hfed : f.Fed) (hw : f.Forest) {b : NodeId} {v : VarId}
    {n : IncomingId} (hn : n ∈ f.joinNodes b v)
    (hf : f.Fresh v (f.incomingAt n).pred (f.incomingAt n).target) :
    f'.Fresh v (f'.incomingAt n).pred (f'.incomingAt n).target := by
  have he := hfed _ (mem_feeds hn)
  rw [h.pred hn]
  rcases h.target hn with ht | ht
  · rw [ht]
    exact h.fresh (hw.pred_mem he.1 he.2) hf
  · exact ht

theorem feeds_fst (h : Advances u f f') {b : NodeId} {v : VarId}
    (hj : f'.joinNodes b v = f.joinNodes b v) :
    (f'.feeds b v).map Prod.fst = (f.feeds b v).map Prod.fst := by
  simp only [Func.feeds, List.map_map, hj]
  exact List.map_congr_left fun n hn => h.pred hn

theorem fed (h : Advances u f f') (hfed : f.Fed) : f'.Fed := by
  intro b v e he
  rw [h.keeps.blocks, h.keeps.preds]
  rcases h.joins b v with hj | hj
  · have hm : e.1 ∈ (f.feeds b v).map Prod.fst := h.feeds_fst hj ▸ List.mem_map_of_mem he
    obtain ⟨e', he', hee⟩ := List.mem_map.mp hm
    exact hee ▸ hfed e' he'
  · exact ⟨hj.block, hj.preds ▸ List.mem_map_of_mem he⟩

theorem trans (hw : f.Forest) (hfed : f.Fed) (h : Advances u f f') (h' : Advances u f' f'') :
    Advances u f f'' where
  keeps := h.keeps.trans h'.keeps
  tables := h'.tables
  locals b v := (h'.locals b v).trans (h.locals b v)
  waiting b v := (h'.waiting b v).trans (h.waiting b v)
  id ht := h'.id (h.id ht)
  pred := fun {b v n} hn => by
    rcases h.joins b v with hj | hj
    · rw [h'.pred (hj ▸ hn : n ∈ f'.joinNodes b v), h.pred hn]
    · rw [hj.none_before] at hn
      cases hn
  target := fun {b v n} hn => by
    have he := hfed _ (mem_feeds hn)
    rcases h.joins b v with hj | hj
    · have hn' : n ∈ f'.joinNodes b v := hj ▸ hn
      rcases h'.target hn' with ht' | ht'
      · rcases h.target hn with ht | ht
        · exact Or.inl (ht'.trans ht)
        · rw [ht']
          refine Or.inr (h'.fresh ?_ ht)
          rw [h.keeps.blocks]
          exact hw.pred_mem he.1 he.2
      · exact Or.inr (h.pred hn ▸ ht')
    · rw [hj.none_before] at hn
      cases hn
  size := Nat.le_trans h.size h'.size
  fresh hp hf := h'.fresh (h.keeps.blocks ▸ hp) (h.fresh hp hf)
  joins b v := by
    refine newJoin_trans h.keeps h.size (h.joins b v) (h'.joins b v) fun hj hj' => ?_
    refine ⟨h'.feeds_fst hj', fun e he => ?_⟩
    rw [Func.feeds, hj'] at he
    obtain ⟨n, hn, rfl⟩ := List.mem_map.mp he
    exact h'.fresh_target (h.fed hfed) (h.keeps.forest hw) hn (hj.fresh _ (mem_feeds hn))
  spares := h.spares.trans h'.spares

theorem explicit?_of_some (h : Advances u f f') (ht : f.Tables) {b : NodeId} {v : VarId}
    {t : TimelineId} (hb : f.explicit? b v = some t) : f'.explicit? b v = some t := by
  refine ht.explicit?_mono h.tables (fun _ => h.id) (fun hl => h.locals b v ▸ hl) (fun hn => ?_) hb
  rcases h.joins b v with hj | hj
  · exact hj ▸ hn
  · exact hj.none_before

theorem fresh_feeds (h : Advances u f f') (hfed : f.Fed) (hw : f.Forest) {v : VarId}
    (hf : ∀ b, ∀ e ∈ f.feeds b v, f.Fresh v e.1 e.2) :
    ∀ b, ∀ e ∈ f'.feeds b v, f'.Fresh v e.1 e.2 := by
  intro b e he
  rcases h.joins b v with hj | hj
  · rw [Func.feeds, hj] at he
    obtain ⟨n, hn, rfl⟩ := List.mem_map.mp he
    exact h.fresh_target hfed hw hn (hf b _ (mem_feeds hn))
  · exact hj.fresh e he

theorem shaped (h : Advances u f f') (hs : f.Shaped) (hw : f'.Searchable) : f'.Shaped where
  searchable := hw
  complete := fun {b v} hb hne => by
    rw [h.keeps.blocks] at hb
    rw [h.keeps.preds]
    rcases h.joins b v with hj | hj
    · rw [h.feeds_fst hj]
      exact hs.complete hb (hj ▸ hne)
    · rw [hj.preds]
  inside := fun {b v} hne => by
    rw [h.keeps.blocks]
    rcases h.joins b v with hj | hj
    · exact hs.inside (hj ▸ hne)
    · exact hj.block

end Advances

/-! ## One node -/

section

variable {f f' : Func} {v : VarId}

theorem decides_congr (he : ∀ b, f'.explicit? b v = f.explicit? b v) :
    f'.Decides v = f.Decides v := by
  funext b
  rw [Decides, Decides, he]

theorem fresh_congr (hp : f'.preds = f.preds) (he : ∀ b, f'.explicit? b v = f.explicit? b v)
    {p : NodeId} {T : Option TimelineId} (h : f.Fresh v p T) : f'.Fresh v p T := by
  intro a ha
  rw [hp, decides_congr he] at ha
  simp only [he]
  exact h a ha

theorem Binds.explicit? {n : IncomingId} {i : Incoming} (h : Binds n i f f') (ht : f.Tables)
    (ht' : f'.Tables) (b : NodeId) : f'.explicit? b v = f.explicit? b v :=
  ht.explicit?_congr ht' (fun _ hid => (h.same.id b v).trans hid) (h.same.locals b v)
    (h.joinNodes b v)

theorem Binds.incomingAt {n : IncomingId} {i : Incoming} (h : Binds n i f f') (m : IncomingId) :
    f'.incomingAt m = if m = n then i else f.incomingAt m := by
  rw [Func.incomingAt, h.get]
  split <;> rfl

theorem Func.Tables.eq_of_mem_joinNodes (h : f.Tables) {b c : NodeId} {v w : VarId}
    {n : IncomingId} (hb : n ∈ f.joinNodes b v) (hc : n ∈ f.joinNodes c w) : b = c ∧ v = w := by
  obtain ⟨t, i, ht, hi, hit⟩ := h.get?_of_mem hb
  obtain ⟨u, j, hu, hj, hju⟩ := h.get?_of_mem hc
  rw [hi, Option.some.injEq] at hj
  subst hj
  have htu : t = u := hit.symm.trans hju
  subst htu
  exact h.eq_of_timelineId? hu ht

theorem Binds.advances {n : IncomingId} {i : Incoming} {T : Option TimelineId} {b : NodeId}
    (h : Binds n { i with target := T } f f') (ht : f.Tables) (ht' : f'.Tables)
    (hi : f.incoming.get? n = some i) (hn : n ∈ f.joinNodes b v) (hT : f.Fresh v i.pred T) :
    Advances v f f' where
  keeps := h.keeps
  tables := ht'
  locals := h.same.locals
  waiting := h.same.waiting
  id := fun {c w t} hid => by rw [h.same.id, hid]
  pred := fun {c w m} _ => by
    rw [h.incomingAt]
    split
    · next hm => rw [hm, incomingAt_of_get? hi]
    · rfl
  target := fun {c w m} hm => by
    rw [h.incomingAt]
    split
    · next hmn =>
      subst hmn
      obtain ⟨_, rfl⟩ := ht.eq_of_mem_joinNodes hn hm
      rw [incomingAt_of_get? hi]
      exact Or.inr (fresh_congr h.keeps.preds (h.explicit? ht ht') hT)
    · exact Or.inl rfl
  size := Nat.le_of_eq h.size.symm
  fresh _ hf := fresh_congr h.keeps.preds (h.explicit? ht ht') hf
  joins c w := Or.inl (h.joinNodes c w)
  spares c w hw := by
    refine ⟨h.explicit? ht ht' c, ?_⟩
    rw [h.feeds, Func.feeds]
    refine List.map_congr_left fun m hm => if_neg fun hmn => hw ?_
    exact (ht.eq_of_mem_joinNodes (hmn ▸ hm) hn).2

end

end DefFlow.Flow
