import DefFlow.Proofs.Resolution.Answer

/-!
# What resolutions leave behind

Resolutions add joins and change nothing else. A new join has a fresh node for each
predecessor of its block, and nodes that were fresh stay fresh.
-/

set_option autoImplicit false

namespace DefFlow.Flow

open Func

structure NewJoin (f f' : Func) (b : NodeId) (v : VarId) : Prop where
  block : b ∈ f.blocks
  none_before : f.joinNodes b v = []
  some_after : f'.joinNodes b v ≠ []
  later : ∀ n ∈ f'.joinNodes b v, f.incoming.size < n
  preds : (f'.feeds b v).map Prod.fst = f.preds b
  fresh : ∀ e ∈ f'.feeds b v, f'.Fresh v e.1 e.2

/-- New joins stay new joins while the values that come along their edges stay right. -/
theorem newJoin_trans {f f' f'' : Func} {b : NodeId} {v : VarId} (hk : Keeps f f')
    (hsize : f.incoming.size ≤ f'.incoming.size)
    (h : f'.joinNodes b v = f.joinNodes b v ∨ NewJoin f f' b v)
    (h' : f''.joinNodes b v = f'.joinNodes b v ∨ NewJoin f' f'' b v)
    (hold : NewJoin f f' b v → f''.joinNodes b v = f'.joinNodes b v →
      (f''.feeds b v).map Prod.fst = (f'.feeds b v).map Prod.fst ∧
        ∀ e ∈ f''.feeds b v, f''.Fresh v e.1 e.2) :
    f''.joinNodes b v = f.joinNodes b v ∨ NewJoin f f'' b v := by
  rcases h with hj | hj <;> rcases h' with hj' | hj'
  · exact Or.inl (hj'.trans hj)
  · exact Or.inr {
      block := hk.blocks ▸ hj'.block
      none_before := hj ▸ hj'.none_before
      some_after := hj'.some_after
      later := fun n hn => Nat.lt_of_le_of_lt hsize (hj'.later n hn)
      preds := hk.preds ▸ hj'.preds
      fresh := hj'.fresh }
  · obtain ⟨hfst, hfresh⟩ := hold hj hj'
    exact Or.inr {
      block := hj.block
      none_before := hj.none_before
      some_after := hj' ▸ hj.some_after
      later := hj' ▸ hj.later
      preds := hfst.trans hj.preds
      fresh := hfresh }
  · exact absurd hj'.none_before hj.some_after

structure Refines (f f' : Func) : Prop where
  keeps : Keeps f f'
  tables : f'.Tables
  held : ∀ b v, f'.held b v = f.held b v
  waiting : ∀ b v, f'.waiting b v = f.waiting b v
  id : ∀ {b v t}, f.timelineId? b v = some t → f'.timelineId? b v = some t
  node : ∀ {n i}, f.incoming.get? n = some i → f'.incoming.get? n = some i
  size : f.incoming.size ≤ f'.incoming.size
  fresh : ∀ {v p T}, p ∈ f.blocks → f.Fresh v p T → f'.Fresh v p T
  joins : ∀ b v, f'.joinNodes b v = f.joinNodes b v ∨ NewJoin f f' b v

namespace Refines

variable {f f' f'' : Func}

theorem locals (h : Refines f f') (b : NodeId) (v : VarId) :
    f'.locals b v = f.locals b v := locals_of_held (h.held b v)

theorem refl (h : f.Tables) : Refines f f where
  keeps := .refl f
  tables := h
  held _ _ := rfl
  waiting _ _ := rfl
  id h := h
  node h := h
  size := Nat.le_refl _
  fresh _ h := h
  joins _ _ := Or.inl rfl

theorem incomingAt (h : Refines f f') (ht : f.Tables) {b : NodeId} {v : VarId} {n : IncomingId}
    (hn : n ∈ f.joinNodes b v) : f'.incomingAt n = f.incomingAt n := by
  obtain ⟨_, i, _, hi, _⟩ := ht.get?_of_mem hn
  rw [incomingAt_of_get? hi, incomingAt_of_get? (h.node hi)]

theorem feeds_of_joinNodes (h : Refines f f') (ht : f.Tables) {b : NodeId} {v : VarId}
    (hj : f'.joinNodes b v = f.joinNodes b v) : f'.feeds b v = f.feeds b v := by
  rw [Func.feeds, Func.feeds, hj]
  exact List.map_congr_left fun n hn => by rw [h.incomingAt ht hn]

theorem trans (hf : f.Forest) (h : Refines f f') (h' : Refines f' f'') : Refines f f'' where
  keeps := h.keeps.trans h'.keeps
  tables := h'.tables
  held b v := (h'.held b v).trans (h.held b v)
  waiting b v := (h'.waiting b v).trans (h.waiting b v)
  id ht := h'.id (h.id ht)
  node hn := h'.node (h.node hn)
  size := Nat.le_trans h.size h'.size
  fresh hp hf := h'.fresh (h.keeps.blocks ▸ hp) (h.fresh hp hf)
  joins b v := by
    refine newJoin_trans h.keeps h.size (h.joins b v) (h'.joins b v) fun hj hj' => ?_
    have hfeeds := h'.feeds_of_joinNodes h.tables hj'
    refine ⟨by rw [hfeeds], fun e he => ?_⟩
    rw [hfeeds] at he
    refine h'.fresh ?_ (hj.fresh e he)
    rw [h.keeps.blocks]
    exact hf.pred_mem hj.block (hj.preds ▸ List.mem_map_of_mem he)

theorem explicit?_of_some (h : Refines f f') (ht : f.Tables) {b : NodeId} {v : VarId}
    {t : TimelineId} (hb : f.explicit? b v = some t) : f'.explicit? b v = some t := by
  refine ht.explicit?_mono h.tables (fun _ => h.id) (fun hl => h.locals b v ▸ hl) (fun hn => ?_) hb
  rcases h.joins b v with hj | hj
  · exact hj ▸ hn
  · exact hj.none_before

theorem decides (h : Refines f f') (ht : f.Tables) {b : NodeId} {v : VarId}
    (hb : f.Decides v b) : f'.Decides v b := by
  obtain ⟨t, hbt⟩ := Option.isSome_iff_exists.mp hb
  rw [Decides, h.explicit?_of_some ht hbt]
  rfl

end Refines

theorem Refines.memo {f f' : Func} (h : Refines f f') (m : List (Question × Stack)) :
    Refines f { f' with memo := m } where
  keeps := h.keeps.trans (keeps_of_stores rfl)
  tables := tables_memo h.tables m
  held := h.held
  waiting := h.waiting
  id := h.id
  node := h.node
  size := h.size
  fresh := h.fresh
  joins b v := (h.joins b v).imp_right fun hj =>
    ⟨hj.block, hj.none_before, hj.some_after, hj.later, hj.preds, hj.fresh⟩

theorem Solution.refines {f f' : Func} {v : VarId} {leaf : NodeId} {s : Stack} (hw : f.Searchable)
    (h : Solution f v leaf s) (hb : Built v s s.surviving f f') : Refines f f' := by
  obtain ⟨G⟩ := hw.graph
  have ht := hw.tables
  have hx := hb.extended
  refine {
    keeps := hx.keeps
    tables := hb.tables
    held := hx.held
    waiting := hx.waiting
    id := hx.id
    node := hx.node
    size := hx.size
    fresh := fun {w p T} hp hf => ?_
    joins := fun b w => ?_ }
  · by_cases hwv : w = v
    · subst hwv
      exact h.fresh_old hb G ht hp hf
    · have he : ∀ c, f'.explicit? c w = f.explicit? c w := hx.explicit?_other ht hb.tables hwv
      have hd : f'.Decides w = f.Decides w := by
        funext c
        rw [Decides, Decides, he]
      intro a ha
      rw [hx.keeps.preds, hd] at ha
      simp only [he]
      exact hf a ha
  · by_cases hj : w = v ∧ b ∈ s.surviving
    · obtain ⟨rfl, hj⟩ := hj
      have hopens := h.search.block (h.phi_of_surviving hj)
      have hnil : f.joinNodes b w = [] := by
        have hun := hopens.unjoined
        rw [ht.joined?_eq] at hun
        by_contra hne
        rw [if_neg hne] at hun
        exact hne (joinNodes_of_none hun)
      obtain ⟨l, hl, hlater, _⟩ := hx.joinNodes b w
      rw [hnil, List.nil_append] at hl
      refine Or.inr {
        block := hopens.block
        none_before := hnil
        some_after := h.joinNodes_ne_nil hb hj
        later := hl ▸ hlater
        preds := ?_
        fresh := h.fresh_new hb G ht hj }
      rw [hb.feeds b hj, h.frame_preds hj, List.map_map]
      exact List.map_fst_zip (h.departs_value G (Solution.placed ht) hj).length_eq.le
    · exact Or.inl (hx.joinNodes_other hj)

theorem Resolves.refines {f f' : Func} {v : VarId} {leaf : NodeId} (hw : f.Searchable)
    (h : Resolves v leaf f f') : Refines f f' := by
  rcases h with rfl | ⟨s, f₁, m, hs, hb, rfl⟩
  · exact .refl hw.tables
  · exact (hs.refines hw hb).memo m

/-- Only the block of the question can decide the variable and get a join all the same. -/
theorem Resolves.joinNodes_of_decides {f f' : Func} {v : VarId} {leaf : NodeId}
    (h : Resolves v leaf f f') {b : NodeId} (hb : b ≠ leaf) (hd : f.Decides v b) :
    f'.joinNodes b v = f.joinNodes b v := by
  rcases h with rfl | ⟨s, f₁, m, hs, hbuilt, rfl⟩
  · rfl
  · refine hbuilt.extended.joinNodes_other fun hj => ?_
    rcases (hs.search.seen (hs.phi_of_surviving hj.2)).eq_or_clear with he | he
    · exact hb (he.trans hs.leaf_eq)
    · exact he hd

/-! ## Fresh nodes -/

structure Func.Shaped (f : Func) : Prop where
  searchable : f.Searchable
  complete : ∀ {b v}, b ∈ f.blocks → f.joinNodes b v ≠ [] →
    ((f.feeds b v).map Prod.fst).Perm (f.preds b)
  inside : ∀ {b v}, f.joinNodes b v ≠ [] → b ∈ f.blocks

/-- Besides, every node is bound to what leaves its predecessor now. -/
structure Func.NodesFresh (f : Func) : Prop extends f.Shaped where
  fresh : ∀ {b v}, ∀ e ∈ f.feeds b v, f.Fresh v e.1 e.2

theorem ne_nil_of_mem_feeds {f : Func} {b : NodeId} {v : VarId} {e : NodeId × Option TimelineId}
    (he : e ∈ f.feeds b v) : f.joinNodes b v ≠ [] := by
  intro hnil
  rw [Func.feeds, hnil] at he
  cases he

theorem Func.Shaped.mem_preds {f : Func} (h : f.Shaped) {b : NodeId} {v : VarId}
    {e : NodeId × Option TimelineId} (he : e ∈ f.feeds b v) : b ∈ f.blocks ∧ e.1 ∈ f.preds b := by
  have hne := ne_nil_of_mem_feeds he
  have hb := h.inside hne
  exact ⟨hb, (h.complete hb hne).mem_iff.mp (List.mem_map_of_mem he)⟩

theorem Func.Shaped.pred_mem {f : Func} (h : f.Shaped) {b : NodeId} {v : VarId}
    {e : NodeId × Option TimelineId} (he : e ∈ f.feeds b v) : e.1 ∈ f.blocks :=
  h.searchable.forest.pred_mem (h.mem_preds he).1 (h.mem_preds he).2

theorem Func.NodesFresh.refines {f f' : Func} (h : f.NodesFresh) (hw : f'.Searchable)
    (hr : Refines f f') :
    f'.NodesFresh where
  searchable := hw
  fresh := fun {b v} e he => by
    rcases hr.joins b v with hj | hj
    · rw [hr.feeds_of_joinNodes h.searchable.tables hj] at he
      exact hr.fresh (h.pred_mem he) (h.fresh e he)
    · exact hj.fresh e he
  complete := fun {b v} hb hne => by
    rw [hr.keeps.blocks] at hb
    rw [hr.keeps.preds]
    rcases hr.joins b v with hj | hj
    · rw [hr.feeds_of_joinNodes h.searchable.tables hj]
      exact h.complete hb (hj ▸ hne)
    · rw [hj.preds]
  inside := fun {b v} hne => by
    rw [hr.keeps.blocks]
    rcases hr.joins b v with hj | hj
    · exact h.inside (hj ▸ hne)
    · exact hj.block

end DefFlow.Flow
