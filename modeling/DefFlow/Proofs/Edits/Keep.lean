import DefFlow.Proofs.Edits.Relink
import DefFlow.Proofs.Edits.Relist
import DefFlow.Proofs.Edits.Restock
import DefFlow.Proofs.State.Ledger

/-!
# What every edit keeps

A well-formed function has every component once, its timelines and nodes name each other,
its instructions know their places, its timelines are the ledger of its code, and the phis
come first. Edits of the trees, edits of nodes and edits of instructions each leave the
other parts alone.
-/

set_option autoImplicit false

namespace DefFlow.Flow

open Func Component

namespace Func

def phis (f : Func) (b : NodeId) : List InstId := (f.code b).take (f.blockAt b).phiCount

def plain (f : Func) (b : NodeId) : List InstId := (f.code b).drop (f.blockAt b).phiCount

structure PhisFirst (f : Func) : Prop where
  first : ∀ b, ∀ i ∈ f.phis b, (f.inst i).op = .phi ∧ (f.inst i).dest.isSome
  rest : ∀ b, ∀ i ∈ f.plain b, (f.inst i).op ≠ .phi
  apart : ∀ b, (f.phis b).Pairwise fun i j => ∀ v, f.defines v i = true → f.defines v j = false

/-- All but the order of the phis, which is restored last. -/
structure Consistent (f : Func) : Prop where
  held : f.bodyHeld = true
  stocked : f.Stocked []
  linked : f.Linked
  scheduled : f.Scheduled
  books : f.Books f.events

structure WellFormed (f : Func) : Prop extends f.Consistent where
  phisFirst : f.PhisFirst

end Func

section

variable {f f' f'' : Func} {b : NodeId} {v : VarId} {t : TimelineId} {i : InstId}

/-! ## Parts of the invariant -/

theorem Func.Stocked.sameGraph {hand : List Component} (h : f.Stocked hand)
    (hs : SameGraph f f') : f'.Stocked hand where
  nodup := by
    rw [hs.trees]
    exact h.nodup
  bounded := by
    rw [hs.trees, hs.size]
    exact h.bounded
  stored b := by
    rw [hs.trees, hs.stored]
    exact h.stored b

theorem Func.Stocked.stored_preds (h : f.Stocked []) (b p : NodeId) (hp : p ∈ f.preds b) :
    (f.nodes.get? p).isSome := by
  rw [Func.preds] at hp
  cases hfound : f.trees.findSome? fun c => c.predsIn b [] with
  | none =>
    rw [hfound] at hp
    cases hp
  | some l =>
    rw [hfound, Option.getD_some] at hp
    obtain ⟨c, hc, hl⟩ := List.exists_of_findSome?_eq_some hfound
    rcases mem_of_mem_predsIn c [] hl hp with hp | hp
    · cases hp
    · exact (h.stored p).mp (mem_blocksAll.mpr ⟨c, hc, hp⟩)

theorem Func.Linked.congr (h : f.Linked) (hl : SameLinks f f') (hs : f'.Stocked [])
    (hb : ∀ b, (f.nodes.get? b).isSome → (f'.nodes.get? b).isSome)
    (hm : f'.memo = f.memo ∨ f'.memo = []) : f'.Linked where
  tables := hl.tables h.tables
  preds := hs.stored_preds
  pred hi := hb _ (h.pred (hl.incoming ▸ hi))
  apart b v := by
    rw [hl.feeds]
    exact h.apart b v
  recalls := fun hmem => by
    rcases hm with hm | hm
    · rw [hm] at hmem
      refine (h.recalls hmem).mono ⟨fun hx => ?_, fun hx => hb _ hx⟩
      obtain ⟨y, hy, hyx⟩ := hl.get hx
      exact ⟨y, hy, (Timeline.links_inj hyx).2.1⟩
    · rw [hm] at hmem
      cases hmem

theorem SameRecords.account (h : SameRecords f f') (b : NodeId) (v : VarId) :
    f'.account b v = f.account b v := by
  rw [Func.account, Func.account, waiting, waiting, Func.held, Func.held, h.timeline?]

theorem Func.Books.congr {L L' : NodeId → VarId → List Event} (h : f.Books L)
    (ha : ∀ b v, f'.account b v = f.account b v) (hL : ∀ b v, L' b v = L b v) : f'.Books L' := by
  intro b v
  rw [ha, hL]
  exact h b v

theorem Func.Seated.consistent (h : f.Seated) (hp : ∀ b, (f.blockAt b).phiCount ≤ (f.code b).length)
    (hb : f.Books f.events) : f.Scheduled := by
  refine h.scheduled hp fun b v => ?_
  rw [locals_eq_held, ← defsIn_flatMap, ← Account.map_inst_ledger]
  exact congrArg (fun a => a.locals.map Local.inst) (hb b v)

/-- Every block has got a part of the phis and of the other instructions of some block. -/
theorem Func.PhisFirst.of_sublist (h : f.PhisFirst)
    (hp : ∀ b, ∃ c, (f'.phis b).Sublist (f.phis c) ∧ (f'.plain b).Sublist (f.plain c))
    (hc : ∀ b, ∀ i ∈ f'.code b,
      (f'.inst i).op = (f.inst i).op ∧ (f'.inst i).dest = (f.inst i).dest) :
    f'.PhisFirst where
  first b i hi := by
    obtain ⟨c, hsub, _⟩ := hp b
    obtain ⟨hop, hd⟩ := hc b i (List.mem_of_mem_take hi)
    rw [hop, hd]
    exact h.first c i (hsub.subset hi)
  rest b i hi := by
    obtain ⟨c, _, hsub⟩ := hp b
    rw [(hc b i (List.mem_of_mem_drop hi)).1]
    exact h.rest c i (hsub.subset hi)
  apart b := by
    obtain ⟨c, hsub, _⟩ := hp b
    refine ((h.apart c).sublist hsub).imp_of_mem fun {i j} hi hj hij v => ?_
    rw [defines_congr (hc b i (List.mem_of_mem_take hi)).2,
      defines_congr (hc b j (List.mem_of_mem_take hj)).2]
    exact hij v

theorem Func.PhisFirst.congr (h : f.PhisFirst) (hcode : ∀ b, f'.code b = f.code b)
    (hphi : ∀ b, (f'.blockAt b).phiCount = (f.blockAt b).phiCount)
    (hc : ∀ i, (f'.inst i).op = (f.inst i).op ∧ (f'.inst i).dest = (f.inst i).dest) :
    f'.PhisFirst := by
  refine h.of_sublist (fun b => ⟨b, ?_, ?_⟩) fun _ i _ => hc i
  · rw [phis, phis, hcode, hphi]
  · rw [plain, plain, hcode, hphi]

/-! ## Edits of nodes -/

theorem Relinks.consistent (h : Relinks f f') (hf : f.Consistent) : f'.Consistent where
  held := by
    rw [h.bodyHeld]
    exact hf.held
  stocked := hf.stocked.sameGraph h.toSameGraph
  linked := h.linked
  scheduled := hf.scheduled.congr h.instructions h.phiCount (fun b v => locals_of_held (h.held b v))
    fun i => by rw [h.insts]
  books := hf.books.congr (fun b v => by rw [account, h.waiting, h.held, account]) fun b v => by
    rw [events, code, h.instructions]
    exact List.flatMap_congr fun i _ =>
      eventsOf_congr (by rw [h.inst]) (by rw [h.inst]) v

theorem Relinks.wellFormed (h : Relinks f f') (hf : f.WellFormed) : f'.WellFormed :=
  ⟨h.consistent hf.toConsistent, hf.phisFirst.congr h.instructions h.phiCount fun i => by
    rw [h.inst]
    exact ⟨rfl, rfl⟩⟩

/-! ## What is remembered -/

theorem Func.Stocked.forest {hand : List Component} (h : f.Stocked hand)
    (hheld : f.bodyHeld = true) : f.Forest where
  held := hheld
  nodup := h.trees_nodup
  bounded i hi := h.bounded i (by
    rw [idsAll_append]
    exact List.mem_append_right _ hi)
  stored b hb := (h.stored b).mp (by
    rw [blocksAll_append]
    exact List.mem_append_right _ hb)

theorem Func.Consistent.forest (h : f.Consistent) : f.Forest := h.stocked.forest h.held

/-- A well-formed function whose remembered answers are right. -/
structure Func.MemoCorrect (f : Func) : Prop extends f.WellFormed where
  retells : f.Retells

theorem Func.MemoCorrect.of_nil (h : f.WellFormed) (hm : f.memo = []) : f.MemoCorrect :=
  ⟨h, retells_of_nil hm⟩

theorem Weaves.memoCorrect (h : Weaves f f') (hf : f.MemoCorrect) : f'.MemoCorrect :=
  ⟨h.toRelinks.wellFormed hf.toWellFormed, h.retells hf.forest hf.retells⟩

/-! ## Edits of the trees -/

theorem Restocks.consistent (h : Restocks f f') (hf : f.Consistent) : f'.Consistent where
  held := h.held hf.held
  stocked := h.stocked
  linked := hf.linked.congr h.toSameRecords.sameLinks h.stocked h.blocks h.memo
  scheduled := hf.scheduled.congr h.code h.phiCount h.locals fun i => by rw [h.insts]
  books := hf.books.congr h.toSameRecords.account fun b v => by
    have hi : ∀ i, f'.inst i = f.inst i := fun i => by rw [inst, inst, h.insts]
    rw [events, h.code]
    exact List.flatMap_congr fun i _ => eventsOf_congr (by rw [hi]) (by rw [hi]) v

theorem Restocks.wellFormed (h : Restocks f f') (hf : f.WellFormed) : f'.WellFormed :=
  ⟨h.consistent hf.toConsistent, hf.phisFirst.congr h.code h.phiCount fun i => by
    rw [inst, h.insts]
    exact ⟨rfl, rfl⟩⟩

/-! ## Edits of instructions -/

structure Rewrites (f f' : Func) : Prop extends SameGraph f f', SameLinks f f' where
  memo : f'.memo = f.memo ∨ f'.memo = []

namespace Rewrites

theorem trans (h : Rewrites f f') (h' : Rewrites f' f'') : Rewrites f f'' where
  toSameGraph := h.toSameGraph.trans h'.toSameGraph
  toSameLinks := h.toSameLinks.trans h'.toSameLinks
  memo := by
    rcases h'.memo with h' | h'
    · exact h.memo.imp h'.trans h'.trans
    · exact .inr h'

theorem of_recodes (h : Recodes f f') (hm : f'.memo = f.memo ∨ f'.memo = []) : Rewrites f f' :=
  ⟨h.toSameGraph, h.toSameRecords.sameLinks, hm⟩

theorem relisted {change : Timeline → Timeline} (h : Relisting change) :
    Rewrites f (f.relisted t change) :=
  ⟨sameGraph_relisted, sameLinks_relisted h, .inl rfl⟩

theorem forget (h : Rewrites f f') : Rewrites f { f' with memo := [] } :=
  h.trans ⟨⟨rfl, rfl, rfl, rfl, rfl, rfl, fun _ => rfl⟩, ⟨fun _ => rfl, fun _ => rfl, rfl⟩,
    .inr rfl⟩

theorem linked (h : Rewrites f f') (hs : f.Stocked []) (hl : f.Linked) : f'.Linked :=
  hl.congr h.toSameLinks (hs.sameGraph h.toSameGraph) (fun b hb => by rw [h.stored]; exact hb)
    h.memo

theorem consistent (h : Rewrites f f') (hf : f.Consistent) (hs : f'.Scheduled)
    (hb : f'.Books f'.events) :
    f'.Consistent where
  held := by
    rw [h.bodyHeld]
    exact hf.held
  stocked := hf.stocked.sameGraph h.toSameGraph
  linked := h.linked hf.stocked hf.linked
  scheduled := hs
  books := hb

end Rewrites

/-! ## The account of one timeline -/

theorem account_at (ht : f.Tables) (hid : f.timelineId? b v = some t) :
    (f.timelineAt t).account = f.account b v := (account_of_some (ht.timeline?_eq hid)).symm

theorem account_relisted {change : Timeline → Timeline} (ht : f.Tables)
    (hid : f.timelineId? b v = some t) (c : NodeId) (w : VarId) :
    (f.relisted t change).account c w =
      if c = b ∧ w = v then (change (f.timelineAt t)).account else f.account c w := by
  by_cases hc : c = b ∧ w = v
  · obtain ⟨rfl, rfl⟩ := hc
    obtain ⟨x, hx, _⟩ := ht.placed hid
    rw [if_pos ⟨rfl, rfl⟩, timelineAt_of_get? hx]
    refine account_of_some ?_
    rw [timeline?_relisted, hid, Option.bind_some, hx, Option.map_some, if_pos rfl]
  · rw [if_neg hc]
    have hsame : (f.relisted t change).timeline? c w = f.timeline? c w := by
      rw [timeline?_relisted, timeline?]
      refine Option.bind_congr fun u hu => ?_
      have hne : t ≠ u := fun he => hc (ht.eq_of_timelineId? hid (he ▸ hu))
      simp only [if_neg hne, Option.map_id']
    rw [account, account, waiting, waiting, Func.held, Func.held, hsame]

theorem account_changeUses (x : Timeline) (holder : Option InstId)
    (g : List UseSite → List UseSite) :
    (x.changeUses holder g).account = x.account.change holder g := by
  cases holder <;> rfl

theorem uses_account (x : Timeline) (holder : Option InstId) :
    x.usesOf holder = x.account.uses holder := by
  cases holder <;> rfl

end

end DefFlow.Flow
