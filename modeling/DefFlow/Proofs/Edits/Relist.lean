import DefFlow.Proofs.Edits.Advance
import DefFlow.Proofs.Edits.Schedule

/-!
# Lists of definitions and uses

Edits of what a timeline lists, without its nodes. As long as no block starts or
stops to decide a variable, everything that is settled stays so.
-/

set_option autoImplicit false

namespace DefFlow.Flow

open Func

/-! ## The same flow of values -/

structure SameFlow (f f' : Func) : Prop extends SameGraph f f' where
  explicit? : ∀ b v, f'.explicit? b v = f.explicit? b v
  feeds : ∀ b v, f'.feeds b v = f.feeds b v

namespace SameFlow

variable {f f' f'' : Func}

theorem refl (f : Func) : SameFlow f f := ⟨.refl f, fun _ _ => rfl, fun _ _ => rfl⟩

theorem trans (h : SameFlow f f') (h' : SameFlow f' f'') : SameFlow f f'' where
  toSameGraph := h.toSameGraph.trans h'.toSameGraph
  explicit? b v := (h'.explicit? b v).trans (h.explicit? b v)
  feeds b v := (h'.feeds b v).trans (h.feeds b v)

theorem joinNodes_ne_nil (h : SameFlow f f') {b : NodeId} {v : VarId} :
    f'.joinNodes b v ≠ [] ↔ f.joinNodes b v ≠ [] := by
  rw [← feeds_eq_nil_iff.ne, ← feeds_eq_nil_iff.ne, h.feeds]

end SameFlow

theorem Recodes.sameFlow {f f' : Func} (h : Recodes f f') : SameFlow f f' where
  toSameGraph := h.toSameGraph
  explicit? := h.explicit?
  feeds := h.feeds

theorem Lists.sameFlow {b : NodeId} {v : VarId} {t : TimelineId} {f f' : Func}
    (h : Lists b v t f f') (ht : f.Tables) (ht' : f'.Tables) : SameFlow f f' where
  toSameGraph := h.keeps.toSameGraph
  explicit? c w := by
    refine ht.explicit?_congr ht' (fun u hu => ?_) (h.locals c w) (h.joinNodes c w)
    rw [h.id]
    split
    · next hc =>
      obtain ⟨rfl, rfl⟩ := hc
      rcases h.old with ho | ho
      · rw [ho] at hu
        cases hu
      · rw [← ho, hu]
    · exact hu
  feeds := h.feeds

/-- Functions with fresh nodes, but for what they remember. -/
structure Func.Calm (f : Func) : Prop where
  forest : f.Forest
  enters : f.Enters
  tables : f.Tables
  unfrozen : f.frozen = false
  complete : ∀ {b v}, f.joinNodes b v ≠ [] →
    b ∈ f.blocks ∧ ((f.feeds b v).map Prod.fst).Perm (f.preds b)
  fresh : ∀ {b v}, ∀ e ∈ f.feeds b v, f.Fresh v e.1 e.2

namespace Func

variable {f f' : Func}

theorem NodesFresh.calm (h : f.NodesFresh) : f.Calm where
  forest := h.searchable.forest
  enters := h.searchable.enters
  tables := h.searchable.tables
  unfrozen := h.searchable.unfrozen
  complete hne := ⟨h.inside hne, h.complete (h.inside hne) hne⟩
  fresh := h.fresh

theorem Calm.nodesFresh (h : f.Calm) (hm : f.Remembers) : f.NodesFresh where
  searchable := ⟨h.forest, h.enters, h.tables, h.unfrozen, hm⟩
  complete _ hne := (h.complete hne).2
  inside hne := (h.complete hne).1
  fresh := h.fresh

theorem Calm.sameFlow (h : f.Calm) (hs : SameFlow f f') (ht : f'.Tables) : f'.Calm where
  forest := hs.forest h.forest
  enters := hs.enters h.enters
  tables := ht
  unfrozen := by rw [hs.frozen]; exact h.unfrozen
  complete := fun {b v} hne => by
    rw [hs.blocks, hs.preds, hs.feeds]
    exact h.complete (hs.joinNodes_ne_nil.mp hne)
  fresh := fun {b v} e he => by
    rw [hs.feeds] at he
    exact fresh_congr hs.preds (fun c => hs.explicit? c v) (h.fresh e he)

/-- The shape is kept where the same values come along the same edges, whatever decides them. -/
theorem Calm.shaped (h : f.Calm) (hs : SameGraph f f')
    (hfeeds : ∀ b v, f'.feeds b v = f.feeds b v) (ht : f'.Tables) (hm : f'.memo = []) :
    f'.Shaped := by
  have hnodes : ∀ {b v}, f'.joinNodes b v ≠ [] → f.joinNodes b v ≠ [] := fun {b v} hne => by
    rwa [← feeds_eq_nil_iff.ne, ← hfeeds, feeds_eq_nil_iff.ne]
  refine ⟨⟨hs.forest h.forest, hs.enters h.enters, ht, by rw [hs.frozen]; exact h.unfrozen,
    remembers_of_nil hm⟩, fun {b v} _ hne => ?_, fun hne => ?_⟩
  · rw [hs.preds, hfeeds]
    exact (h.complete (hnodes hne)).2
  · rw [hs.blocks]
    exact (h.complete (hnodes hne)).1

/-- The answers that are remembered have no bearing on the rest. -/
theorem Calm.memo (h : f.Calm) (m : List (Question × Stack)) :
    ({ f with memo := m } : Func).Calm := by
  have hs : SameFlow f { f with memo := m } :=
    ⟨⟨rfl, rfl, rfl, rfl, rfl, rfl, fun _ => rfl⟩, fun _ _ => rfl, fun _ _ => rfl⟩
  exact h.sameFlow hs (tables_memo h.tables m)

theorem Calm.forget (h : f.Calm) : ({ f with memo := [] } : Func).NodesFresh :=
  (h.memo []).nodesFresh (remembers_of_nil rfl)

end Func

/-! ## One timeline -/

structure Relisting (change : Timeline → Timeline) : Prop where
  block : ∀ x, (change x).block = x.block
  var : ∀ x, (change x).var = x.var
  incoming : ∀ x, (change x).incoming = x.incoming
  referrers : ∀ x, (change x).referrers = x.referrers

def Func.relisted (f : Func) (t : TimelineId) (change : Timeline → Timeline) : Func :=
  { f with timelines := f.timelines.modify t change }

section

variable {f : Func} {t : TimelineId} {change : Timeline → Timeline}

theorem get?_relisted (u : TimelineId) : (f.relisted t change).timelines.get? u =
    (f.timelines.get? u).map fun x => if t = u then change x else x :=
  Arena.get?_modify_map _ _ _ _

theorem sameGraph_relisted : SameGraph f (f.relisted t change) :=
  ⟨rfl, rfl, rfl, rfl, rfl, rfl, fun _ => rfl⟩

theorem sameLinks_relisted (h : Relisting change) : SameLinks f (f.relisted t change) where
  listed _ := rfl
  links u := by
    rw [get?_relisted, Option.map_map]
    congr 1
    funext x
    rw [Function.comp_apply]
    split
    · simp only [Timeline.links, h.block, h.var, h.incoming, h.referrers]
    · rfl
  incoming := rfl

theorem relisted_tables (ht : f.Tables) (h : Relisting change) : (f.relisted t change).Tables :=
  (sameLinks_relisted h).tables ht

theorem timeline?_relisted (b : NodeId) (v : VarId) :
    (f.relisted t change).timeline? b v =
      (f.timelineId? b v).bind fun u => (f.timelines.get? u).map fun x =>
        if t = u then change x else x := by
  rw [timeline?]
  exact Option.bind_congr fun u _ => get?_relisted u

theorem joinNodes_relisted (h : Relisting change) (b : NodeId) (v : VarId) :
    (f.relisted t change).joinNodes b v = f.joinNodes b v := (sameLinks_relisted h).joinNodes b v

theorem feeds_relisted (h : Relisting change) (b : NodeId) (v : VarId) :
    (f.relisted t change).feeds b v = f.feeds b v := (sameLinks_relisted h).feeds b v

theorem locals_relisted (ht : f.Tables) (b : NodeId) (v : VarId) :
    (f.relisted t change).locals b v =
      if f.timelineId? b v = some t then (change (f.timelineAt t)).locals.map Local.inst
      else f.locals b v := by
  rw [locals, timeline?_relisted]
  cases hid : f.timelineId? b v with
  | none => rw [locals_of_none hid]; rfl
  | some u =>
    obtain ⟨x, hx, _⟩ := ht.placed hid
    rw [ht.locals_eq hid, timelineAt_of_get? hx, Option.bind_some, hx, Option.map_some]
    by_cases hu : t = u
    · subst hu
      simp only [if_pos, timelineAt_of_get? hx]
    · have hne : ¬ (some u = some t) := fun he => hu (Option.some.inj he).symm
      simp only [if_neg hu, if_neg hne]

theorem sameFlow_relisted (ht : f.Tables) (h : Relisting change)
    (hl : (change (f.timelineAt t)).locals.map Local.inst =
      (f.timelineAt t).locals.map Local.inst) :
    SameFlow f (f.relisted t change) ∧ ∀ b v, (f.relisted t change).locals b v = f.locals b v := by
  have hlocals : ∀ b v, (f.relisted t change).locals b v = f.locals b v := by
    intro b v
    rw [locals_relisted ht]
    split
    · next hid => rw [hl, ht.locals_eq hid]
    · rfl
  refine ⟨⟨sameGraph_relisted, fun b v => ?_, feeds_relisted h⟩, hlocals⟩
  exact ht.explicit?_congr (relisted_tables ht h) (fun _ hid => hid) (hlocals b v)
    (joinNodes_relisted h b v)

end

end DefFlow.Flow
