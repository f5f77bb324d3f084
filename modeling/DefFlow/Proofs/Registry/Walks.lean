import DefFlow.Proofs.Registry.Runs
import DefFlow.Proofs.Tree.Edge

/-!
# The walks end

A walk over a registry that pictures a function ends. The walk up from a component finds the
predecessors that the trees have for it, and so for its successors, its entry and its leaves.
-/

set_option autoImplicit false

namespace DefFlow.Flow

open Func Component

namespace Registry

section

variable {α β γ : Type} {walk walk' : Nat → Option α} {a : α} {b : β}

/-- With enough steps the walk answers `a`, and with more steps too. -/
def EndsWith (walk : Nat → Option α) (a : α) : Prop := ∃ n, ∀ m, n ≤ m → walk m = some a

theorem EndsWith.now (a : α) : EndsWith (fun _ => some a) a := ⟨0, fun _ _ => rfl⟩

theorem EndsWith.step (hw : EndsWith walk' a) (h : ∀ m, walk (m + 1) = walk' m) :
    EndsWith walk a := by
  obtain ⟨n, hn⟩ := hw
  refine ⟨n + 1, fun m hm => ?_⟩
  obtain ⟨m, rfl⟩ := Nat.exists_eq_add_of_le' (Nat.lt_of_lt_of_le (Nat.succ_pos n) hm)
  rw [h, hn m (Nat.le_of_succ_le_succ hm)]

theorem EndsWith.bind (hw : EndsWith walk a) (next : Nat → α → Option β)
    (h : EndsWith (fun m => next m a) b) :
    EndsWith (fun m => walk m >>= next m) b := by
  obtain ⟨n, hn⟩ := hw
  obtain ⟨k, hk⟩ := h
  refine ⟨max n k, fun m hm => ?_⟩
  dsimp only
  rw [hn m (Nat.le_trans (Nat.le_max_left n k) hm)]
  exact hk m (Nat.le_trans (Nat.le_max_right n k) hm)

/-- The walks from the members of a list end all together. -/
theorem EndsWith.forall (walk : Nat → γ → Option β) {k : γ → β} {l : List γ}
    (h : ∀ c ∈ l, EndsWith (fun m => walk m c) (k c)) : ∃ n, ∀ m, n ≤ m → ∀ c ∈ l,
        walk m c = some (k c) := by
  induction l with
  | nil => exact ⟨0, fun _ _ => List.forall_mem_nil _⟩
  | cons c l ih =>
    obtain ⟨n, hn⟩ := h c List.mem_cons_self
    obtain ⟨n', hn'⟩ := ih fun d hd => h d (List.mem_cons_of_mem c hd)
    refine ⟨max n n', fun m hm => List.forall_mem_cons.mpr ⟨?_, ?_⟩⟩
    · exact hn m (Nat.le_trans (Nat.le_max_left n n') hm)
    · exact hn' m (Nat.le_trans (Nat.le_max_right n n') hm)

variable {k : Component → β} {cs : List Component}

theorem EndsWith.mapM (walk : Nat → NodeId → Option β)
    (h : ∀ c ∈ cs, EndsWith (fun m => walk m c.id) (k c)) :
    EndsWith (fun m => (cs.map Component.id).mapM (walk m)) (cs.map k) := by
  obtain ⟨n, hn⟩ := EndsWith.forall (fun m (c : Component) => walk m c.id) h
  exact ⟨n, fun m hm => mapM_some (hn m hm)⟩

end

/-! ## Lists of components -/

section

theorem orElse_assoc (l m r : List NodeId) : orElse (orElse l m) r = orElse l (orElse m r) := by
  cases l <;> rfl

theorem foldr_orElse (ls : List (List NodeId)) (l : List NodeId) :
    ls.foldr orElse l = orElse (ls.foldr orElse []) l := by
  induction ls with
  | nil => rfl
  | cons x ls ih => rw [List.foldr_cons, ih, List.foldr_cons, orElse_assoc]

theorem orElse_nil (l : List NodeId) : orElse l [] = l := by cases l <;> rfl

theorem foldr_leaves_reverse (cs : List Component) :
    (cs.reverse.map Component.leaves).foldr orElse [] = leavesLast cs := by
  induction cs with
  | nil => rfl
  | cons c cs ih =>
    rw [List.reverse_cons, List.map_append, List.foldr_append, foldr_orElse, ih]
    exact congrArg _ (orElse_nil c.leaves)

theorem leavesCases_eq_flatten (cond : NodeId) {cs : List Component} (h : cs ≠ []) :
    leavesCases cond cs = (cs.map fun c => c.exits [cond]).flatten := by
  induction cs with
  | nil => exact absurd rfl h
  | cons c cs ih =>
    cases cs with
    | nil => exact (List.append_nil _).symm
    | cons d cs =>
      rw [leavesCases, ih (List.cons_ne_nil d cs), List.map_cons, List.flatten_cons]
      · rfl
      · exact List.cons_ne_nil d cs

variable {k : Component → List NodeId} {cs : List Component}

theorem EndsWith.firstFilled (walk : Nat → NodeId → Option (List NodeId))
    (h : ∀ c ∈ cs, EndsWith (fun m => walk m c.id) (k c)) :
    EndsWith (fun m => firstFilled (walk m) (cs.map Component.id))
        ((cs.map k).foldr orElse []) := by
  induction cs with
  | nil => exact .now []
  | cons c cs ih =>
    refine (h c List.mem_cons_self).bind _ ?_
    cases hc : k c with
    | nil =>
      rw [List.map_cons, hc]
      exact ih fun d hd => h d (List.mem_cons_of_mem c hd)
    | cons b l =>
      rw [List.map_cons, hc]
      exact .now _

theorem EndsWith.firstEntry (walk : Nat → NodeId → Option (Option NodeId))
    (h : ∀ c ∈ cs, EndsWith (fun m => walk m c.id) c.entry) :
    EndsWith (fun m => firstEntry (walk m) (cs.map Component.id)) (entryAll cs) := by
  induction cs with
  | nil => exact .now none
  | cons c cs ih =>
    refine (h c List.mem_cons_self).bind _ ?_
    rw [entryAll]
    cases hc : c.entry with
    | none => exact ih fun d hd => h d (List.mem_cons_of_mem c hd)
    | some b => exact .now _

end

/-! ## Down a tree -/

section

variable {s : Registry} {o : Option NodeId} {i t : NodeId} {c : Component}
  {preds succs k l : List NodeId}

theorem Shows.placement (h : s.Shows o c) (hn : c.ids.Nodup) (role : Role)
    (hp : c.Plays i role) :
    s.placement i = .ok (some (c.id, role)) := by
  obtain ⟨d, hd, rfl⟩ := List.mem_map.mp (mem_children_of_plays hp)
  refine placement_eq (h.child hd).root h.root ?_ (at?_parts_of_plays hp)
  rw [ids_eq_cons, List.nodup_cons] at hn
  rw [listed_parts]
  exact (map_id_sublist _).nodup hn.2

theorem exits_end (hl : EndsWith (s.leaves? · i) l) (hp : EndsWith (s.preds? · i) preds) :
    EndsWith (s.exits? · i) (orElse l preds) := by
  refine (hl.bind (fun m leaves => if leaves.isEmpty then s.preds? m i else some leaves) ?_).step
      fun m => by rw [exits?]
  cases l with
  | nil => exact hp
  | cons b l => exact .now _

/-- Control comes to a case from the condition of its fork. -/
theorem preds_case {q cond : NodeId} {cases : List Component} {d : Component}
    (h : s.Shows o (.fork q cond cases)) (hn : (Component.fork q cond cases).ids.Nodup)
    (hd : d ∈ cases) : EndsWith (s.preds? · d.id) [cond] := by
  obtain ⟨n, hn'⟩ := List.getElem?_of_mem hd
  exact (EndsWith.now [cond]).step fun m => by
    simp only [preds?, h.placement hn (.case n) ⟨d, hn', rfl⟩, h.parts?]
    rfl

theorem leaves_end (h : s.Shows o c) (hn : c.ids.Nodup) : EndsWith (s.leaves? · c.id) c.leaves := by
  induction h with
  | @intro o c h hc ih =>
    have hc' : s.Shows o c := ⟨h, hc⟩
    cases c with
    | block b => exact (EndsWith.now [b]).step fun m => by rw [leaves?, hc'.parts?]; rfl
    | seq q elements =>
      rw [leaves, ← foldr_leaves_reverse]
      refine (EndsWith.firstFilled s.leaves? fun d hd => ?_).step fun m => by
        rw [leaves?, hc'.parts?, List.map_reverse]
        rfl
      exact ih d (List.mem_reverse.mp hd) (child_nodup hn (List.mem_reverse.mp hd))
    | fork q cond cases =>
      cases cases with
      | nil => exact (EndsWith.now _).step fun m => by rw [leaves?, hc'.parts?]; rfl
      | cons d ds =>
        have hexits : ∀ e ∈ d :: ds, EndsWith (s.exits? · e.id) (e.exits [cond]) := fun e he =>
          exits_end (ih e (List.mem_cons_of_mem _ he) (child_nodup hn (List.mem_cons_of_mem _ he)))
            (preds_case hc' hn he)
        rw [leaves, leavesCases_eq_flatten cond (List.cons_ne_nil d ds)]
        refine ((EndsWith.mapM s.exits? hexits).bind
          (fun _ found => some found.flatten.eraseDups) (.now _)).step fun m => ?_
        rw [leaves?, hc'.parts?]
        rfl
    | loop q start cond body update after =>
      exact (EndsWith.now _).step fun m => by rw [leaves?, hc'.parts?]; rfl

theorem entrance_end (h : s.Shows o c) : EndsWith (s.entrance? · c.id) c.entry := by
  induction h with
  | @intro o c h hc ih =>
    have hc' : s.Shows o c := ⟨h, hc⟩
    cases c with
    | block b => exact (EndsWith.now _).step fun m => by rw [entrance?, hc'.parts?]; rfl
    | seq q elements =>
      exact (EndsWith.firstEntry s.entrance? ih).step fun m => by
        rw [entrance?, hc'.parts?]
        rfl
    | fork q cond cases => exact (EndsWith.now _).step fun m => by rw [entrance?, hc'.parts?]; rfl
    | loop q start cond body update after =>
      refine ((ih start List.mem_cons_self).bind
        (fun _ entry => some (some (entry.getD cond))) (.now _)).step fun m => ?_
      rw [entrance?, hc'.parts?]
      rfl

theorem enter_end (he : s.Shows o c) (hs : EndsWith (s.succs? · c.id) succs) :
    EndsWith (s.enter? · c.id) (c.enter succs) := by
  refine ((entrance_end he).bind (fun m entry => entry.elim (s.succs? m c.id) (some [·]))
    ?_).step fun m => by
      rw [enter?]
      exact congrArg _ (funext fun entry => by cases entry <;> rfl)
  rw [Component.enter]
  cases c.entry with
  | some b => exact .now [b]
  | none => exact hs

/-! ## Up a tree -/

variable {cs : List Component}

mutual
/-- The walk up from a part of a tree finds what the tree says, if the walk up from the tree
ends with `preds`. -/
theorem preds_end {t : NodeId} {preds k : List NodeId} : (c : Component) → {o : Option NodeId} →
    s.Shows o c → c.ids.Nodup → EndsWith (s.preds? · c.id) preds → c.predsIn t preds = some k →
      EndsWith (s.preds? · t) k
  | .block b, o, h, hn, hp, hk => by
    rw [predsIn] at hk
    split at hk
    · next he =>
      cases hk
      exact he ▸ hp
    · cases hk
  | .seq q cs, o, h, hn, hp, hk => by
    rw [predsIn] at hk
    split at hk
    · next he =>
      cases hk
      exact he ▸ hp
    refine predsElements_end [] cs h hn (fun d hd => ?_) hk
    cases cs with
    | nil => cases hd
    | cons e cs =>
      obtain rfl : e = d := Option.some.inj hd
      exact hp.step fun m => by
        rw [preds?, h.placement hn (.element 0) ⟨_, rfl, rfl⟩]
  | .fork q cond cs, o, h, hn, hp, hk => by
    rw [predsIn] at hk
    split at hk
    · next he =>
      cases hk
      rcases Bool.or_eq_true _ _ |>.mp he with he | he
      · exact of_decide_eq_true he ▸ hp
      · rw [← of_decide_eq_true he]
        exact hp.step fun m => by
          rw [preds?, h.placement hn .condition rfl]
    exact predsCases_end cs (fun d hd => h.child (List.mem_cons_of_mem _ hd))
      (fun d hd => child_nodup hn (List.mem_cons_of_mem _ hd)) (fun d hd => preds_case h hn hd) hk
  | .loop q start cond body update after, o, h, hn, hp, hk => by
    have hstart : EndsWith (s.preds? · start.id) preds := hp.step fun m => by
      rw [preds?, h.placement hn .start rfl]
    have hbody : EndsWith (s.preds? · body.id) [cond] := (EndsWith.now _).step fun m => by
      simp only [preds?, h.placement hn .body rfl, h.parts?]
      rfl
    have hexits {d : Component} {l : List NodeId}
        (hd : d ∈ (Component.loop q start cond body update after).children)
        (hl : EndsWith (s.preds? · d.id) l) : EndsWith (s.exits? · d.id) (d.exits l) :=
      exits_end (leaves_end (h.child hd) (child_nodup hn hd)) hl
    have hbodies := hexits (by simp [children]) hbody
    have hupdate : EndsWith (s.preds? · update.id) (body.exits [cond]) := hbodies.step fun m => by
      simp only [preds?, h.placement hn .update rfl, h.parts?]
      rfl
    rw [predsIn] at hk
    split at hk
    · next he =>
      cases hk
      exact he ▸ hp
    split at hk
    · next he =>
      cases hk
      subst he
      refine ((hexits (by simp [children]) hstart).bind (fun m found => do
        return (found ++ (← s.exits? m update.id)).eraseDups)
        ((hexits (by simp [children]) hupdate).bind
          (fun _ again => some (start.exits preds ++ again).eraseDups)
          (.now _))).step fun m => ?_
      simp only [preds?, h.placement hn .loopCondition rfl, h.parts?]
      rfl
    split at hk
    · next he =>
      cases hk
      subst he
      refine (EndsWith.now _).step fun m => ?_
      simp only [preds?, h.placement hn .after rfl, h.parts?]
      rfl
    rcases Option.or_eq_some_iff.mp hk with hk | ⟨-, hk⟩
    · exact preds_end start (h.child (by simp [children])) (child_nodup hn (by simp [children]))
        hstart hk
    rcases Option.or_eq_some_iff.mp hk with hk | ⟨-, hk⟩
    · exact preds_end body (h.child (by simp [children])) (child_nodup hn (by simp [children]))
        hbody hk
    · exact preds_end update (h.child (by simp [children])) (child_nodup hn (by simp [children]))
        hupdate hk

theorem predsElements_end {t q : NodeId} {preds k : List NodeId} : (l cs : List Component) →
    {o : Option NodeId} → s.Shows o (.seq q (l ++ cs)) → (Component.seq q (l ++ cs)).ids.Nodup →
      (∀ d ∈ cs.head?, EndsWith (s.preds? · d.id) preds) → predsElements t preds cs = some k →
        EndsWith (s.preds? · t) k
  | _, [], _, _, _, _, hk => by cases hk
  | l, c :: cs, o, h, hn, hp, hk => by
    have hc : c ∈ l ++ c :: cs := List.mem_append_right _ List.mem_cons_self
    have hp' := hp c rfl
    rcases Option.or_eq_some_iff.mp hk with hk | ⟨-, hk⟩
    · exact preds_end c (h.child hc) (child_nodup hn hc) hp' hk
    rw [List.append_cons] at h hn
    refine predsElements_end (l ++ [c]) cs h hn (fun d hd => ?_) hk
    cases cs with
    | nil => cases hd
    | cons e cs =>
      obtain rfl : e = d := Option.some.inj hd
      have hc : c ∈ l ++ [c] ++ e :: cs := by simp
      refine (exits_end (leaves_end (h.child hc) (child_nodup hn hc)) hp').step fun m => ?_
      simp only [preds?, h.placement hn (.element (l.length + 1)) ⟨e, by simp, rfl⟩, h.parts?]
      simp [parts]

theorem predsCases_end {t cond : NodeId} {k : List NodeId} : (cs : List Component) →
    {o : Option NodeId} → (∀ d ∈ cs, s.Shows o d) → (∀ d ∈ cs, d.ids.Nodup) →
      (∀ d ∈ cs, EndsWith (s.preds? · d.id) [cond]) → predsCases t [cond] cs = some k →
        EndsWith (s.preds? · t) k
  | [], _, _, _, _, hk => by cases hk
  | c :: cs, o, h, hn, hp, hk => by
    rcases Option.or_eq_some_iff.mp hk with hk | ⟨-, hk⟩
    · exact preds_end c (h c List.mem_cons_self) (hn c List.mem_cons_self)
        (hp c List.mem_cons_self) hk
    · exact predsCases_end cs (fun d hd => h d (List.mem_cons_of_mem c hd))
        (fun d hd => hn d (List.mem_cons_of_mem c hd))
        (fun d hd => hp d (List.mem_cons_of_mem c hd)) hk
end

mutual
/-- The walk up for the successors of a part of a tree, if the walk up from the tree ends with
`succs`. -/
theorem succs_end {t : NodeId} {succs k : List NodeId} : (c : Component) → {o : Option NodeId} →
    s.Shows o c → c.ids.Nodup → EndsWith (s.succs? · c.id) succs → c.succsIn t succs = some k →
      EndsWith (s.succs? · t) k
  | .block b, o, h, hn, hs, hk => by
    rw [succsIn] at hk
    split at hk
    · next he =>
      cases hk
      exact he ▸ hs
    · cases hk
  | .seq q cs, o, h, hn, hs, hk => by
    rw [succsIn] at hk
    split at hk
    · next he =>
      cases hk
      exact he ▸ hs
    · exact succsElements_end [] cs h hn hs hk
  | .fork q cond cs, o, h, hn, hs, hk => by
    have hcases : ∀ d ∈ cs, EndsWith (s.succs? · d.id) succs := fun d hd => by
      obtain ⟨n, hd⟩ := List.getElem?_of_mem hd
      exact hs.step fun m => by rw [succs?, h.placement hn (.case n) ⟨d, hd, rfl⟩]
    rw [succsIn] at hk
    split at hk
    · next he =>
      cases hk
      exact he ▸ hs
    split at hk
    · next he =>
      cases hk
      subst he
      cases cs with
      | nil =>
        refine hs.step fun m => ?_
        simp only [succs?, h.placement hn .condition rfl, h.parts?]
        rfl
      | cons d ds =>
        rw [List.flatMap_def]
        refine ((EndsWith.mapM s.enter? fun e he => enter_end
          (h.child (List.mem_cons_of_mem _ he)) (hcases e he)).bind
          (fun _ found => some found.flatten.eraseDups) (.now _)).step fun m => ?_
        simp only [succs?, h.placement hn .condition rfl, h.parts?]
        rfl
    · exact succsCases_end cs (fun d hd => h.child (List.mem_cons_of_mem _ hd))
        (fun d hd => child_nodup hn (List.mem_cons_of_mem _ hd)) hcases hk
  | .loop q start cond body update after, o, h, hn, hs, hk => by
    have hstart : EndsWith (s.succs? · start.id) [cond] := (EndsWith.now _).step fun m => by
      simp only [succs?, h.placement hn .start rfl, h.parts?]
      rfl
    have hupdate : EndsWith (s.succs? · update.id) [cond] := (EndsWith.now _).step fun m => by
      simp only [succs?, h.placement hn .update rfl, h.parts?]
      rfl
    have hbody : EndsWith (s.succs? · body.id) (update.enter [cond]) :=
      (enter_end (h.child (by simp [children])) hupdate).step fun m => by
        simp only [succs?, h.placement hn .body rfl, h.parts?]
        rfl
    rw [succsIn] at hk
    split at hk
    · next he =>
      cases hk
      rcases Bool.or_eq_true _ _ |>.mp he with he | he
      · exact of_decide_eq_true he ▸ hs
      · rw [← of_decide_eq_true he]
        exact hs.step fun m => by rw [succs?, h.placement hn .after rfl]
    split at hk
    · next he =>
      cases hk
      subst he
      refine ((enter_end (h.child (by simp [children])) hbody).bind
        (fun _ found => some (found ++ [after]).eraseDups) (.now _)).step fun m => ?_
      simp only [succs?, h.placement hn .loopCondition rfl, h.parts?]
      rfl
    rcases Option.or_eq_some_iff.mp hk with hk | ⟨-, hk⟩
    · exact succs_end start (h.child (by simp [children])) (child_nodup hn (by simp [children]))
        hstart hk
    rcases Option.or_eq_some_iff.mp hk with hk | ⟨-, hk⟩
    · exact succs_end body (h.child (by simp [children])) (child_nodup hn (by simp [children]))
        hbody hk
    · exact succs_end update (h.child (by simp [children])) (child_nodup hn (by simp [children]))
        hupdate hk

theorem succsElements_end {t q : NodeId} {succs k : List NodeId} : (l cs : List Component) →
    {o : Option NodeId} → s.Shows o (.seq q (l ++ cs)) → (Component.seq q (l ++ cs)).ids.Nodup →
      EndsWith (s.succs? · q) succs → succsElements t succs cs = some k → EndsWith (s.succs? · t) k
  | _, [], _, _, _, _, hk => by cases hk
  | l, c :: cs, o, h, hn, hs, hk => by
    have hc : c ∈ l ++ c :: cs := List.mem_append_right _ List.mem_cons_self
    have hnext : EndsWith (s.succs? · c.id) (enterAll cs succs) := by
      refine ((EndsWith.firstEntry s.entrance? fun d hd => entrance_end (h.child
        (List.mem_append_right _ (List.mem_cons_of_mem c hd)))).bind (fun m entry =>
        entry.elim (s.succs? m q) (some [·])) ?_).step fun m => ?_
      · rw [enterAll]
        cases entryAll cs with
        | some b => exact .now [b]
        | none => exact hs
      · have hrest : ((l ++ c :: cs).map Component.id).drop (l.length + 1) =
            cs.map Component.id := by
          rw [List.append_cons, List.map_append]
          exact List.drop_left' (by simp)
        simp only [succs?, h.placement hn (.element l.length) ⟨c, by simp, rfl⟩, h.parts?, parts,
          hrest]
        exact congrArg _ (funext fun entry => by cases entry <;> rfl)
    rcases Option.or_eq_some_iff.mp hk with hk | ⟨-, hk⟩
    · exact succs_end c (h.child hc) (child_nodup hn hc) hnext hk
    · rw [List.append_cons] at h hn
      exact succsElements_end (l ++ [c]) cs h hn hs hk

theorem succsCases_end {t : NodeId} {succs k : List NodeId} : (cs : List Component) →
    {o : Option NodeId} → (∀ d ∈ cs, s.Shows o d) → (∀ d ∈ cs, d.ids.Nodup) →
      (∀ d ∈ cs, EndsWith (s.succs? · d.id) succs) → succsCases t succs cs = some k →
        EndsWith (s.succs? · t) k
  | [], _, _, _, _, hk => by cases hk
  | c :: cs, o, h, hn, hs, hk => by
    rcases Option.or_eq_some_iff.mp hk with hk | ⟨-, hk⟩
    · exact succs_end c (h c List.mem_cons_self) (hn c List.mem_cons_self)
        (hs c List.mem_cons_self) hk
    · exact succsCases_end cs (fun d hd => h d (List.mem_cons_of_mem c hd))
        (fun d hd => hn d (List.mem_cons_of_mem c hd))
        (fun d hd => hs d (List.mem_cons_of_mem c hd)) hk
end

end

end Registry

section

variable {s : Registry} {f : Func} {i : NodeId} {c : Component}

namespace Registry.Pictures

variable (h : s.Pictures [] f) (hf : f.Forest)

include h hf

theorem placement_tree (hc : c ∈ f.trees) :
    s.placement c.id = .ok none ∨ s.placement c.id = .ok (some (rootId, .functionBody)) := by
  rcases List.mem_cons.mp hc with rfl | hc
  · rw [h.placement hf (.inr (mem_idsAll.mpr ⟨f.body, hc, id_mem_ids f.body⟩)),
      parent_of_body hf.nodup hf.held]
    exact .inr rfl
  · exact .inl (by simp [Registry.placement, (h.detached c hc).root])

theorem shows_found {d : Component} (hc : c ∈ f.trees) (hi : i ∈ c.ids) (hd : c.find? i = some d) :
    (∃ o, s.Shows o d) ∧ d.ids.Nodup := by
  have hs := h.shows hf hc
  rcases within_of_find? c hd with ⟨b, rfl⟩ | ⟨hw, -⟩
  · obtain ⟨_, e, -, he, hid, hx⟩ := hs.record (hf.tree_nodup hc) hi
    cases he.symm.trans hd
    exact ⟨⟨_, hid ▸ hx, List.forall_mem_nil _⟩, List.nodup_singleton b⟩
  · exact ⟨hs.within hw, PartOf.nodup ⟨c, hc, hw⟩ hf.nodup⟩

theorem walks_end (hi : i ∈ idsAll f.trees) :
    EndsWith (s.preds? · i) (f.preds i) ∧ EndsWith (s.succs? · i) (f.succs i) ∧
      ∃ d, f.find? i = some d ∧ EndsWith (s.leaves? · i) d.leaves ∧
          EndsWith (s.entrance? · i) d.entry := by
  obtain ⟨c, hc, hi⟩ := mem_idsAll.mp hi
  have hs := h.shows hf hc
  have hn := hf.tree_nodup hc
  obtain ⟨d, hd⟩ := Option.isSome_iff_exists.mp (find?_isSome c hi)
  obtain ⟨⟨o, ho⟩, hnd⟩ := h.shows_found hf hc hi hd
  obtain ⟨k, hk, -⟩ := predsIn_found hn hd []
  obtain ⟨l, hl, -⟩ := succsIn_found hn hd []
  have hpreds : EndsWith (s.preds? · c.id) [] := (EndsWith.now []).step fun m => by
    rcases h.placement_tree hf hc with hp | hp <;> rw [preds?, hp]
  have hsuccs : EndsWith (s.succs? · c.id) [] := (EndsWith.now []).step fun m => by
    rcases h.placement_tree hf hc with hp | hp <;> rw [succs?, hp]
  rw [Func.preds, findSome?_trees hf.nodup hc hi fun d hd => predsIn_eq_none d [] hd, hk,
    Func.succs, findSome?_trees hf.nodup hc hi fun d hd => succsIn_eq_none d [] hd, hl,
    find?_of_mem_tree hf.nodup hc hi]
  refine ⟨preds_end c hs hn hpreds hk, succs_end c hs hn hsuccs hl, d, hd, ?_⟩
  obtain ⟨rfl, -⟩ := find?_sound c hd
  exact ⟨leaves_end ho hnd, entrance_end ho⟩

end Registry.Pictures

/-- The walks over the records of a function that is reached all end. -/
theorem Reached.walks_end (h : Reached f) : ∃ s, Registered f s ∧ ∀ i ∈ idsAll f.trees,
    Registry.EndsWith (s.preds? · i) (f.preds i) ∧ Registry.EndsWith (s.succs? · i) (f.succs i) ∧
      ∃ d, f.find? i = some d ∧ Registry.EndsWith (s.leaves? · i) d.leaves ∧ Registry.EndsWith
          (s.entrance? · i) d.entry := by
  obtain ⟨s, hs⟩ := h.registered
  exact ⟨s, hs, fun i hi => hs.pictures.walks_end h.wellFormed.forest hi⟩

end

end DefFlow.Flow
