import DefFlow.Proofs.Tree.Region
import Mathlib.Computability.Language

/-!
# What the walks through a tree read

Control that passes through a component reads the code of the blocks it visits. What it can
read is put together from the parts: one after the other in a sequence, one of the cases in a
fork, any number of rounds in a loop. Main statement: these are the texts read along the edges
of the tree from its entry until control leaves it.
-/

set_option autoImplicit false

namespace DefFlow.Flow.Component

open Computability

variable {α : Type} (code : NodeId → List α)

/-- Induction over a tree, with a hypothesis for each part. -/
theorem induct {P : Component → Prop} (block : ∀ id, P (.block id))
    (seq : ∀ id elements, (∀ c ∈ elements, P c) → P (.seq id elements))
    (fork : ∀ id cond cases, (∀ c ∈ cases, P c) → P (.fork id cond cases))
    (loop : ∀ id start cond body update after, P start → P body → P update →
      P (.loop id start cond body update after)) (c : Component) : P c :=
  Component.rec (motive_1 := P) (motive_2 := fun cs => ∀ c ∈ cs, P c) block seq fork loop
    (fun _ h => nomatch h)
    (fun _ _ hc hcs d hd => (List.mem_cons.mp hd).elim (fun h => h ▸ hc) (hcs d)) c

mutual
def lang : Component → Language α
  | .block id => {code id}
  | .seq _ elements => langAll elements
  | .fork _ cond cases => {code cond} * langCases cases
  | .loop _ start cond body update after =>
    start.lang * ({code cond} * (body.lang * update.lang * {code cond})∗ * {code after})

def langAll : List Component → Language α
  | [] => 1
  | c :: cs => c.lang * langAll cs

def langCases : List Component → Language α
  | [] => 1
  | [c] => c.lang
  | c :: cs => c.lang + langCases cs
end

theorem langCases_cons (c d : Component) (cs : List Component) :
    langCases code (c :: d :: cs) = c.lang code + langCases code (d :: cs) := by
  rw [langCases]
  simp

theorem mem_langCases {w : List α} {cs : List Component} :
    w ∈ langCases code cs ↔ (cs = [] ∧ w = []) ∨ ∃ c ∈ cs, w ∈ c.lang code := by
  induction cs with
  | nil => simp [langCases, Language.mem_one]
  | cons c cs ih =>
    cases cs with
    | nil => simp [langCases]
    | cons d cs =>
      rw [langCases_cons, Language.mem_add, ih]
      simp

theorem langAll_append (cs ds : List Component) :
    langAll code (cs ++ ds) = langAll code cs * langAll code ds := by
  induction cs with
  | nil => rw [List.nil_append, langAll, one_mul]
  | cons c cs ih => rw [List.cons_append, langAll, langAll, ih, mul_assoc]

mutual
theorem lang_congr {code code' : NodeId → List α} : (c : Component) →
    (∀ b ∈ c.blocks, code' b = code b) → c.lang code' = c.lang code
  | .block i, h => by
    rw [lang, lang, h i (by simp [blocks])]
  | .seq _ elements, h => by
    rw [lang, lang, langAll_congr elements h]
  | .fork _ cond cases, h => by
    rw [lang, lang, h cond (by simp [blocks]),
      langCases_congr cases fun b hb => h b (by simp [blocks, hb])]
  | .loop _ start cond body update after, h => by
    rw [lang, lang, h cond (by simp [blocks]), h after (by simp [blocks]),
      lang_congr start fun b hb => h b (by simp [blocks, hb]),
      lang_congr body fun b hb => h b (by simp [blocks, hb]),
      lang_congr update fun b hb => h b (by simp [blocks, hb])]

theorem langAll_congr {code code' : NodeId → List α} : (cs : List Component) →
    (∀ b ∈ blocksAll cs, code' b = code b) → langAll code' cs = langAll code cs
  | [], _ => rfl
  | c :: cs, h => by
    rw [langAll, langAll, lang_congr c fun b hb => h b (by simp [blocksAll, hb]),
      langAll_congr cs fun b hb => h b (by simp [blocksAll, hb])]

theorem langCases_congr {code code' : NodeId → List α} : (cs : List Component) →
    (∀ b ∈ blocksAll cs, code' b = code b) → langCases code' cs = langCases code cs
  | [], _ => rfl
  | [c], h => by
    rw [langCases, langCases, lang_congr c fun b hb => h b (by simp [blocksAll, hb])]
  | c :: d :: cs, h => by
    rw [langCases_cons, langCases_cons, lang_congr c fun b hb => h b (by simp [blocksAll, hb]),
      langCases_congr (d :: cs) fun b hb => h b (by rw [blocksAll, List.mem_append]; exact .inr hb)]
end

/-! ## Walks -/

inductive Reads (next : NodeId → NodeId → Prop) (out : NodeId) : Nat → NodeId → List α → Prop
  | out : Reads next out 0 out []
  | step {n : Nat} {b s : NodeId} {t : List α} (h : next b s) (hs : Reads next out n s t) :
      Reads next out (n + 1) b (code b ++ t)

structure Follows (next : NodeId → NodeId → Prop) (out : NodeId) (succs : List NodeId)
    (c : Component) : Prop where
  nodup : c.ids.Nodup
  out : out ∉ c.blocks
  next : ∀ {b s}, b ∈ c.blocks → (next b s ↔ c.Goes succs b s)

section

variable {code} {next : NodeId → NodeId → Prop} {out id cond after : NodeId} {succs : List NodeId}
  {c start body update : Component} {cs : List Component} {n : Nat} {w t : List α}

/-- What is read from a block of the component goes on where control goes from there. -/
theorem Follows.reads (h : Follows next out succs c) {b : NodeId} (hb : b ∈ c.blocks)
    (hr : Reads code next out n b w) :
    ∃ s m t, c.Goes succs b s ∧ Reads code next out m s t ∧ m < n ∧ w = code b ++ t := by
  cases hr with
  | out => exact absurd hb h.out
  | step hs hr => exact ⟨_, _, _, (h.next hb).mp hs, hr, Nat.lt_succ_self _, rfl⟩

theorem Follows.part (h : Follows next out succs c) {d : Component} {k : List NodeId}
    (hn : d.ids.Nodup) (hsub : ∀ b ∈ d.blocks, b ∈ c.blocks)
    (hgoes : ∀ {b s}, b ∈ d.blocks → (c.Goes succs b s ↔ d.Goes k b s)) :
    Follows next out k d where
  nodup := hn
  out hb := h.out (hsub _ hb)
  next hb := (h.next (hsub _ hb)).trans (hgoes hb)

/-! ### Parts -/

theorem Follows.head (h : Follows next out succs (.seq id (c :: cs))) :
    Follows next out (enterAll cs succs) c := by
  have hn := h.nodup
  rw [ids, List.nodup_cons, ← List.nil_append (c :: cs)] at hn
  refine h.part (middle_nodup hn.2) (fun b hb => by simp [blocks, blocksAll, hb])
    fun {b s} hb => ?_
  rw [Goes, Edge, leaves]
  exact (succsElements_part (l := []) hn.2 (id_mem_ids c) succs).2 b s hb

theorem Follows.tail (h : Follows next out succs (.seq id (c :: cs))) :
    Follows next out succs (.seq id cs) := by
  have hn := h.nodup
  rw [ids, idsAll, List.nodup_cons, List.nodup_append] at hn
  refine h.part ?_ (fun b hb => ?_) fun {b s} hb => ?_
  · rw [ids, List.nodup_cons]
    exact ⟨fun hm => hn.1 (List.mem_append_right _ hm), hn.2.2.1⟩
  · rw [blocks] at hb ⊢
    rw [blocksAll]
    exact List.mem_append_right _ hb
  · rw [blocks] at hb
    have hc : b ∉ c.blocks := fun hm => hn.2.2.2 b (mem_ids_of_mem_blocks hm) b
      (mem_idsAll_of_mem_blocksAll hb) rfl
    exact goes_tail hc

theorem Follows.inCase {l r : List Component} (h : Follows next out succs
    (.fork id cond (l ++ c :: r))) :
    Follows next out succs c := by
  have hn := h.nodup
  rw [ids, List.nodup_cons, List.nodup_cons] at hn
  refine h.part (middle_nodup hn.2.2) (fun b hb => ?_) fun {b s} hb => ?_
  · rw [blocks, blocksAll_append, blocksAll]
    simp [hb]
  · have hb' := mem_ids_of_mem_blocks hb
    have hcond : b ≠ cond := fun he => hn.2.1 (by
      rw [← he, idsAll_append, idsAll]
      simp [hb'])
    rw [Goes, Edge, leaves, edgeCases_iff, List.mem_eraseDups, mem_leavesCases,
      exists_case_iff hn.2.2 hb fun d hd => (Edge.mem d hd).1,
      exists_case_iff hn.2.2 hb fun d hd => mem_blocks_of_mem_leaves d hd]
    simp [Goes, hcond]

section Loop

variable (h : Follows next out succs (.loop id start cond body update after))

include h

theorem Follows.inStart : Follows next out [cond] start := by
  have ha := apart_of_nodup h.nodup
  exact h.part ha.start_nodup (fun b hb => by simp [blocks, hb]) fun hb => ha.goes_start hb

theorem Follows.inBody : Follows next out (update.enter [cond]) body := by
  have ha := apart_of_nodup h.nodup
  exact h.part ha.body_nodup (fun b hb => by simp [blocks, hb]) fun hb => ha.goes_body hb

theorem Follows.inUpdate : Follows next out [cond] update := by
  have ha := apart_of_nodup h.nodup
  exact h.part ha.update_nodup (fun b hb => by simp [blocks, hb]) fun hb => ha.goes_update hb

end Loop

/-- From the condition of a fork control goes into one of the cases. -/
theorem Follows.fork_goes (h : Follows next out succs (.fork id cond cs)) {s : NodeId} :
    (Component.fork id cond cs).Goes succs cond s ↔
      (cs = [] ∧ s ∈ succs) ∨ ∃ c ∈ cs, s ∈ c.enter succs := by
  have hn := h.nodup
  rw [ids, List.nodup_cons, List.nodup_cons] at hn
  have hout : ∀ c ∈ cs, ¬ c.Edge cond s ∧ cond ∉ c.leaves := fun c hc =>
    not_goes (fun hm => hn.2.1 (mem_idsAll_of_mem_blocksAll (mem_blocksAll.mpr ⟨c, hc, hm⟩))) s
  rw [Goes, Edge, leaves, edgeCases_iff, List.mem_eraseDups, mem_leavesCases]
  simp only [mem_enter, true_and]
  constructor
  · rintro ((⟨c, hc, he⟩ | ⟨c, hc, he⟩) | ⟨⟨c, hc, hl⟩ | hnil | ⟨c, hc, he⟩, hs⟩)
    · exact absurd he (hout c hc).1
    · exact .inr ⟨c, hc, .inl he⟩
    · exact absurd hl (hout c hc).2
    · exact .inl ⟨hnil, hs⟩
    · exact .inr ⟨c, hc, .inr ⟨he, hs⟩⟩
  · rintro (⟨hnil, hs⟩ | ⟨c, hc, he | ⟨he, hs⟩⟩)
    · exact .inr ⟨.inr (.inl hnil), hs⟩
    · exact .inl (.inr ⟨c, hc, he⟩)
    · exact .inr ⟨.inr (.inr ⟨c, hc, he⟩), hs⟩

theorem mem_enter_cons {b : NodeId} :
    b ∈ (Component.seq id (c :: cs)).enter succs ↔ b ∈ c.enter (enterAll cs succs) := by
  simp only [mem_enter, mem_enterAll, entry, entryAll, blocks, blocksAll, Option.or_eq_some_iff,
    List.append_eq_nil_iff, entry_eq_none_iff]
  grind

theorem mem_enter_loop {b : NodeId} :
    b ∈ (Component.loop id start cond body update after).enter succs ↔ b ∈ start.enter [cond] := by
  rw [enter, enter, entry]
  cases start.entry <;> simp

/-! ### Every walk reads a text of the component -/

/-- What is read from the start of the component is a text of it and what is read behind it. -/
def Splits (code : NodeId → List α) (next : NodeId → NodeId → Prop) (out : NodeId)
    (c : Component) : Prop :=
  ∀ {succs : List NodeId} {n b w}, Follows next out succs c → b ∈ c.enter succs →
    Reads code next out n b w → ∃ w₁ ∈ c.lang code, ∃ m t, ∃ s ∈ succs,
      Reads code next out m s t ∧ m ≤ n ∧ w = w₁ ++ t

theorem splits_seq (ih : ∀ c ∈ cs, Splits code next out c) : Splits code next out (.seq id cs) := by
  induction cs with
  | nil =>
    intro succs n b w h hb hr
    rw [mem_enter] at hb
    obtain he | ⟨-, hb⟩ := hb
    · cases he
    · exact ⟨[], rfl, n, w, b, hb, hr, Nat.le_refl n, rfl⟩
  | cons c cs ihs =>
    intro succs n b w h hb hr
    obtain ⟨w₁, hw₁, m, t, s, hs, hr₁, hm, rfl⟩ :=
      ih c List.mem_cons_self h.head (mem_enter_cons.mp hb) hr
    obtain ⟨w₂, hw₂, k, t, s, hs, hr₂, hk, rfl⟩ :=
      ihs (fun d hd => ih d (List.mem_cons_of_mem c hd)) h.tail hs hr₁
    exact ⟨w₁ ++ w₂, Language.append_mem_mul hw₁ hw₂, k, t, s, hs, hr₂, Nat.le_trans hk hm,
      (List.append_assoc _ _ _).symm⟩

theorem splits_fork (ih : ∀ c ∈ cs, Splits code next out c) :
    Splits code next out (.fork id cond cs) := by
  intro succs n b w h hb hr
  obtain rfl : cond = b := by simpa [mem_enter, entry, blocks] using hb
  obtain ⟨s, m, t, hgoes, hr₁, hm, rfl⟩ := h.reads (by simp [blocks]) hr
  rcases h.fork_goes.mp hgoes with ⟨rfl, hs⟩ | ⟨c, hc, hs⟩
  · refine ⟨code cond ++ [], Language.append_mem_mul rfl rfl, m, t, s, hs, hr₁, hm.le, ?_⟩
    rw [List.append_nil]
  · obtain ⟨l, r, rfl⟩ := List.append_of_mem hc
    obtain ⟨w₁, hw₁, k, t, s, hs, hr₂, hk, rfl⟩ := ih c hc h.inCase hs hr₁
    exact ⟨code cond ++ w₁,
      Language.append_mem_mul rfl ((mem_langCases code).mpr (.inr ⟨c, hc, hw₁⟩)), k, t, s, hs, hr₂,
      Nat.le_trans hk hm.le, (List.append_assoc _ _ _).symm⟩

def rounds (code : NodeId → List α) (cond : NodeId) (body update : Component) (after : NodeId) :
    Language α :=
  {code cond} * (body.lang code * update.lang code * {code cond})∗ * {code after}

theorem rounds_eq : rounds code cond body update after =
    {code cond} * {code after} +
      {code cond} * body.lang code * update.lang code * rounds code cond body update after := by
  have h := one_add_mul_kstar (a := body.lang code * update.lang code * ({code cond} : Language α))
  calc rounds code cond body update after
      = {code cond} * (1 + body.lang code * update.lang code * {code cond} *
          (body.lang code * update.lang code * {code cond})∗) * {code after} := by rw [h, rounds]
    _ = _ := by simp only [rounds, mul_add, add_mul, mul_one, mul_assoc]

theorem mem_rounds_round {w₁ w₂ w₃ : List α} (h₁ : w₁ ∈ body.lang code)
    (h₂ : w₂ ∈ update.lang code) (h₃ : w₃ ∈ rounds code cond body update after) :
    code cond ++ w₁ ++ w₂ ++ w₃ ∈ rounds code cond body update after := by
  rw [rounds_eq]
  exact .inr (Language.append_mem_mul (Language.append_mem_mul (Language.append_mem_mul rfl h₁) h₂)
    h₃)

/-- The rounds of a loop, from its condition on. The walk gets shorter with every round. -/
theorem splits_rounds (hbody : Splits code next out body) (hupdate : Splits code next out update)
    (h : Follows next out succs (.loop id start cond body update after)) :
    ∀ n w, Reads code next out n cond w → ∃ w₁ ∈ rounds code cond body update after,
      ∃ m t, ∃ s ∈ succs, Reads code next out m s t ∧ m ≤ n ∧ w = w₁ ++ t := by
  intro n
  induction n using Nat.strongRecOn with
  | ind n ihn =>
    intro w hr
    obtain ⟨s, m, t, hgoes, hr₁, hm, rfl⟩ := h.reads (by simp [blocks]) hr
    rcases (apart_of_nodup h.nodup).goes_cond.mp hgoes with hs | rfl
    · obtain ⟨w₁, hw₁, k, t, s, hs, hr₂, hk, rfl⟩ := hbody h.inBody hs hr₁
      obtain ⟨w₂, hw₂, j, t, s, hs, hr₃, hj, rfl⟩ := hupdate h.inUpdate hs hr₂
      obtain rfl := List.mem_singleton.mp hs
      obtain ⟨w₃, hw₃, i, t, e, he, hr₄, hi, rfl⟩ := ihn j (by omega) t hr₃
      exact ⟨code s ++ w₁ ++ w₂ ++ w₃, mem_rounds_round hw₁ hw₂ hw₃, i, t, e, he, hr₄, by omega,
        by simp⟩
    · obtain ⟨e, k, t, hgoes, hr₂, hk, rfl⟩ := h.reads (by simp [blocks]) hr₁
      refine ⟨code cond ++ code s, ?_, k, t, e,
          (apart_of_nodup h.nodup).goes_after.mp hgoes, hr₂, by omega, by simp⟩
      rw [rounds_eq]
      exact .inl (Language.append_mem_mul rfl rfl)

theorem splits (c : Component) : Splits code next out c := by
  induction c using Component.induct with
  | block id =>
    intro succs n b w h hb hr
    obtain rfl : id = b := by simpa [mem_enter, entry, blocks] using hb
    obtain ⟨s, m, t, hgoes, hr₁, hm, rfl⟩ := h.reads (by simp [blocks]) hr
    have hs : s ∈ succs := by simpa [Goes, Edge, leaves] using hgoes
    exact ⟨code id, rfl, m, t, s, hs, hr₁, hm.le, rfl⟩
  | seq id cs ih => exact splits_seq ih
  | fork id cond cs ih => exact splits_fork ih
  | loop id start cond body update after ihs ihb ihu =>
    intro succs n b w h hb hr
    obtain ⟨w₁, hw₁, m, t, s, hs, hr₁, hm, rfl⟩ := ihs h.inStart (mem_enter_loop.mp hb) hr
    obtain rfl := List.mem_singleton.mp hs
    obtain ⟨w₂, hw₂, k, t, s, hs, hr₂, hk, rfl⟩ := splits_rounds ihb ihu h m t hr₁
    exact ⟨w₁ ++ w₂, Language.append_mem_mul hw₁ hw₂, k, t, s, hs, hr₂, Nat.le_trans hk hm,
      (List.append_assoc _ _ _).symm⟩

/-! ### Every text of the component is read along a walk -/

def Joins (code : NodeId → List α) (next : NodeId → NodeId → Prop) (out : NodeId)
    (c : Component) : Prop :=
  ∀ {succs : List NodeId} {w t}, Follows next out succs c → w ∈ c.lang code →
    (∃ s ∈ succs, ∃ n, Reads code next out n s t) →
    ∃ b ∈ c.enter succs, ∃ n, Reads code next out n b (w ++ t)

theorem Follows.step (h : Follows next out succs c) {b s : NodeId} (hb : b ∈ c.blocks)
    (hgoes : c.Goes succs b s) (hr : ∃ n, Reads code next out n s t) :
    ∃ n, Reads code next out n b (code b ++ t) := by
  obtain ⟨n, hr⟩ := hr
  exact ⟨n + 1, .step ((h.next hb).mpr hgoes) hr⟩

theorem joins_seq (ih : ∀ c ∈ cs, Joins code next out c) : Joins code next out (.seq id cs) := by
  induction cs with
  | nil =>
    rintro succs w t h rfl ⟨s, hs, hr⟩
    exact ⟨s, mem_enter.mpr (.inr ⟨rfl, hs⟩), hr⟩
  | cons c cs ihs =>
    intro succs w t h hw ht
    obtain ⟨w₁, hw₁, w₂, hw₂, rfl⟩ := Language.mem_mul.mp hw
    have hreads := ihs (fun d hd => ih d (List.mem_cons_of_mem c hd)) h.tail hw₂ ht
    obtain ⟨b, hb, hr⟩ := ih c List.mem_cons_self h.head hw₁ hreads
    exact ⟨b, mem_enter_cons.mpr hb, by rwa [List.append_assoc]⟩

theorem joins_fork (ih : ∀ c ∈ cs, Joins code next out c) :
    Joins code next out (.fork id cond cs) := by
  intro succs w t h hw ht
  obtain ⟨_, rfl, w, hw₁, rfl⟩ := Language.mem_mul.mp hw
  refine ⟨cond, mem_enter.mpr (.inl rfl), ?_⟩
  rw [List.append_assoc]
  rcases (mem_langCases code).mp hw₁ with ⟨rfl, rfl⟩ | ⟨c, hc, hw₂⟩
  · obtain ⟨s, hs, hr⟩ := ht
    exact h.step (by simp [blocks]) (h.fork_goes.mpr (.inl ⟨rfl, hs⟩)) hr
  · obtain ⟨l, r, rfl⟩ := List.append_of_mem hc
    obtain ⟨s, hs, hr⟩ := ih c hc h.inCase hw₂ ht
    exact h.step (by simp [blocks]) (h.fork_goes.mpr (.inr ⟨c, hc, hs⟩)) hr

theorem joins_rounds (hbody : Joins code next out body) (hupdate : Joins code next out update)
    (h : Follows next out succs (.loop id start cond body update after))
    (ht : ∃ s ∈ succs, ∃ n, Reads code next out n s t) {w : List α}
    (hw : w ∈ rounds code cond body update after) : ∃ n, Reads code next out n cond (w ++ t) := by
  obtain ⟨_, ⟨_, rfl, _, hrounds, rfl⟩, _, rfl, rfl⟩ := hw
  obtain ⟨L, rfl, hL⟩ := Language.mem_kstar.mp hrounds
  clear hrounds
  simp only [List.append_assoc]
  induction L with
  | nil =>
    obtain ⟨s, hs, hr⟩ := ht
    refine h.step (by simp [blocks]) ((apart_of_nodup h.nodup).goes_cond.mpr (.inr rfl)) ?_
    exact h.step (by simp [blocks]) ((apart_of_nodup h.nodup).goes_after.mpr hs) hr
  | cons y L ih =>
    obtain ⟨_, ⟨w₁, hw₁, w₂, hw₂, rfl⟩, _, rfl, rfl⟩ := hL y List.mem_cons_self
    have hrest := ih fun z hz => hL z (List.mem_cons_of_mem _ hz)
    have hupdate := hupdate h.inUpdate hw₂ ⟨cond, List.mem_singleton_self _, hrest⟩
    obtain ⟨b, hb, hr⟩ := hbody h.inBody hw₁ hupdate
    have hcond := h.step (by simp [blocks]) ((apart_of_nodup h.nodup).goes_cond.mpr (.inl hb)) hr
    simpa using hcond

theorem joins (c : Component) : Joins code next out c := by
  induction c using Component.induct with
  | block id =>
    rintro succs w t h rfl ⟨s, hs, hr⟩
    exact ⟨id, mem_enter.mpr (.inl rfl), h.step (by simp [blocks]) (.inr ⟨by simp [leaves], hs⟩) hr⟩
  | seq id cs ih => exact joins_seq ih
  | fork id cond cs ih => exact joins_fork ih
  | loop id start cond body update after ihs ihb ihu =>
    intro succs w t h hw ht
    obtain ⟨w₁, hw₁, w₂, hw₂, rfl⟩ := Language.mem_mul.mp hw
    have hrounds := joins_rounds ihb ihu h ht hw₂
    obtain ⟨b, hb, hr⟩ := ihs h.inStart hw₁ ⟨cond, List.mem_singleton_self _, hrounds⟩
    refine ⟨b, mem_enter_loop.mpr hb, by rwa [List.append_assoc]⟩

/-- The texts of a tree are those read from its start until control leaves it. -/
theorem mem_lang_iff (hn : c.ids.Nodup) (hout : out ∉ c.blocks) {w : List α} :
    w ∈ c.lang code ↔ ∃ b ∈ c.enter [out], ∃ n, Reads code (c.Goes [out]) out n b w := by
  have h : Follows (c.Goes [out]) out [out] c := ⟨hn, hout, fun _ => Iff.rfl⟩
  constructor
  · intro hw
    have hr := joins c h hw ⟨out, List.mem_singleton_self _, 0, .out⟩
    simpa using hr
  · rintro ⟨b, hb, n, hr⟩
    obtain ⟨w₁, hw₁, m, t, s, hs, hr₁, -, rfl⟩ := splits c h hb hr
    obtain rfl := List.mem_singleton.mp hs
    cases hr₁ with
    | out => rwa [List.append_nil]
    | step hgoes _ =>
      obtain ⟨he, hl⟩ := not_goes hout _
      exact absurd hgoes (not_or.mpr ⟨he, fun h => hl h.1⟩)

end

end DefFlow.Flow.Component
