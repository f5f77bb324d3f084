import DefFlow.Proofs.Editor.SemanticWalk
import DefFlow.Proofs.Syntax.Yield
import Mathlib.Data.Option.Basic

/-!
# Semantic tokens are read back

Main statement: the semantic tokens of a text that parses go strictly forward and do not overlap, so
their numbers are read back to them.
-/

set_option autoImplicit false

namespace DefFlow.Editor.SemanticToken

open Syntax

/-! ## Reading the numbers back -/

/-- The tokens that some numbers behind a place tell. Lines and characters are added up as they are:
a sum beyond 32 bits tells nothing. -/
def decodeFrom (line start : Nat) : List UInt32 → Option (List SemanticToken)
  | [] => some []
  | deltaLine :: deltaStart :: length :: kind :: modifiers :: rest => do
    let line := line + deltaLine.toNat
    let start := if deltaLine = 0 then start + deltaStart.toNat else deltaStart.toNat
    guard (line < UInt32.size ∧ start < UInt32.size)
    let kind ← TokenClass.all[kind.toNat]?
    let rest ← decodeFrom line start rest
    return ⟨UInt32.ofNat line, UInt32.ofNat start, length, kind, modifiers &&& 1 ≠ 0⟩ :: rest
  | _ => none

def decode (numbers : List UInt32) : Option (List SemanticToken) := decodeFrom 0 0 numbers

def Precedes (t u : SemanticToken) : Prop :=
  t.line < u.line ∨ t.line = u.line ∧ t.start < u.start ∧
    t.start.toNat + t.length.toNat ≤ u.start.toNat

theorem getElem?_index (c : TokenClass) :
    TokenClass.all[(UInt32.ofNat c.index).toNat]? = some c := by
  cases c <;> rfl

/-- A difference of numbers in their order does not wrap around. -/
theorem toNat_add_sub {a b : UInt32} (h : a ≤ b) : a.toNat + (b - a).toNat = b.toNat := by
  rw [UInt32.toNat_sub_of_le b a h]
  exact Nat.add_sub_cancel' (UInt32.le_iff_toNat_le.mp h)

theorem sub_eq_zero_iff {a b : UInt32} (h : a ≤ b) : b - a = 0 ↔ a = b := by
  have hsum := toNat_add_sub h
  constructor
  · intro hzero
    rw [hzero] at hsum
    exact UInt32.toNat_inj.mp hsum
  · rintro rfl
    exact UInt32.sub_self a

/-- The tokens behind a place are told by the differences. -/
theorem decodeFrom_encodeFrom : ∀ {ts : List SemanticToken} (line start : UInt32),
    (∀ t ∈ ts, line < t.line ∨ line = t.line ∧ start ≤ t.start) → ts.Pairwise Precedes →
      decodeFrom line.toNat start.toNat (encodeFrom line start ts) = some ts
  | [], _, _, _, _ => rfl
  | t :: ts, line, start, hplace, hts => by
    obtain ⟨hnext, hts⟩ := List.pairwise_cons.mp hts
    have hrest := decodeFrom_encodeFrom t.line t.start
      (fun u hu => (hnext u hu).imp_right fun h => ⟨h.1, UInt32.le_of_lt h.2.1⟩) hts
    have hhead := hplace t List.mem_cons_self
    have hle : line ≤ t.line := hhead.elim UInt32.le_of_lt fun h => UInt32.le_of_eq h.1
    have hline := toNat_add_sub hle
    have hsame := sub_eq_zero_iff hle
    have hstart : (if t.line - line = 0 then start.toNat +
        (if t.line - line = 0 then t.start - start else t.start).toNat else
        (if t.line - line = 0 then t.start - start else t.start).toNat) = t.start.toNat := by
      by_cases h : line = t.line
      · have hle : start ≤ t.start := hhead.elim
          (fun hlt => absurd h (UInt32.ne_of_lt hlt)) And.right
        rw [if_pos (hsame.mpr h), if_pos (hsame.mpr h), toNat_add_sub hle]
      · rw [if_neg (mt hsame.mp h), if_neg (mt hsame.mp h)]
    have hdeclares : decide ((if t.declares then (1 : UInt32) else 0) &&& 1 ≠ 0) = t.declares := by
      cases t.declares <;> rfl
    have hbounds :
        (guard (t.line.toNat < UInt32.size ∧ t.start.toNat < UInt32.size) : Option Unit) =
        some () := if_pos ⟨t.line.toNat_lt_size, t.start.toNat_lt_size⟩
    simp only [encodeFrom, List.cons_append, List.nil_append, decodeFrom]
    rw [hline, hstart, hbounds, getElem?_index, hrest]
    simp only [hdeclares, UInt32.ofNat_toNat]
    rfl

theorem decode_encode {ts : List SemanticToken} (h : ts.Pairwise Precedes) :
    decode (encode ts) = some ts := by
  refine decodeFrom_encodeFrom 0 0 (fun t _ => ?_) h
  by_cases hline : t.line = 0
  · exact .inr ⟨hline.symm, UInt32.zero_le⟩
  · exact .inl (UInt32.pos_iff_ne_zero.mpr hline)

/-! ## The tokens of a text that parses -/

/-- Counted from zero, the places where the tokens of the text start take up 32 bits. -/
def Fits (source : String) : Prop :=
  ∀ s, scan source = .ok s → ∀ t ∈ s.tokens,
    t.start.line ≤ UInt32.size ∧ t.start.column ≤ UInt32.size

theorem fits_of_length {source : String} (h : source.length < UInt32.size) : Fits source := by
  intro s hscan t ht
  obtain ⟨n, hn⟩ := (cuts_of_scanFrom hscan).start t ht
  obtain ⟨hline, hcolumn⟩ := Position.start.advance_le (source.toList.take n)
  have hlen : (source.toList.take n).length ≤ source.length := by
    rw [List.length_take, String.length_toList]
    exact Nat.min_le_right _ _
  rw [hn]
  simp only [Position.start] at hline hcolumn ⊢
  omega

structure InRange (u : Token) : Prop where
  placed : u.Placed
  line_pos : 0 < u.start.line
  column_pos : 0 < u.start.column
  line_le : u.start.line ≤ UInt32.size
  column_le : u.start.column ≤ UInt32.size

theorem toNat_pred {n : Nat} (h : 0 < n) (hle : n ≤ UInt32.size) :
    (UInt32.ofNat (n - 1)).toNat = n - 1 :=
  UInt32.toNat_ofNat_of_lt (Nat.lt_of_lt_of_le (Nat.sub_one_lt_of_lt h) hle)

/-- What lies on tokens one behind the other follows each other. -/
theorem LiesOn.precedes {u v : Token} {t t' : SemanticToken} (h : LiesOn u t) (h' : LiesOn v t')
    (hu : InRange u) (hv : InRange v) (huv : u.Precedes v) : Precedes t t' := by
  have hline := (congrArg UInt32.toNat h.line).trans (toNat_pred hu.line_pos hu.line_le)
  have hline' := (congrArg UInt32.toNat h'.line).trans (toNat_pred hv.line_pos hv.line_le)
  have hstart := (congrArg UInt32.toNat h.start).trans (toNat_pred hu.column_pos hu.column_le)
  have hstart' := (congrArg UInt32.toNat h'.start).trans (toNat_pred hv.column_pos hv.column_le)
  have hpos := hu.line_pos
  have hcolumn := hu.column_pos
  obtain ⟨hleads, hcomment⟩ := huv
  rw [Position.Leads, hu.placed.line] at hleads
  rcases hleads with hlt | ⟨hsame, hle⟩
  · refine .inl (UInt32.lt_iff_toNat_lt.mpr ?_)
    omega
  · -- on one line, the first token is no comment
    have hwidth := h.width.resolve_left fun hc => by
      have := hcomment hc
      omega
    have hnonempty := hu.placed.nonempty
    refine .inr ⟨UInt32.toNat_inj.mp ?_, UInt32.lt_iff_toNat_lt.mpr ?_, ?_⟩ <;> omega

theorem LieOn.pairwise {us : List Token} {ts : List SemanticToken} (h : LieOn us ts)
    (hrange : ∀ u ∈ us, InRange u) (hus : us.Pairwise Token.Precedes) :
    ts.Pairwise Precedes := by
  obtain ⟨vs, hsub, hall⟩ := h
  replace hus := hus.sublist hsub
  replace hrange : ∀ v ∈ vs, InRange v := fun v hv => hrange v (hsub.subset hv)
  clear hsub
  induction hall with
  | nil => exact .nil
  | @cons v t vs ts hv hall ih =>
    obtain ⟨hrv, hrvs⟩ := List.forall_mem_cons.mp hrange
    obtain ⟨hvus, hvs⟩ := List.pairwise_cons.mp hus
    refine List.pairwise_cons.mpr ⟨fun t' ht' => ?_, ih hvs hrvs⟩
    obtain ⟨i, hi, rfl⟩ := List.mem_iff_getElem.mp ht'
    have hlen := hall.length_eq
    have hi' := hall.get (hlen ▸ hi) hi
    exact hv.precedes hi' hrv (hrvs _ (List.get_mem _ _)) (hvus _ (List.get_mem _ _))

theorem collect_of_pairwise {f : File} (h : (f.elements.flatMap ofElement).Pairwise Precedes) :
    collect f = f.elements.flatMap ofElement := by
  refine List.mergeSort_of_pairwise (h.imp fun {t u} htu => ?_)
  have hnot : before u t = false := by
    rcases htu with hlt | ⟨hsame, hlt, -⟩
    · rw [before, if_pos (UInt32.ne_of_lt hlt).symm]
      exact decide_eq_false (UInt32.lt_asymm hlt)
    · rw [before, if_neg (not_not_intro hsame.symm)]
      exact decide_eq_false (UInt32.lt_asymm hlt)
  rw [hnot]
  rfl

theorem collect_pairwise {source : String} {f : File} (hparse : parse source = .ok f)
    (hfits : Fits source) : (collect f).Pairwise Precedes := by
  rw [parse] at hparse
  split at hparse
  · cases hparse
  · next s hscan =>
    have hok := parseTokens_run hparse
    have hcuts := cuts_of_scanFrom hscan
    have hready : Ready ⟨s.tokens, s.endToken, 0, .start, 0, none⟩ := ⟨hcuts.placed, rfl⟩
    have hdraws := draws_file (s.tokens.length + 1) _ hready
    rcases hrun : (Grammar.file (s.tokens.length + 1)).run
      ⟨s.tokens, s.endToken, 0, .start, 0, none⟩ with ⟨o, b⟩
    rw [hrun] at hok hdraws
    subst hok
    obtain ⟨us, hpast, hlie⟩ := hdraws
    have hsub : us.Sublist s.tokens := List.IsPrefix.sublist ⟨b.rest, hpast.1.symm⟩
    have hall := hlie.pairwise (fun u hu => ?_) (hcuts.ordered.sublist hsub)
    · rwa [collect_of_pairwise hall]
    · have hmem := hsub.subset hu
      obtain ⟨hline, hcolumn⟩ := hfits s hscan u hmem
      obtain ⟨n, hn⟩ := hcuts.start u hmem
      obtain ⟨hline_pos, hcolumn_pos⟩ := Position.start.advance_pos Nat.one_pos Nat.one_pos
        (source.toList.take n)
      rw [← hn] at hline_pos hcolumn_pos
      exact ⟨hcuts.placed u hmem, hline_pos, hcolumn_pos, hline, hcolumn⟩

/-- The semantic tokens of a text that parses go strictly forward, no two on one line overlap, and
they are told by their numbers, where no sum leaves 32 bits. -/
theorem collect_reads_back {source : String} {f : File} (hparse : parse source = .ok f)
    (hfits : Fits source) :
    (collect f).Pairwise (fun t u => t.line < u.line ∨ t.line = u.line ∧ t.start < u.start) ∧
    (collect f).Pairwise
      (fun t u => t.line = u.line → t.start.toNat + t.length.toNat ≤ u.start.toNat) ∧
    decode (encode (collect f)) = some (collect f) := by
  have hall := collect_pairwise hparse hfits
  refine ⟨hall.imp fun h => h.imp_right fun h => ⟨h.1, h.2.1⟩, hall.imp fun h hline => ?_,
    decode_encode hall⟩
  rcases h with hlt | ⟨-, -, hle⟩
  · exact absurd hline (UInt32.ne_of_lt hlt)
  · exact hle

/-- A comment has more bytes than characters, and words of the grammar stand between quotes. -/
def quotedWords : String :=
  "// größer\n\"func\" f(a: int) \x7b\n  x = copy \"true\", a; // =\n\x7d"

theorem collect_reads_back_quotedWords : ∃ f, parse quotedWords = .ok f ∧ Fits quotedWords ∧
    (collect f).Pairwise (fun t u => t.line < u.line ∨ t.line = u.line ∧ t.start < u.start) ∧
    (collect f).Pairwise
      (fun t u => t.line = u.line → t.start.toNat + t.length.toNat ≤ u.start.toNat) ∧
    decode (encode (collect f)) = some (collect f) := by
  have hfits : Fits quotedWords := fits_of_length (by decide +kernel)
  have hparses : (parse quotedWords).toOption.isSome = true := by decide +kernel
  cases hparse : parse quotedWords with
  | error e =>
    rw [hparse] at hparses
    cases hparses
  | ok f => exact ⟨f, rfl, hfits, collect_reads_back hparse hfits⟩

end DefFlow.Editor.SemanticToken
