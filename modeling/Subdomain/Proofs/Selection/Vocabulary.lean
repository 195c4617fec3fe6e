import Subdomain.Proofs.Predicate.Shape
import Subdomain.Selection.Token

/-!
# Predicates in the language of selections

The two languages cut the same text into different tokens: a sign in front of a
letter takes that letter in a selection, and has it as the next token in a
predicate. All the same a text with the tokens of a predicate has tokens in a
selection (`scannable_of_predicate`). Only letters are cut off from a name by a
sign, and what is left of it is a name again.
-/

namespace Subdomain

namespace Selection

open Lexical Pattern

/-- The tokens that both languages spell the same. -/
def signs : List (List Char) :=
  ["|", "&", "~", "<", "<=", ">", ">=", "==", "!=", "+", "-", "*", "/", "**", "(", ")"].map
    String.toList

/-- A sign and a letter. -/
def operatorPattern : Pattern :=
  seq (one fun c => c == '-' || c == '+' || c == '*') (one Char.isAlpha)

/-- A region by its name. -/
def referencePattern : Pattern := seq (word "r.") name

/-! ## Numbers -/

theorem matches_number_iff {s : List Char} :
    Matches Predicate.numberPattern s ↔ Matches digits s ∨ Matches floatPattern s := by
  simp only [Predicate.numberPattern, floatPattern, matches_alt_iff, matches_seq_iff,
    matches_opt_iff]
  constructor
  · rintro (⟨a, _, rfl, ha, b, e, rfl, hb, he⟩ | ⟨a, _, rfl, ha, b, e, rfl, hb, he⟩)
    · rcases hb with rfl | ⟨c, d, rfl, hc, hd⟩
      · rcases he with rfl | he
        · exact .inl (by simpa using ha)
        · exact .inr (.inr ⟨a, e, rfl, ha, he⟩)
      · exact .inr (.inl ⟨a ++ (c ++ d), e, by simp, .inl ⟨a, _, rfl, ha, c, d, rfl, hc, hd⟩, he⟩)
    · exact .inr (.inl ⟨a ++ b, e, by simp, .inr ⟨a, b, rfl, ha, hb⟩, he⟩)
  · rintro (h | ⟨_, e, rfl, ⟨a, _, rfl, ha, c, d, rfl, hc, hd⟩ | ⟨a, b, rfl, ha, hb⟩, he⟩ |
      ⟨a, e, rfl, ha, he⟩)
    · exact .inl ⟨s, [], by simp, h, [], [], rfl, .inl rfl, .inl rfl⟩
    · exact .inl ⟨a, c ++ d ++ e, by simp, ha, c ++ d, e, rfl, .inr ⟨c, d, rfl, hc, hd⟩, he⟩
    · exact .inr ⟨a, b ++ e, by simp, ha, b, e, rfl, hb, he⟩
    · exact .inl ⟨a, e, rfl, ha, [], e, rfl, .inl rfl, .inr he⟩

theorem exists_cons_of_digits {s : List Char} (h : Matches digits s) :
    ∃ c t, s = c :: t ∧ c.isDigit = true := by
  obtain ⟨hne, hall⟩ := matches_digits_iff.1 h
  cases s with
  | nil => exact absurd rfl hne
  | cons c t => exact ⟨c, t, rfl, hall c (.head _)⟩

/-- A number begins with a digit, or with a point in front of one. -/
theorem head_of_number {s : List Char} (h : Matches Predicate.numberPattern s) :
    ∃ c t, s = c :: t ∧ (c.isDigit = true ∨ c = '.' ∧ ∃ d u, t = d :: u ∧ d.isDigit = true) := by
  rcases matches_alt_iff.1 h with h | h
  · obtain ⟨a, b, rfl, ha, -⟩ := matches_seq_iff.1 h
    obtain ⟨c, t, rfl, hc⟩ := exists_cons_of_digits ha
    exact ⟨c, _, rfl, .inl hc⟩
  · obtain ⟨p, b, rfl, hp, h⟩ := matches_seq_iff.1 h
    obtain ⟨a, e, rfl, ha, -⟩ := matches_seq_iff.1 h
    cases matches_char_iff.1 hp
    obtain ⟨d, t, rfl, hd⟩ := exists_cons_of_digits ha
    exact ⟨'.', _, rfl, .inr ⟨rfl, d, _, rfl, hd⟩⟩

/-! ## Rules -/

def keywords : List (List Char) :=
  ["all", "copy", "vertex", "vertices", "cell", "element", "cells", "elements", "in", "of", "by",
    "surface", "group", "set"].map String.toList

theorem matches_name_of_mem_keywords {s : List Char} (h : s ∈ keywords) : Matches name s := by
  have hall : ∀ w ∈ keywords, name.longest w = some w.length := by decide +kernel
  exact matches_iff_longest.2 (hall s h)

/-- The rules in front of those of numbers match words and references. -/
theorem of_matches_words {r : Word × Pattern} (hr : r ∈ rules.take 14) {s : List Char}
    (h : Matches r.2 s) : Matches name s ∨ Matches referencePattern s := by
  simp only [rules, List.take_succ_cons, List.take_zero, List.mem_cons, List.not_mem_nil,
    or_false] at hr
  rcases hr with rfl | rfl | rfl | rfl | rfl | rfl | rfl | rfl | rfl | rfl | rfl | rfl | rfl | rfl
  iterate 12
    · refine .inl (matches_name_of_mem_keywords ?_)
      simp only [matches_any_iff, matches_word_iff, List.mem_cons, List.not_mem_nil, or_false,
        exists_eq_or_imp, exists_eq_left] at h
      rcases h with rfl | rfl <;> decide
  · exact .inr h
  · exact .inl h

/-- What the rules of selections match. -/
theorem of_matches {r : Word × Pattern} (hr : r ∈ rules) {s : List Char} (h : Matches r.2 s) :
    Matches name s ∨ Matches referencePattern s ∨ Matches Predicate.numberPattern s ∨
      Matches operatorPattern s ∨ s ∈ signs ∨ s = ['['] ∨ s = [']'] ∨ s = [','] := by
  rw [← List.take_append_drop 14 rules] at hr
  rcases List.mem_append.1 hr with hr | hr
  · exact (of_matches_words hr h).imp_right .inl
  simp only [rules, List.drop_succ_cons, List.drop_zero, List.mem_cons, List.not_mem_nil,
    or_false] at hr
  rcases hr with rfl | rfl | rfl | rfl | rfl | rfl | rfl | rfl | rfl | rfl | rfl | rfl | rfl | rfl |
    rfl
  · exact .inr (.inr (.inl (matches_number_iff.2 (.inl h))))
  · exact .inr (.inr (.inl (matches_number_iff.2 (.inr h))))
  · exact .inr (.inr (.inr (.inl h)))
  all_goals
    refine .inr (.inr (.inr (.inr ?_)))
    simp only [matches_any_iff, matches_word_iff, matches_char_iff, List.mem_cons, List.not_mem_nil,
      or_false, exists_eq_or_imp, exists_eq_left] at h
    rcases h with rfl | rfl | rfl | rfl | rfl | rfl | rfl | rfl <;> decide

def predicateWords : List (List Char) :=
  ["or", "and", "not", "True", "true", "False", "false"].map String.toList

/-- What the rules of predicates match. Their keywords are made of letters. -/
theorem of_predicate_first {k : Predicate.Word} {w : List Char}
    (h : First w Predicate.rules k) :
    (Matches name w ∧ (k = .identifier ∨ ∀ c ∈ w, c.isAlpha = true)) ∨
      Matches Predicate.numberPattern w ∨ w ∈ signs := by
  obtain ⟨p, hp, hw⟩ := h.exists_mem
  have hword : w ∈ predicateWords → Matches name w ∧ ∀ c ∈ w, c.isAlpha = true := by
    have hall : ∀ v ∈ predicateWords,
        name.longest v = some v.length ∧ v.all Char.isAlpha = true := by decide +kernel
    exact fun hmem => ⟨matches_iff_longest.2 (hall w hmem).1, List.all_eq_true.1 (hall w hmem).2⟩
  simp only [Predicate.rules, List.mem_cons, List.not_mem_nil, or_false, Prod.mk.injEq] at hp
  rcases hp with ⟨rfl, rfl⟩ | ⟨rfl, rfl⟩ | ⟨rfl, rfl⟩ | ⟨rfl, rfl⟩ | ⟨rfl, rfl⟩ | ⟨rfl, rfl⟩ |
    ⟨rfl, rfl⟩ | ⟨rfl, rfl⟩ | ⟨rfl, rfl⟩ | ⟨rfl, rfl⟩ | ⟨rfl, rfl⟩ | ⟨rfl, rfl⟩ | ⟨rfl, rfl⟩ |
    ⟨rfl, rfl⟩ | ⟨rfl, rfl⟩ | ⟨rfl, rfl⟩ | ⟨rfl, rfl⟩ | ⟨rfl, rfl⟩ | ⟨rfl, rfl⟩ | ⟨rfl, rfl⟩
  case inr.inr.inr.inr.inr.inl => exact .inl ⟨hw, .inl rfl⟩
  case inr.inr.inr.inr.inr.inr.inl => exact .inr (.inl hw)
  all_goals
    simp only [matches_any_iff, matches_word_iff, matches_char_iff, List.mem_cons, List.not_mem_nil,
      or_false, exists_eq_or_imp, exists_eq_left] at hw
    rcases hw with rfl | rfl
  all_goals first
    | exact .inr (.inr (by decide))
    | exact .inl ((hword (by decide)).imp_right .inr)

/-- Both languages have a rule for each of the common signs. -/
theorem exists_rule_of_mem_signs {w : List Char} (h : w ∈ signs) :
    (∃ r ∈ rules, Matches r.2 w) ∧ ∃ r ∈ Predicate.rules, Matches r.2 w := by
  have hall : ∀ v ∈ signs, (rules.any fun r => r.2.longest v = some v.length) = true ∧
      (Predicate.rules.any fun r => r.2.longest v = some v.length) = true := by decide +kernel
  simpa [matches_iff_longest] using hall w h

theorem of_mem_signs {w : List Char} (h : w ∈ signs) : w ≠ [] ∧ ∀ c ∈ w, isNameStart c = false ∧
    c.isDigit = false ∧ c ≠ '.' ∧ c ≠ '[' ∧ c ≠ ']' ∧ c ≠ ',' := by
  have hall : ∀ v ∈ signs, v ≠ [] ∧ (v.all fun c => isNameStart c = false ∧ c.isDigit = false ∧
      c ≠ '.' ∧ c ≠ '[' ∧ c ≠ ']' ∧ c ≠ ',') = true := by decide +kernel
  simpa using hall w h

/-! ## Characters -/

theorem isNameStart_of_isAlpha {c : Char} (h : c.isAlpha = true) : isNameStart c = true := by
  rw [isNameStart, h, Bool.true_or]

theorem not_isNameStart_of_isDigit {c : Char} (h : c.isDigit = true) : isNameStart c = false := by
  have hne : c ≠ '_' := by
    rintro rfl
    cases h
  have hd : c.val ≤ '9'.val := of_decide_eq_true (Bool.and_eq_true_iff.1 h).2
  have hbelow {a : UInt32} (ha : '9'.val < a) : ¬ c.val ≥ a :=
    UInt32.not_le.2 (UInt32.lt_of_le_of_lt hd ha)
  have hupper : c.isUpper = false := decide_eq_false fun h => hbelow (by decide) h.1
  have hlower : c.isLower = false :=
    Bool.and_eq_false_iff.2 (.inl (decide_eq_false (hbelow (by decide))))
  rw [isNameStart, show c.isAlpha = false from Bool.or_eq_false_iff.2 ⟨hupper, hlower⟩,
    beq_false_of_ne hne, Bool.or_false]

theorem not_isBlank_of {p : Char → Bool} {c : Char} (h : p c = true)
    (hp : [' ', '\t', '\r', '\n'].all (!p ·) = true) : isBlank c = false := by
  refine Bool.eq_false_iff.2 fun hb => ?_
  have hmem : c ∈ [' ', '\t', '\r', '\n'] := by simpa [isBlank, or_assoc] using hb
  have hnot := List.all_eq_true.1 hp c hmem
  rw [h] at hnot
  cases hnot

theorem not_isBlank_of_isAlpha {c : Char} (h : c.isAlpha = true) : isBlank c = false :=
  not_isBlank_of h (by decide)

/-! ## Rules by their first character -/

section

variable {r : Word × Pattern} {c : Char} {s : List Char}

theorem head_of_operator (h : Matches operatorPattern (c :: s)) :
    isNameStart c = false ∧ c.isDigit = false ∧ c ≠ '.' ∧ ∃ d, s = [d] ∧ d.isAlpha = true := by
  obtain ⟨a, b, he, ha, hb⟩ := matches_seq_iff.1 h
  obtain ⟨e, hsign, rfl⟩ := matches_one_iff.1 ha
  obtain ⟨d, hd, rfl⟩ := matches_one_iff.1 hb
  cases he
  simp only [Bool.or_eq_true, beq_iff_eq] at hsign
  refine ⟨?_, ?_, ?_, d, rfl, hd⟩
  all_goals rcases hsign with (rfl | rfl) | rfl <;> decide

theorem head_of_reference (h : Matches referencePattern (c :: s)) :
    c = 'r' ∧ ∃ d t, s = '.' :: d :: t ∧ isNameStart d = true := by
  obtain ⟨a, b, he, ha, hb⟩ := matches_seq_iff.1 h
  cases matches_word_iff.1 ha
  obtain ⟨d, t, rfl, hd, -⟩ := matches_name_iff.1 hb
  cases he
  exact ⟨rfl, d, t, rfl, hd⟩

/-- What begins like a name is a name or a reference. -/
theorem matches_of_isNameStart (hr : r ∈ rules) (h : Matches r.2 (c :: s))
    (hc : isNameStart c = true) : (∀ d ∈ s, isNameRest d = true) ∨
      ∃ d t, s = '.' :: d :: t ∧ isNameStart d = true := by
  rcases of_matches hr h with h | h | h | h | h | h | h | h
  · obtain ⟨_, _, he, -, hall⟩ := matches_name_iff.1 h
    cases he
    exact .inl hall
  · exact .inr (head_of_reference h).2
  · obtain ⟨_, _, he, hd⟩ := head_of_number h
    cases he
    rcases hd with hd | ⟨rfl, -⟩
    · cases (not_isNameStart_of_isDigit hd).symm.trans hc
    · cases hc
  · cases (head_of_operator h).1.symm.trans hc
  · cases ((of_mem_signs h).2 c (.head _)).1.symm.trans hc
  all_goals
    cases h
    cases hc

/-- What begins with a digit or a point is a number. -/
theorem matches_of_isDigit (hr : r ∈ rules) (h : Matches r.2 (c :: s))
    (hc : c.isDigit = true ∨ c = '.') : Matches Predicate.numberPattern (c :: s) := by
  have hstart : isNameStart c = false := by
    rcases hc with hc | rfl
    · exact not_isNameStart_of_isDigit hc
    · decide
  rcases of_matches hr h with h | h | h | h | h | h | h | h
  · obtain ⟨_, _, he, hc', -⟩ := matches_name_iff.1 h
    cases he
    cases hstart.symm.trans hc'
  · obtain ⟨rfl, -⟩ := head_of_reference h
    cases hstart
  · exact h
  · obtain ⟨-, hd, hp, -⟩ := head_of_operator h
    rcases hc with hc | hc
    · cases hd.symm.trans hc
    · exact absurd hc hp
  · obtain ⟨-, hd, hp, -⟩ := (of_mem_signs h).2 c (.head _)
    rcases hc with hc | hc
    · cases hd.symm.trans hc
    · exact absurd hc hp
  all_goals
    cases h
    rcases hc with hc | hc <;> cases hc

/-- What begins like a sign is a sign, or an operator with a letter. -/
theorem matches_of_sign (hr : r ∈ rules) (h : Matches r.2 (c :: s)) {w : List Char}
    (hw : c :: w ∈ signs) : c :: s ∈ signs ∨ ∃ d, s = [d] ∧ d.isAlpha = true := by
  obtain ⟨hstart, hd, hp, ho, hcl, hcomma⟩ := (of_mem_signs hw).2 c (.head _)
  rcases of_matches hr h with h | h | h | h | h | h | h | h
  · obtain ⟨_, _, he, hc, -⟩ := matches_name_iff.1 h
    cases he
    cases hstart.symm.trans hc
  · obtain ⟨rfl, -⟩ := head_of_reference h
    cases hstart
  · obtain ⟨_, _, he, hc | ⟨rfl, -⟩⟩ := head_of_number h
    · cases he
      cases hd.symm.trans hc
    · cases he
      exact absurd rfl hp
  · exact .inr (head_of_operator h).2.2.2
  · exact .inl h
  · cases h
    exact absurd rfl ho
  · cases h
    exact absurd rfl hcl
  · cases h
    exact absurd rfl hcomma

end

/-! ## Texts that have tokens -/

/-- The text has tokens in a selection. -/
def Scannable (s : List Char) : Prop := ∃ ts, Scans rules 0 s ts

theorem Scannable.scans {s : List Char} (h : Scannable s) (n : Nat) : ∃ ts, Scans rules n s ts := by
  obtain ⟨ts, h⟩ := h
  exact ⟨_, h.move n⟩

theorem scannable_nil : Scannable [] := ⟨[], .done 0⟩

/-- A text goes on behind its first token, which is no shorter than any match. -/
theorem scannable_of_match {c : Char} {s w : List Char} {r : Word × Pattern}
    (hc : isBlank c = false) (hr : r ∈ rules) (hw : w <+: c :: s) (hne : w ≠ [])
    (hm : Matches r.2 w) (hrest : ∀ v rest k, c :: s = v ++ rest → Takes rules v rest k →
      w.length ≤ v.length → Scannable rest) : Scannable (c :: s) := by
  cases hb : best rules (c :: s) with
  | none => exact absurd hm (best_eq_none_iff.1 hb r hr w hw)
  | some e =>
    obtain ⟨k, n⟩ := e
    have hle : w.length ≤ n := (best_eq_some_iff.1 hb).1 r hr w hw hm
    obtain ⟨m, rfl⟩ : ∃ m, n = m + 1 := by
      refine Nat.exists_eq_succ_of_ne_zero fun h => hne ?_
      rw [h] at hle
      exact List.eq_nil_of_length_eq_zero (Nat.le_zero.1 hle)
    obtain ⟨v, rest, hs, hl, htakes⟩ := takes_of_best hc hb
    obtain ⟨ts, hts⟩ := (hrest _ rest k hs htakes (by simp [hl, hle])).scans (byteLength (c :: v))
    rw [hs]
    exact ⟨_, .token htakes (by rwa [Nat.zero_add])⟩

/-- What is next goes on with no name. -/
structure NameEnds (s : List Char) : Prop where
  rest : ∀ c t, s = c :: t → isNameRest c = false
  reference : ∀ c t, s = '.' :: c :: t → isNameStart c = false

/-- Letters are a token in front of what does not go on with a name. -/
theorem scannable_letters {w s : List Char} (hne : w ≠ []) (hw : ∀ c ∈ w, c.isAlpha = true)
    (hend : NameEnds s) (hs : Scannable s) : Scannable (w ++ s) := by
  obtain ⟨c, w, rfl⟩ := List.exists_cons_of_ne_nil hne
  obtain ⟨hc, hw'⟩ := List.forall_mem_cons.1 hw
  have hstart := isNameStart_of_isAlpha hc
  have hname : Matches name (c :: w) := matches_name_iff.2 ⟨c, w, rfl, hstart, fun d hd =>
    isNameRest_of_isNameStart (isNameStart_of_isAlpha (hw' d hd))⟩
  refine scannable_of_match (w := c :: w) (r := (.identifier, name)) (not_isBlank_of_isAlpha hc)
    (by simp [rules]) (List.prefix_append ..) hne hname fun v rest k hv htakes hle => ?_
  -- The token taken is no longer: neither a name nor a reference goes on behind `w`.
  obtain ⟨u, rfl⟩ : c :: w <+: v := List.prefix_of_prefix_length_le
    (List.prefix_append (c :: w) s) ⟨rest, hv.symm⟩ hle
  have hs' : s = u ++ rest := by simpa using hv
  cases u with
  | nil => rwa [hs'] at hs
  | cons d u =>
    exfalso
    obtain ⟨p, hp, hm⟩ := htakes.first.exists_mem
    rcases matches_of_isNameStart hp hm hstart with hall | ⟨e, t, he, hestart⟩
    · cases (hend.rest d _ hs').symm.trans (hall d (by simp))
    · cases w with
      | nil =>
        cases he
        cases (hend.reference e _ hs').symm.trans hestart
      | cons f w =>
        obtain ⟨rfl, -⟩ := List.cons.inj (show f :: (w ++ d :: u) = '.' :: e :: t from he)
        cases hw' '.' (.head _)

/-! ## Predicates -/

/-- In a predicate no name goes on behind a token that is one. -/
theorem nameEnds_of_takes {w s : List Char} {k : Predicate.Word}
    (hw : Takes Predicate.rules w s k) (hname : Matches name w) {n : Nat}
    {ts : List (Token Predicate.Word)} (hs : Scans Predicate.rules n s ts) : NameEnds s := by
  obtain ⟨c, w, rfl, hc, hw'⟩ := matches_name_iff.1 hname
  refine ⟨fun d t ht => ?_, fun d t ht => ?_⟩
  · refine Bool.eq_false_iff.2 fun hd => ?_
    have hlong : Matches name (c :: w ++ [d]) := matches_name_iff.2 ⟨c, w ++ [d], rfl, hc, by
      simpa [or_imp, forall_and] using ⟨hw', hd⟩⟩
    have hle := hw.bounded (.identifier, name) (by simp [Predicate.rules]) (c :: w ++ [d])
      ⟨t, by rw [ht]; simp⟩ hlong
    rw [List.length_append] at hle
    exact absurd hle (Nat.not_succ_le_self _)
  · subst ht
    obtain ⟨v, k', r, us, hv, -, htakes, -⟩ := hs.solid_inv (by decide)
    rcases of_predicate_first htakes.first with ⟨h, -⟩ | h | h
    · obtain ⟨_, _, he, hstart, -⟩ := matches_name_iff.1 h
      cases he
      cases hstart
    · obtain ⟨_, _, he, hdigit | ⟨-, f, u, rfl, hf⟩⟩ := head_of_number h
      · cases he
        cases hdigit
      · cases he
        cases hv
        exact not_isNameStart_of_isDigit hf
    · exact absurd rfl ((of_mem_signs h).2 '.' (.head _)).2.2.1

/-- A token of a selection that is no shorter than the one of a predicate at its place is the same
text if a rule of predicates matches it. -/
theorem eq_of_takes {w s v t : List Char} {k : Predicate.Word} (hw : Takes Predicate.rules w s k)
    (he : w ++ s = v ++ t) (hle : w.length ≤ v.length)
    (hv : ∃ r ∈ Predicate.rules, Matches r.2 v) : s = t := by
  obtain ⟨r, hr, hm⟩ := hv
  have hle' := hw.bounded r hr v (he ▸ List.prefix_append v t) hm
  exact (List.append_inj he (Nat.le_antisymm hle hle')).2

theorem scannable_number {w s : List Char} {k : Predicate.Word} (hw : Takes Predicate.rules w s k)
    (h : Matches Predicate.numberPattern w) (hs : Scannable s) : Scannable (w ++ s) := by
  obtain ⟨c, w, rfl, hc⟩ := hw.solid
  have hdigit : c.isDigit = true ∨ c = '.' := by
    obtain ⟨_, _, he, hd⟩ := head_of_number h
    cases he
    exact hd.imp_right (·.1)
  obtain ⟨r, hr, hm⟩ : ∃ r ∈ rules, Matches r.2 (c :: w) := by
    rcases matches_number_iff.1 h with h | h
    · exact ⟨(.integer, digits), by simp [rules], h⟩
    · exact ⟨(.float, floatPattern), by simp [rules], h⟩
  refine scannable_of_match hc hr (List.prefix_append (c :: w) s) (by simp) hm
    fun v rest k' hv htakes hle => ?_
  obtain ⟨d, v, rfl, -⟩ := htakes.solid
  obtain ⟨p, hp, hm'⟩ := htakes.first.exists_mem
  obtain ⟨rfl, -⟩ := List.cons.inj hv
  rw [← eq_of_takes hw hv hle ⟨(.number, Predicate.numberPattern), by simp [Predicate.rules],
    matches_of_isDigit hp hm' hdigit⟩]
  exact hs

/-- A sign is a token, or takes the letter behind it. -/
theorem scannable_sign {w s : List Char} {k : Predicate.Word} (hw : Takes Predicate.rules w s k)
    (h : w ∈ signs) (hs : Scannable s)
    (hcut : ∀ c t, s = c :: t → c.isAlpha = true → Scannable t) : Scannable (w ++ s) := by
  obtain ⟨c, w, rfl, hc⟩ := hw.solid
  obtain ⟨⟨r, hr, hm⟩, -⟩ := exists_rule_of_mem_signs h
  refine scannable_of_match hc hr (List.prefix_append (c :: w) s) (by simp) hm
    fun v rest k' hv htakes hle => ?_
  obtain ⟨d, v, rfl, -⟩ := htakes.solid
  obtain ⟨p, hp, hm'⟩ := htakes.first.exists_mem
  obtain ⟨rfl, hv'⟩ := List.cons.inj hv
  rcases matches_of_sign hp hm' h with hsign | ⟨e, rfl, he⟩
  · rw [← eq_of_takes hw hv hle (exists_rule_of_mem_signs hsign).2]
    exact hs
  · cases w with
    | nil => exact hcut e rest hv' he
    | cons f w =>
      obtain ⟨rfl, -⟩ := List.cons.inj (show f :: (w ++ s) = e :: rest from hv')
      cases ((of_mem_signs h).2 f (by simp)).1.symm.trans (isNameStart_of_isAlpha he)

/-- A letter that begins a token of a predicate begins one that is made of letters. -/
theorem letters_of_takes {w s : List Char} {k : Predicate.Word} {c : Char}
    (hw : Takes Predicate.rules (c :: w) s k)
    (hp : k = .identifier → ∀ d ∈ c :: w, d.isAlpha = true)
    (hc : c.isAlpha = true) :
    Matches name (c :: w) ∧ ∀ d ∈ c :: w, d.isAlpha = true := by
  have hstart := isNameStart_of_isAlpha hc
  rcases of_predicate_first hw.first with ⟨hname, rfl | hletters⟩ | h | h
  · exact ⟨hname, hp rfl⟩
  · exact ⟨hname, hletters⟩
  · obtain ⟨_, _, he, hd⟩ := head_of_number h
    cases he
    rcases hd with hd | ⟨rfl, -⟩
    · cases (not_isNameStart_of_isDigit hd).symm.trans hstart
    · cases hstart
  · cases ((of_mem_signs h).2 c (.head _)).1.symm.trans hstart

/-- A text with the tokens of a predicate whose names are plain has tokens in a selection. -/
theorem scannable_of_predicate {n : Nat} {s : List Char} {ts : List (Token Predicate.Word)}
    (h : Scans Predicate.rules n s ts) (hp : ∀ t ∈ ts, Predicate.Plain t) : Scannable s := by
  induction hl : s.length using Nat.strongRecOn generalizing n s ts with
  | ind l ih =>
    subst hl
    cases h with
    | done => exact scannable_nil
    | @blank _ c s _ hc hs =>
      obtain ⟨us, hus⟩ := (ih s.length (Nat.lt_succ_self _) hs hp rfl).scans (0 + c.utf8Size)
      exact ⟨us, .blank hc hus⟩
    | @token _ w r k ts hw hr =>
      obtain ⟨hpw, hpr⟩ := List.forall_mem_cons.1 hp
      have hrest := fun {r' : List Char} {m : Nat} {us : List (Token Predicate.Word)}
        (hlt : r'.length < (w ++ r).length) (hs : Scans Predicate.rules m r' us)
        (hu : ∀ t ∈ us, Predicate.Plain t) => ih r'.length hlt hs hu rfl
      clear ih
      obtain ⟨c, w, rfl, hc⟩ := hw.solid
      have hr' : Scannable r := hrest (by grind) hr hpr
      rcases of_predicate_first hw.first with ⟨hname, hletters⟩ | hnumber | hsign
      · refine scannable_letters (by simp) ?_ (nameEnds_of_takes hw hname hr) hr'
        exact hletters.elim hpw id
      · exact scannable_number hw hnumber hr'
      · refine scannable_sign hw hsign hr' fun d t ht hd => ?_
        -- What is left of a name behind the sign is a name again, or nothing.
        subst ht
        obtain ⟨v, k', t, us, rfl, rfl, hv, ht⟩ := hr.solid_inv (not_isBlank_of_isAlpha hd)
        obtain ⟨hpv, hpt⟩ := List.forall_mem_cons.1 hpr
        obtain ⟨hname, hletters⟩ := letters_of_takes hv hpv hd
        have ht' : Scannable t := hrest (by grind) ht hpt
        cases v with
        | nil => exact ht'
        | cons e v =>
          exact scannable_letters (by simp) (List.forall_mem_cons.1 hletters).2
            (nameEnds_of_takes hv hname ht) ht'

end Selection

end Subdomain
