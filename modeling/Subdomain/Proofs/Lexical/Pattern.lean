import Subdomain.Lexical.Literal

/-!
# Matches of patterns

What a pattern matches is decided by what its parts match. A derivative matches
what is left of a match behind its first character, so that `longest` gives the
length of the longest prefix that matches (`longest_eq_some_iff`).
-/

namespace Subdomain

namespace Pattern

variable {p q : Pattern} {f : Char → Bool} {c : Char} {s : List Char}

/-! ## Parts -/

theorem not_matches_fail : ¬ Matches fail s := nofun

theorem matches_empty_iff : Matches empty s ↔ s = [] :=
  ⟨fun h => by cases h; rfl, fun h => h ▸ .empty⟩

theorem matches_one_iff : Matches (one f) s ↔ ∃ c, f c = true ∧ s = [c] := by
  constructor
  · rintro ⟨⟩
    exact ⟨_, ‹_›, rfl⟩
  · rintro ⟨c, hc, rfl⟩
    exact .one hc

theorem matches_seq_iff :
    Matches (seq p q) s ↔ ∃ a b, s = a ++ b ∧ Matches p a ∧ Matches q b := by
  constructor
  · rintro ⟨⟩
    exact ⟨_, _, rfl, ‹_›, ‹_›⟩
  · rintro ⟨a, b, rfl, ha, hb⟩
    exact .seq ha hb

theorem matches_alt_iff : Matches (alt p q) s ↔ Matches p s ∨ Matches q s := by
  constructor
  · rintro (_ | _ | _ | h | h | _)
    · exact .inl h
    · exact .inr h
  · rintro (h | h)
    · exact .inl h
    · exact .inr h

theorem matches_opt_iff : Matches (opt p) s ↔ s = [] ∨ Matches p s := by
  rw [opt, matches_alt_iff, matches_empty_iff]

theorem matches_char_iff : Matches (char c) s ↔ s = [c] := by
  simp [char, matches_one_iff]

theorem matches_exactly_iff {w : List Char} : Matches (exactly w) s ↔ s = w := by
  induction w generalizing s with
  | nil => exact matches_empty_iff
  | cons c w ih =>
    simp [exactly, matches_seq_iff, matches_char_iff, ih]

theorem matches_word_iff {w : String} : Matches (word w) s ↔ s = w.toList := matches_exactly_iff

theorem matches_any_iff {ps : List Pattern} : Matches (any ps) s ↔ ∃ p ∈ ps, Matches p s := by
  induction ps with
  | nil => simp [any, not_matches_fail]
  | cons p ps ih => simp [any, matches_alt_iff, ih]

theorem matches_star_nil : Matches (star p) [] := .stop

/-- A repetition that does not match the empty text begins with a match of its own that is not. -/
theorem matches_star_cons_iff : Matches (star p) (c :: s) ↔
    ∃ a b, s = a ++ b ∧ Matches p (c :: a) ∧ Matches (star p) b := by
  constructor
  · intro h
    generalize hp : star p = q, ht : c :: s = t at h
    induction h with
    | stop => cases ht
    | @more p' u v hu hv _ ih =>
      cases hp
      cases u with
      | nil => exact ih rfl ht
      | cons d u =>
        cases ht
        exact ⟨u, v, rfl, hu, hv⟩
    | _ => cases hp
  · rintro ⟨a, b, rfl, ha, hb⟩
    exact .more ha hb

theorem matches_star_one_iff : Matches (star (one f)) s ↔ ∀ c ∈ s, f c = true := by
  induction s with
  | nil => simp [matches_star_nil]
  | cons c s ih =>
    rw [matches_star_cons_iff, List.forall_mem_cons, ← ih]
    constructor
    · rintro ⟨a, b, rfl, ha, hb⟩
      obtain ⟨d, hd, h⟩ := matches_one_iff.1 ha
      cases h
      exact ⟨hd, hb⟩
    · rintro ⟨hc, hs⟩
      exact ⟨[], s, rfl, .one hc, hs⟩

theorem matches_plus_one_iff : Matches (plus (one f)) s ↔ s ≠ [] ∧ ∀ c ∈ s, f c = true := by
  constructor
  · intro h
    obtain ⟨a, b, rfl, ha, hb⟩ := matches_seq_iff.1 h
    obtain ⟨c, hc, rfl⟩ := matches_one_iff.1 ha
    simpa [hc] using matches_star_one_iff.1 hb
  · rintro ⟨hne, hall⟩
    cases s with
    | nil => exact absurd rfl hne
    | cons c s =>
      obtain ⟨hc, hs⟩ := List.forall_mem_cons.1 hall
      exact matches_seq_iff.2 ⟨[c], s, rfl, .one hc, matches_star_one_iff.2 hs⟩

theorem matches_digits_iff : Matches digits s ↔ s ≠ [] ∧ ∀ c ∈ s, c.isDigit = true :=
  matches_plus_one_iff

/-- The first character of a name. -/
def isNameStart (c : Char) : Bool := c.isAlpha || c == '_'

/-- The other characters of a name. -/
def isNameRest (c : Char) : Bool := c.isAlphanum || c == '_'

theorem isNameRest_of_isNameStart {c : Char} (h : isNameStart c = true) : isNameRest c = true := by
  rw [isNameStart, Bool.or_eq_true] at h
  rw [isNameRest, Char.isAlphanum, Bool.or_eq_true, Bool.or_eq_true]
  exact h.imp_left .inl

theorem matches_name_iff : Matches name s ↔
    ∃ c w, s = c :: w ∧ isNameStart c = true ∧ ∀ d ∈ w, isNameRest d = true := by
  rw [name, matches_seq_iff]
  constructor
  · rintro ⟨a, b, rfl, ha, hb⟩
    obtain ⟨c, hc, rfl⟩ := matches_one_iff.1 ha
    exact ⟨c, b, rfl, hc, matches_star_one_iff.1 hb⟩
  · rintro ⟨c, w, rfl, hc, hw⟩
    exact ⟨[c], w, rfl, .one hc, matches_star_one_iff.2 hw⟩

/-! ## Derivatives -/

theorem nullable_iff : p.nullable = true ↔ Matches p [] := by
  induction p with
  | fail => simp [nullable, not_matches_fail]
  | empty => simp [nullable, matches_empty_iff]
  | one f => simp [nullable, matches_one_iff]
  | seq p q ihp ihq =>
    rw [nullable, Bool.and_eq_true, ihp, ihq]
    constructor
    · rintro ⟨hp, hq⟩
      exact .seq (s := []) hp hq
    · intro h
      obtain ⟨a, b, hab, ha, hb⟩ := matches_seq_iff.1 h
      obtain ⟨rfl, rfl⟩ := List.append_eq_nil_iff.1 hab.symm
      exact ⟨ha, hb⟩
  | alt p q ihp ihq => simp [nullable, ihp, ihq, matches_alt_iff]
  | star p => simp [nullable, matches_star_nil]

theorem matches_joined_iff : Matches (joined p q) s ↔ Matches (seq p q) s := by
  unfold joined
  split
  · simp [matches_seq_iff, not_matches_fail]
  · rw [matches_seq_iff]
    constructor
    · intro h
      exact ⟨[], s, rfl, .empty, h⟩
    · rintro ⟨a, b, rfl, ha, hb⟩
      rwa [matches_empty_iff.1 ha]
  · simp [matches_seq_iff, not_matches_fail]
  · rfl

theorem matches_either_iff : Matches (either p q) s ↔ Matches p s ∨ Matches q s := by
  unfold either
  split <;> simp [matches_alt_iff, not_matches_fail]

theorem matches_seq_cons_iff : Matches (seq p q) (c :: s) ↔
    (∃ a b, s = a ++ b ∧ Matches p (c :: a) ∧ Matches q b) ∨
      Matches p [] ∧ Matches q (c :: s) := by
  rw [matches_seq_iff]
  constructor
  · rintro ⟨a, b, h, ha, hb⟩
    cases a with
    | nil => exact .inr ⟨ha, (show c :: s = b from h) ▸ hb⟩
    | cons d a =>
      cases h
      exact .inl ⟨a, b, rfl, ha, hb⟩
  · rintro (⟨a, b, rfl, ha, hb⟩ | ⟨hp, hq⟩)
    · exact ⟨c :: a, b, rfl, ha, hb⟩
    · exact ⟨[], c :: s, rfl, hp, hq⟩

theorem matches_derivative_iff : Matches (p.derivative c) s ↔ Matches p (c :: s) := by
  induction p generalizing s with
  | fail => simp [derivative, not_matches_fail]
  | empty => simp [derivative, not_matches_fail, matches_empty_iff]
  | one f =>
    have hcons : Matches (one f) (c :: s) ↔ f c = true ∧ s = [] := by
      rw [matches_one_iff]
      constructor
      · rintro ⟨d, hd, h⟩
        cases h
        exact ⟨hd, rfl⟩
      · rintro ⟨hc, rfl⟩
        exact ⟨c, hc, rfl⟩
    rw [hcons, derivative]
    split
    · rename_i hc
      simp [matches_empty_iff, hc]
    · rename_i hc
      simp [not_matches_fail, hc]
  | seq p q ihp ihq =>
    have hleft : Matches (joined (p.derivative c) q) s ↔
        ∃ a b, s = a ++ b ∧ Matches p (c :: a) ∧ Matches q b := by
      simp only [matches_joined_iff, matches_seq_iff, ihp]
    rw [matches_seq_cons_iff, derivative, ← nullable_iff]
    split
    · rename_i hn
      rw [matches_either_iff, hleft, ihq]
      simp [hn]
    · rename_i hn
      rw [hleft]
      simp [hn]
  | alt p q ihp ihq => rw [derivative, matches_either_iff, ihp, ihq, matches_alt_iff]
  | star p ih => simp only [derivative, matches_joined_iff, matches_seq_iff, ih,
      matches_star_cons_iff]

/-! ## Longest matches -/

theorem not_matches_of_isFail (h : p.isFail = true) : ¬ Matches p s := by
  cases p <;> simp [isFail, not_matches_fail] at h ⊢

/-- `n` is the length of a prefix that matches, and no longer one does. -/
def IsLongest (p : Pattern) (s : List Char) (n : Nat) : Prop :=
  (∃ w, w <+: s ∧ w.length = n ∧ Matches p w) ∧ ∀ w, w <+: s → Matches p w → w.length ≤ n

/-- A match at the front is empty or goes on with a match of the derivative. -/
theorem matches_prefix_cons {w : List Char} (h : w <+: c :: s) (hw : Matches p w) :
    w = [] ∨ ∃ u, w = c :: u ∧ u <+: s ∧ Matches (p.derivative c) u := by
  rcases List.prefix_cons_iff.1 h with rfl | ⟨u, rfl, hu⟩
  · exact .inl rfl
  · exact .inr ⟨u, rfl, hu, matches_derivative_iff.2 hw⟩

theorem longest_spec (p : Pattern) (s : List Char) :
    (p.longest s = none → ∀ w, w <+: s → ¬ Matches p w) ∧
      ∀ n, p.longest s = some n → p.IsLongest s n := by
  induction s generalizing p with
  | nil =>
    rw [longest]
    split
    · rename_i hn
      refine ⟨nofun, fun n h => ?_⟩
      cases h
      exact ⟨⟨[], List.prefix_refl _, rfl, nullable_iff.1 hn⟩, fun w hw _ => by
        simp [List.prefix_nil.1 hw]⟩
    · rename_i hn
      refine ⟨fun _ w hw h => hn (nullable_iff.2 ?_), nofun⟩
      rwa [← List.prefix_nil.1 hw]
  | cons c s ih =>
    rw [longest]
    split
    · rename_i hf
      exact ⟨fun _ w _ => not_matches_of_isFail hf, nofun⟩
    · obtain ⟨hnone, hsome⟩ := ih (p.derivative c)
      split
      · rename_i m hm
        obtain ⟨⟨u, hu, rfl, hpu⟩, hmax⟩ := hsome m hm
        refine ⟨nofun, fun n h => ?_⟩
        cases h
        refine ⟨⟨c :: u, List.cons_prefix_cons.2 ⟨rfl, hu⟩, rfl, matches_derivative_iff.1 hpu⟩,
          fun w hw hpw => ?_⟩
        rcases matches_prefix_cons hw hpw with rfl | ⟨v, rfl, hv, hpv⟩
        · exact Nat.zero_le _
        · exact Nat.succ_le_succ (hmax v hv hpv)
      · rename_i hm
        have honly : ∀ w, w <+: c :: s → Matches p w → w = [] := fun w hw hpw =>
          (matches_prefix_cons hw hpw).resolve_right fun ⟨v, _, hv, hpv⟩ => hnone hm v hv hpv
        split
        · rename_i hn
          refine ⟨nofun, fun n h => ?_⟩
          cases h
          exact ⟨⟨[], List.nil_prefix, rfl, nullable_iff.1 hn⟩, fun w hw hpw => by
            simp [honly w hw hpw]⟩
        · rename_i hn
          refine ⟨fun _ w hw hpw => hn (nullable_iff.2 ?_), nofun⟩
          rwa [← honly w hw hpw]

theorem longest_eq_none_iff : p.longest s = none ↔ ∀ w, w <+: s → ¬ Matches p w := by
  refine ⟨(longest_spec p s).1, fun h => ?_⟩
  cases hl : p.longest s with
  | none => rfl
  | some n =>
    obtain ⟨⟨w, hw, -, hpw⟩, -⟩ := (longest_spec p s).2 n hl
    exact absurd hpw (h w hw)

theorem longest_eq_some_iff {n : Nat} : p.longest s = some n ↔ p.IsLongest s n := by
  refine ⟨(longest_spec p s).2 n, fun h => ?_⟩
  obtain ⟨⟨w, hw, rfl, hpw⟩, hmax⟩ := h
  cases hl : p.longest s with
  | none => exact absurd hpw ((longest_spec p s).1 hl w hw)
  | some m =>
    obtain ⟨⟨v, hv, rfl, hpv⟩, hmax'⟩ := (longest_spec p s).2 m hl
    exact congrArg some (Nat.le_antisymm (hmax v hv hpv) (hmax' w hw hpw))

theorem matches_iff_longest : Matches p s ↔ p.longest s = some s.length := by
  rw [longest_eq_some_iff]
  constructor
  · exact fun h => ⟨⟨s, List.prefix_refl s, rfl, h⟩, fun w hw _ => hw.length_le⟩
  · rintro ⟨⟨w, hw, hl, h⟩, -⟩
    rwa [← hw.eq_of_length hl]

/-! ## Characters -/

/-- Whether no text of the pattern contains a character. -/
def avoids (c : Char) : Pattern → Bool
  | fail | empty => true
  | one f => !f c
  | seq p q | alt p q => p.avoids c && q.avoids c
  | star p => p.avoids c

theorem not_mem_of_avoids (ha : p.avoids c = true) (h : Matches p s) : c ∉ s := by
  induction h with
  | empty | stop => exact List.not_mem_nil
  | one hf =>
    rintro (_ | ⟨_, h⟩)
    · simp [avoids, hf] at ha
    · cases h
  | seq _ _ ihp ihq =>
    simp only [avoids, Bool.and_eq_true] at ha
    exact fun hc => (List.mem_append.1 hc).elim (ihp ha.1) (ihq ha.2)
  | inl _ ih =>
    simp only [avoids, Bool.and_eq_true] at ha
    exact ih ha.1
  | inr _ ih =>
    simp only [avoids, Bool.and_eq_true] at ha
    exact ih ha.2
  | more _ _ ihp ihs => exact fun hc => (List.mem_append.1 hc).elim (ihp ha) (ihs ha)

/-- Whether a character is alone in all texts of the pattern that contain it. -/
def isolates (c : Char) : Pattern → Bool
  | one _ => true
  | alt p q => p.isolates c && q.isolates c
  | p => p.avoids c

theorem eq_singleton_of_isolates (ha : p.isolates c = true) (h : Matches p s) (hc : c ∈ s) :
    s = [c] := by
  induction h with
  | one => rw [List.mem_singleton.1 hc]
  | inl _ ih => exact ih (Bool.and_eq_true_iff.1 ha).1 hc
  | inr _ ih => exact ih (Bool.and_eq_true_iff.1 ha).2 hc
  | empty | stop => cases hc
  | seq hp hq => exact absurd hc (not_mem_of_avoids ha (.seq hp hq))
  | more hp hs => exact absurd hc (not_mem_of_avoids ha (.more hp hs))

end Pattern

end Subdomain
