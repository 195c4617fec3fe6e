import Subdomain.Proofs.Lexical.Cuts
import Subdomain.Selection.Token

/-!
# Maximal munch

Tokens that are taken from a text tile it: they stand one behind the other, each is the
longest match at its place, and what is in none of them is blank. No other tokens do
(`scan_eq_ok_iff_tiles`). So nothing of a text is lost but its blanks, and the tokens with one
blank between any two of them are scanned again. Where scanning fails, all that is in front
is tiled, with the rest in sight (`Selection.tokens_munch`).
-/

namespace Subdomain

namespace Lexical

variable {κ : Type} {rules : List (κ × Pattern)} {rest s : List Char} {n : Nat}
  {ts : List (Token κ)}

/-! ## Tiles -/

theorem Takes.byteLength_pos {w r : List Char} {k : κ} (h : Takes rules w r k) :
    0 < byteLength w := by
  obtain ⟨c, w, rfl, -⟩ := h.solid
  exact Nat.lt_of_lt_of_le c.utf8Size_pos (Nat.le_add_right ..)

/-- The tokens `ts` make up the text `s` at byte `n`, in front of `rest`. -/
structure Tiles (rules : List (κ × Pattern)) (rest : List Char) (n : Nat) (s : List Char)
    (ts : List (Token κ)) : Prop where
  ordered : ts.Pairwise fun t u => t.offset < u.offset ∧ t.stop ≤ u.offset
  taken : ∀ t ∈ ts, ∃ before after, s = before ++ (t.chars ++ after) ∧
    t.offset = n + byteLength before ∧ Takes rules t.chars (after ++ rest) t.kind
  /-- A character that is in no token is blank. -/
  blank : ∀ before c after, s = before ++ c :: after →
    (∀ t ∈ ts, n + byteLength before < t.offset ∨ t.stop ≤ n + byteLength before) →
      isBlank c = true

theorem tiles_nil (rest : List Char) (n : Nat) : Tiles rules rest n [] [] where
  ordered := .nil
  taken _ h := nomatch h
  blank _ _ _ h := nomatch List.append_eq_nil_iff.1 h.symm

theorem Tiles.cons_blank {c : Char} (hc : isBlank c = true)
    (h : Tiles rules rest (n + c.utf8Size) s ts) : Tiles rules rest n (c :: s) ts where
  ordered := h.ordered
  taken t ht := by
    obtain ⟨before, after, rfl, ho, htakes⟩ := h.taken t ht
    exact ⟨c :: before, after, rfl, by rw [ho, byteLength, Nat.add_assoc], htakes⟩
  blank before d after hs hout := by
    cases before with
    | nil =>
      cases hs
      exact hc
    | cons e before =>
      cases hs
      refine h.blank before d after rfl fun t ht => ?_
      rw [Nat.add_assoc]
      exact hout t ht

theorem Tiles.append_token {w : List Char} {k : κ} (hw : Takes rules w (s ++ rest) k)
    (h : Tiles rules rest (n + byteLength w) s ts) :
    Tiles rules rest n (w ++ s) (⟨k, w, n⟩ :: ts) where
  ordered := by
    refine List.pairwise_cons.2 ⟨fun u hu => ?_, h.ordered⟩
    obtain ⟨before, after, -, ho, -⟩ := h.taken u hu
    have hpos := hw.byteLength_pos
    simp only [Token.stop, ho]
    omega
  taken := by
    refine List.forall_mem_cons.2 ⟨⟨[], s, rfl, rfl, hw⟩, fun t ht => ?_⟩
    obtain ⟨before, after, rfl, ho, htakes⟩ := h.taken t ht
    exact ⟨w ++ before, after, (List.append_assoc ..).symm, by
      rw [ho, byteLength_append, Nat.add_assoc], htakes⟩
  blank before c after hs hout := by
    obtain ⟨hfirst, hothers⟩ := List.forall_mem_cons.1 hout
    rcases List.append_eq_append_iff.1 hs with ⟨b, rfl, hb⟩ | ⟨v, rfl, hv⟩
    · -- the character is behind the token
      refine h.blank b c after hb fun t ht => ?_
      rw [Nat.add_assoc, ← byteLength_append]
      exact hothers t ht
    · cases v with
      | nil =>
        rw [List.append_nil] at h
        exact h.blank [] c after hv.symm hothers
      | cons d v =>
        -- the character is in the token
        have := d.utf8Size_pos
        simp only [Token.stop, byteLength_append, byteLength] at hfirst
        omega

/-! ## Only one tiling -/

theorem Munches.tiles (h : Munches rules rest n s ts) : Tiles rules rest n s ts := by
  induction h with
  | done n => exact tiles_nil rest n
  | blank hc _ ih => exact ih.cons_blank hc
  | token hw _ ih => exact ih.append_token hw

/-- What is behind the first token is tiled by the others. -/
theorem Tiles.tail {t : Token κ} {before after : List Char} (ho : t.offset = n + byteLength before)
    (h : Tiles rules rest n (before ++ (t.chars ++ after)) (t :: ts)) :
    Tiles rules rest t.stop after ts := by
  obtain ⟨hfirst, hordered⟩ := List.pairwise_cons.1 h.ordered
  have hstop : t.stop = n + byteLength (before ++ t.chars) := by
    rw [Token.stop, ho, byteLength_append, Nat.add_assoc]
  refine ⟨hordered, fun u hu => ?_, fun b c a hs hout => ?_⟩
  · obtain ⟨b, a, hs, hu', htakes⟩ := h.taken u (.tail _ hu)
    have hle : t.stop ≤ u.offset := (hfirst u hu).2
    rw [← List.append_assoc] at hs
    rcases List.append_eq_append_iff.1 hs with ⟨x, rfl, hx⟩ | ⟨x, hb, hx⟩
    · exact ⟨x, a, hx, by rw [hu', hstop, byteLength_append, Nat.add_assoc], htakes⟩
    · -- the other token does not begin before the first one ends
      rw [hstop, hu', hb, byteLength_append] at hle
      obtain rfl : x = [] := eq_nil_of_byteLength (by omega)
      rw [List.append_nil] at hb
      exact ⟨[], a, hx.symm, by rw [hu', hstop, hb]; rfl, htakes⟩
  · have hplace : t.stop + byteLength b = n + byteLength (before ++ t.chars ++ b) := by
      rw [hstop, byteLength_append, byteLength_append, byteLength_append]
      omega
    refine h.blank (before ++ t.chars ++ b) c a (by simp [hs]) ?_
    rw [← hplace]
    exact List.forall_mem_cons.2 ⟨.inr (Nat.le_add_right ..), hout⟩

theorem Tiles.munches (h : Tiles rules rest n s ts) : Munches rules rest n s ts := by
  induction ts generalizing n s with
  | nil =>
    have hblank : ∀ c ∈ s, isBlank c = true := by
      intro c hc
      obtain ⟨before, after, rfl⟩ := List.append_of_mem hc
      exact h.blank before c after rfl (List.forall_mem_nil _)
    rw [← List.append_nil s]
    exact .blanks hblank (.done _)
  | cons t ts ih =>
    obtain ⟨before, after, rfl, ho, htakes⟩ := h.taken t (.head _)
    have hbefore : ∀ c ∈ before, isBlank c = true := by
      intro c hc
      obtain ⟨b, a, rfl⟩ := List.append_of_mem hc
      have hlt : n + byteLength b < t.offset := by
        have := c.utf8Size_pos
        simp only [ho, byteLength_append, byteLength]
        omega
      refine h.blank b c (a ++ (t.chars ++ after)) (by simp) (List.forall_mem_cons.2 ⟨.inl hlt, ?_⟩)
      exact fun u hu => .inl (Nat.lt_trans hlt ((List.pairwise_cons.1 h.ordered).1 u hu).1)
    refine .blanks hbefore ?_
    rw [← ho]
    exact .token htakes (ih (h.tail ho))

/-- The tokens of a text are the only ones that tile it. -/
theorem scan_eq_ok_iff_tiles : scan rules s = .ok ts ↔ Tiles rules [] 0 s ts := by
  rw [scan_eq_ok_iff]
  exact ⟨fun h => h.munches.tiles, fun h => h.munches.scans⟩

/-! ## Other texts -/

/-- Every token is taken where it stands alone. -/
theorem Tiles.takes (h : Tiles rules rest n s ts) : ∀ t ∈ ts, Takes rules t.chars [] t.kind := by
  intro t ht
  obtain ⟨before, after, -, -, htakes⟩ := h.taken t ht
  exact htakes.of_append (r := [])

/-- Rules that match no empty text match nothing where scanning is stuck. -/
theorem Stuck.not_matches {c : Char} {after : List Char} (h : Stuck rules c after)
    (hrules : (rules.all fun r => !r.2.nullable) = true) :
    ∀ r ∈ rules, ∀ w, w <+: c :: after → ¬ r.2.Matches w := by
  intro r hr w hw hm
  cases List.length_eq_zero_iff.1 (Nat.le_zero.1 (h.bounded r hr w hw hm))
  have hnot := List.all_eq_true.1 hrules r hr
  rw [Pattern.nullable_iff.2 hm] at hnot
  cases hnot

end Lexical

namespace Selection

open Lexical

/-- A text has tokens that tile it, and that are scanned again with one blank between any two of
them; or scanning stops in front of the first character at which neither a blank nor a token is,
and the text up to there has tokens that tile it in front of the rest. -/
theorem tokens_munch (text : List Char) :
    (∃ ts, tokens text = .ok ts ∧ Tiles rules [] 0 text ts ∧
      ∃ us, tokens (Token.spaced ts) = .ok us ∧ us.map Token.spelling = ts.map Token.spelling) ∨
    (∃ before c after ts, text = before ++ c :: after ∧
      tokens text = .error ⟨.unexpectedCharacter, [c], byteLength before⟩ ∧
      isBlank c = false ∧ (∀ r ∈ rules, ∀ w, w <+: c :: after → ¬ r.2.Matches w) ∧
      tokens before = .ok ts ∧ Tiles rules (c :: after) 0 before ts) := by
  have hspec := scanFrom_spec rules 0 text
  cases h : tokens text with
  | ok ts =>
    have htiles : Tiles rules [] 0 text ts := scan_eq_ok_iff_tiles.1 h
    have halone : Alone rules ' ' := alone_of_all (by decide +kernel)
    exact .inl ⟨ts, rfl, htiles, exists_scan_spaced halone htiles.takes⟩
  | error f =>
    obtain ⟨before, c, after, ts, rfl, rfl, hmunches, hstuck⟩ := hspec.2 f h
    exact .inr ⟨before, c, after, ts, rfl, by rw [Nat.zero_add], hstuck.solid,
      hstuck.not_matches (by decide +kernel), scan_eq_ok_iff.2 hmunches.scans, hmunches.tiles⟩

/-- The longest match can end long before the text stops looking like another token: the exponent
has no digits, and the reference no name. -/
example : (tokens "1e+ r.2".toList).toOption.map (·.map Token.spelling) =
    some [(.integer, ['1']), (.identifier, ['e']), (.plus, ['+']), (.identifier, ['r']),
      (.float, ['.', '2'])] := by
  decide +kernel

end Selection

end Subdomain
