import Subdomain.Proofs.Selection.Delimiting
import Subdomain.Proofs.Selection.Lists

/-!
# Written integers and lists

A text is spelled as a form if it has the tokens of such a form wherever it stands
(`Spelled`). Integers, lists and pairs are written so that they are spelled as
forms with the same value, whatever the form was that they were read from
(`spelled_signed`, `spelled_items` and `spelled_pair`).
-/

namespace Subdomain

namespace Selection

open Lexical Pattern

/-- Anywhere the text has the tokens `f` of something with `P`. -/
def Spelled {φ : Type} (f : φ → Tokens) (P : φ → Prop) (u : List Char) : Prop :=
  ∀ n, ∃ d, Scans rules n u (f d) ∧ P d

section

variable {φ ψ : Type} {f : φ → Tokens} {P : φ → Prop} {u : List Char} (h : Spelled f P u)

include h

theorem Spelled.map {g : ψ → Tokens} {Q : ψ → Prop} (form : φ → ψ)
    (htokens : ∀ d, g (form d) = f d) (hQ : ∀ d, P d → Q (form d)) : Spelled g Q u := fun n => by
  obtain ⟨d, hd, hP⟩ := h n
  exact ⟨form d, htokens d ▸ hd, hQ d hP⟩

theorem Spelled.mono {Q : φ → Prop} (hPQ : ∀ d, P d → Q d) : Spelled f Q u :=
  h.map id (fun _ => rfl) hPQ

end

/-! ## Digits -/

theorem natOfDigits_toDigits (n : Nat) : Decimal.natOfDigits (Nat.toDigits 10 n) = n := by
  have h := Nat.ofDigitChars_ten_toDigits (n := n)
  rwa [Nat.ofDigitChars_eq_foldl] at h

theorem matches_toDigits (n : Nat) : Matches digits (Nat.toDigits 10 n) :=
  matches_digits_iff.2 ⟨Nat.toDigits_ne_nil, fun _ hc =>
    Nat.isDigit_of_mem_toDigits (by decide) (by decide) hc⟩

theorem takes_digits {w : List Char} (h : Matches digits w) : Takes rules w [] .integer := by
  obtain ⟨c, t, rfl, hc⟩ := exists_cons_of_digits h
  have hstart := not_isNameStart_of_isDigit hc
  have hwords : ∀ r ∈ rules.take 14, ¬ Matches r.2 (c :: t) := fun r hr hm => by
    rcases of_matches_words hr hm with hm | hm
    · obtain ⟨_, _, he, hc', -⟩ := matches_name_iff.1 hm
      cases he
      cases hstart.symm.trans hc'
    · obtain ⟨rfl, -⟩ := head_of_reference hm
      cases hc
  refine ⟨⟨c, t, rfl, not_isBlank_of hc (by decide)⟩,
    first_append (rules.drop 15) hwords h, fun r _ v hv _ => ?_⟩
  rw [List.append_nil] at hv
  exact hv.length_le

/-- In front of digits a minus takes nothing behind it. -/
theorem takes_minus {w : List Char} (h : Matches digits w) : Takes rules ['-'] w .minus := by
  have hminus : Takes rules ['-'] [] .minus := takes_of_best_eq (by decide) rfl
  refine ⟨hminus.solid, hminus.first, fun r hr v hv hm => ?_⟩
  obtain ⟨c, t, rfl, hc⟩ := exists_cons_of_digits h
  rcases List.prefix_cons_iff.1 hv with rfl | ⟨u, rfl, hu⟩
  · exact Nat.zero_le 1
  rcases List.prefix_cons_iff.1 hu with rfl | ⟨v, rfl, -⟩
  · exact Nat.le_refl 1
  · exfalso
    rcases matches_of_sign hr hm (w := []) (by decide) with h | ⟨d, hd, halpha⟩
    · cases ((of_mem_signs h).2 c (by simp)).2.1.symm.trans hc
    · cases hd
      cases (not_isNameStart_of_isDigit hc).symm.trans (isNameStart_of_isAlpha halpha)

/-! ## Integers -/

/-- The integers that can be read without a sign. -/
def IsIndex (i : Int) : Prop := ∃ n : Nat, i = n ∧ n ≤ maxInteger

theorem isIndex_of_fits {t : Token Word} (h : Fits t) : IsIndex (intOf t) := ⟨_, rfl, h⟩

theorem charsOfInt_natCast (n : Nat) : Decimal.charsOfInt n = Nat.toDigits 10 n :=
  if_neg (by omega)

theorem charsOfInt_neg {n : Nat} (hn : 0 < n) :
    Decimal.charsOfInt (-n) = '-' :: Nat.toDigits 10 n := by
  rw [Decimal.charsOfInt, if_pos (by omega), Int.natAbs_neg, Int.natAbs_natCast]

theorem spelled_integer {i : Int} (h : IsIndex i) :
    Spelled (fun t : Terminal .integer => [t.val]) (fun t => Fits t.val ∧ intOf t.val = i)
      (Decimal.charsOfInt i) := fun n => by
  obtain ⟨m, rfl, hm⟩ := h
  rw [charsOfInt_natCast]
  refine ⟨⟨⟨.integer, _, n⟩, rfl⟩, scans_takes (takes_digits (matches_toDigits m)), ?_, ?_⟩
  · rwa [Fits, natOfDigits_toDigits]
  · rw [intOf, natOfDigits_toDigits]

theorem spelled_signed {i : Int} (h : IsIndex i ∨ IsIndex (-i)) :
    Spelled SignedForm.tokens (fun d => Fits d.digits.val ∧ d.value = i)
      (Decimal.charsOfInt i) := fun n => by
  by_cases hi : IsIndex i
  · obtain ⟨t, ht, hP⟩ := spelled_integer hi n
    exact ⟨⟨none, t⟩, ht, hP⟩
  · obtain ⟨m, hm, hle⟩ := h.resolve_left hi
    obtain rfl : i = -(m : Int) := by omega
    have hpos : 0 < m := Nat.pos_of_ne_zero fun h0 => hi ⟨0, by omega, Nat.zero_le _⟩
    have hdigits := matches_toDigits m
    rw [charsOfInt_neg hpos]
    refine ⟨⟨some ⟨⟨.minus, ['-'], n⟩, rfl⟩, ⟨⟨.integer, _, _⟩, rfl⟩⟩,
      .token (takes_minus hdigits) (scans_takes (takes_digits hdigits)), ?_, ?_⟩
    · rwa [Fits, natOfDigits_toDigits]
    · rw [SignedForm.value, intOf, natOfDigits_toDigits]
      rfl

/-! ## Lists -/

theorem alone_comma : Alone rules ',' := alone_of_all (by decide +kernel)

theorem scans_comma {n : Nat} {u : List Char} {ts : Tokens} (h : Scans rules (n + 2) u ts) :
    Scans rules n (',' :: ' ' :: u) (⟨.comma, [','], n⟩ :: ts) :=
  .alone alone_comma (by decide) (takes_of_best_eq (by decide) rfl).first (.blank (by decide) h)

section

variable {α φ : Type} {f : φ → Tokens} {ok : φ → Prop} {value : φ → α} {write : α → List Char}
  {as : List α} (spelled : ∀ a ∈ as, Spelled f (fun d => ok d ∧ value d = a) (write a))

include spelled in
/-- Commas with a blank behind are written between the items. -/
theorem spelled_items (hne : as ≠ []) :
    Spelled (ItemsForm.tokens f) (fun l => (∀ d ∈ l.items, ok d) ∧ l.items.map value = as)
      (Leaf.comma.intercalate (as.map write)) := fun n => by
  induction as generalizing n with
  | nil => exact absurd rfl hne
  | cons a as ih =>
    obtain ⟨ha, has⟩ := List.forall_mem_cons.1 spelled
    obtain ⟨d, hd, hok, rfl⟩ := ha n
    cases as with
    | nil =>
      refine ⟨⟨d, []⟩, ?_, by simpa [ItemsForm.items] using hok, rfl⟩
      simpa [ItemsForm.tokens, ItemsForm.tailTokens] using hd
    | cons b as =>
      let m := n + byteLength (write (value d))
      obtain ⟨l, hl, hall, hvalues⟩ := ih has (by simp) (m + 2)
      refine ⟨⟨d, (some ⟨⟨.comma, [','], m⟩, rfl⟩, l.head) :: l.tail⟩, ?_, ?_, ?_⟩
      · rw [List.map_cons, List.map_cons, List.intercalate_cons_cons, ← List.map_cons,
          List.append_assoc]
        exact hd.append alone_comma (scans_comma hl)
      · exact List.forall_mem_cons.2 ⟨hok, hall⟩
      · rw [← hvalues]
        rfl

end

theorem spelled_integers {as : List Int} (hne : as ≠ []) (has : ∀ i ∈ as, IsIndex i) :
    Spelled IntegersForm.tokens (fun l => (∀ t ∈ l.integers, Fits t) ∧ l.values = as)
      (Leaf.listChars as) := by
  refine (spelled_items (fun i hi => spelled_integer (has i hi)) hne).mono fun l hl => ?_
  simpa [IntegersForm.integers, IntegersForm.values] using hl

theorem spelled_pair {p : Int × Int} (hgroup : IsIndex p.1) (hcell : IsIndex p.2) :
    Spelled PairForm.tokens (fun d => (∀ t ∈ d.integers, Fits t) ∧ d.value = p)
      (Leaf.pairChars p) := fun n => by
  obtain ⟨g, hg, hgf, hgv⟩ := spelled_integer hgroup (n + 1)
  let m := n + 1 + byteLength (Decimal.charsOfInt p.1)
  obtain ⟨c, hc, hcf, hcv⟩ := spelled_integer hcell (m + 2)
  have hinner := hg.append alone_comma (scans_comma hc)
  obtain ⟨o, e, hs⟩ := scans_parens hinner
  refine ⟨⟨o, g, ⟨⟨.comma, [','], m⟩, rfl⟩, c, e⟩, ?_, ?_, ?_⟩
  · simpa [Leaf.pairChars, Leaf.comma, PairForm.tokens] using hs
  · simpa [PairForm.integers] using ⟨hgf, hcf⟩
  · rw [PairForm.value, hgv, hcv]

theorem spelled_pairs {ps : List (Int × Int)} (hne : ps ≠ [])
    (hps : ∀ p ∈ ps, IsIndex p.1 ∧ IsIndex p.2) :
    Spelled (ItemsForm.tokens PairForm.tokens)
      (fun l => (∀ t ∈ l.items.flatMap PairForm.integers, Fits t) ∧
        l.items.map PairForm.value = ps)
      (Leaf.comma.intercalate (ps.map Leaf.pairChars)) := by
  refine (spelled_items (fun p hp => spelled_pair (hps p hp).1 (hps p hp).2) hne).mono
    fun l hl => ⟨fun t ht => ?_, hl.2⟩
  obtain ⟨d, hd, ht⟩ := List.mem_flatMap.1 ht
  exact hl.1 d hd t ht

end Selection

end Subdomain
