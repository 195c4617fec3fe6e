import Subdomain.Proofs.Lexical.Cuts

/-!
# Counting parentheses

`rise` counts the parentheses that are open behind a text, or behind tokens. The
two counts agree for rules whose only tokens with a parenthesis are the
parentheses themselves (`Scans.rise_eq`), so that different rules find the same
parentheses in a text.
-/

namespace Subdomain

namespace Lexical

section

variable {α : Type} {opens closes : α → Bool}

/-- How many parentheses are open behind `as` if `n` are open in front, or none if `as` closes more
than are open. -/
def rise (opens closes : α → Bool) : Nat → List α → Option Nat
  | n, [] => some n
  | n, a :: as =>
    if opens a then rise opens closes (n + 1) as
    else if closes a then if n = 0 then none else rise opens closes (n - 1) as
    else rise opens closes n as

theorem rise_open {n : Nat} {a : α} {as : List α} (h : opens a = true) :
    rise opens closes n (a :: as) = rise opens closes (n + 1) as := if_pos h

theorem rise_close {n : Nat} {a : α} {as : List α} (ho : opens a = false) (hc : closes a = true) :
    rise opens closes (n + 1) (a :: as) = rise opens closes n as := by
  rw [rise, ho, if_neg Bool.false_ne_true, if_pos hc, if_neg (Nat.succ_ne_zero n),
    Nat.add_sub_cancel]

theorem rise_zero_close {a : α} {as : List α} (ho : opens a = false) (hc : closes a = true) :
    rise opens closes 0 (a :: as) = none := by
  rw [rise, ho, if_neg Bool.false_ne_true, if_pos hc, if_pos rfl]

theorem rise_other {n : Nat} {a : α} {as : List α} (ho : opens a = false)
    (hc : closes a = false) : rise opens closes n (a :: as) = rise opens closes n as := by
  rw [rise, ho, hc, if_neg Bool.false_ne_true, if_neg Bool.false_ne_true]

theorem rise_append {n : Nat} {as bs : List α} : rise opens closes n (as ++ bs) =
    (rise opens closes n as).bind fun m => rise opens closes m bs := by
  induction as generalizing n with
  | nil => rfl
  | cons a as ih =>
    simp only [List.cons_append, rise]
    repeat' split
    all_goals first | exact ih | rfl

theorem rise_of_forall {as : List α} (ho : ∀ a ∈ as, opens a = false)
    (hc : ∀ a ∈ as, closes a = false) (n : Nat) : rise opens closes n as = some n := by
  induction as with
  | nil => rfl
  | cons a as ih =>
    obtain ⟨hoa, ho⟩ := List.forall_mem_cons.1 ho
    obtain ⟨hca, hc⟩ := List.forall_mem_cons.1 hc
    rw [rise_other hoa hca, ih ho hc]

end

/-! ## Texts and tokens -/

/-- The count of parentheses in a text. -/
def textRise : Nat → List Char → Option Nat := rise (· == '(') (· == ')')

section

variable {κ : Type} {rules : List (κ × Pattern)} {opening closing : κ}

/-- The parentheses are tokens of two kinds, and no other token contains one. -/
structure Parenthesized (rules : List (κ × Pattern)) (opening closing : κ) : Prop where
  ne : opening ≠ closing
  opens : ∀ p, (opening, p) ∈ rules → p = .char '('
  closes : ∀ p, (closing, p) ∈ rules → p = .char ')'
  avoids : ∀ r ∈ rules, r.1 ≠ opening → r.1 ≠ closing →
    r.2.avoids '(' = true ∧ r.2.avoids ')' = true

namespace Parenthesized

variable (h : Parenthesized rules opening closing)
include h

theorem chars_opening {w : List Char} (hw : First w rules opening) : w = ['('] := by
  obtain ⟨p, hp, hm⟩ := hw.exists_mem
  rw [h.opens p hp] at hm
  exact Pattern.matches_char_iff.1 hm

theorem chars_closing {w : List Char} (hw : First w rules closing) : w = [')'] := by
  obtain ⟨p, hp, hm⟩ := hw.exists_mem
  rw [h.closes p hp] at hm
  exact Pattern.matches_char_iff.1 hm

theorem not_mem {w : List Char} {k : κ} (hw : First w rules k) (ho : k ≠ opening)
    (hc : k ≠ closing) : '(' ∉ w ∧ ')' ∉ w := by
  obtain ⟨p, hp, hm⟩ := hw.exists_mem
  obtain ⟨hao, hac⟩ := h.avoids _ hp ho hc
  exact ⟨Pattern.not_mem_of_avoids hao hm, Pattern.not_mem_of_avoids hac hm⟩

end Parenthesized

variable [DecidableEq κ]

/-- The count of parentheses in tokens. -/
def tokenRise (opening closing : κ) : Nat → List (Token κ) → Option Nat :=
  rise (·.kind == opening) (·.kind == closing)

section

variable {n : Nat} {t : Token κ} {ts : List (Token κ)}

theorem tokenRise_open (h : t.kind = opening) :
    tokenRise opening closing n (t :: ts) = tokenRise opening closing (n + 1) ts :=
  rise_open (beq_iff_eq.2 h)

theorem tokenRise_close (ho : t.kind ≠ opening) (hc : t.kind = closing) :
    tokenRise opening closing (n + 1) (t :: ts) = tokenRise opening closing n ts :=
  rise_close (beq_false_of_ne ho) (beq_iff_eq.2 hc)

theorem tokenRise_zero_close (ho : t.kind ≠ opening) (hc : t.kind = closing) :
    tokenRise opening closing 0 (t :: ts) = none :=
  rise_zero_close (beq_false_of_ne ho) (beq_iff_eq.2 hc)

theorem tokenRise_other (ho : t.kind ≠ opening) (hc : t.kind ≠ closing) :
    tokenRise opening closing n (t :: ts) = tokenRise opening closing n ts :=
  rise_other (beq_false_of_ne ho) (beq_false_of_ne hc)

theorem tokenRise_append {us : List (Token κ)} : tokenRise opening closing n (ts ++ us) =
    (tokenRise opening closing n ts).bind fun m => tokenRise opening closing m us :=
  rise_append

end

theorem textRise_token (h : Parenthesized rules opening closing) {w : List Char} {k : κ}
    (hw : First w rules k) {n m : Nat} {s : List Char} {ts : List (Token κ)}
    (hrest : ∀ n, textRise n s = tokenRise opening closing n ts) :
    textRise n (w ++ s) = tokenRise opening closing n (⟨k, w, m⟩ :: ts) := by
  by_cases ho : k = opening
  · cases h.chars_opening (ho ▸ hw)
    rw [tokenRise_open (show Token.kind ⟨k, _, m⟩ = _ from ho), ← hrest]
    rfl
  by_cases hc : k = closing
  · cases h.chars_closing (hc ▸ hw)
    cases n with
    | zero =>
      simp [textRise, tokenRise, rise, hc, h.ne.symm]
    | succ n =>
      rw [tokenRise_close (show Token.kind ⟨k, _, m⟩ ≠ _ from ho) hc, ← hrest]
      rfl
  · obtain ⟨hwo, hwc⟩ := h.not_mem hw ho hc
    have hlevel : rise (· == '(') (· == ')') n w = some n := by
      refine rise_of_forall (fun c hc => ?_) (fun c hc => ?_) n
      · exact beq_false_of_ne fun e => hwo (e ▸ hc)
      · exact beq_false_of_ne fun e => hwc (e ▸ hc)
    rw [tokenRise_other (show Token.kind ⟨k, _, m⟩ ≠ _ from ho) hc, ← hrest, textRise,
      rise_append, hlevel, Option.bind_some]

/-- A text has the parentheses of its tokens. -/
theorem Scans.rise_eq (hp : Parenthesized rules opening closing) {m : Nat} {s : List Char}
    {ts : List (Token κ)} (h : Scans rules m s ts) (n : Nat) :
    textRise n s = tokenRise opening closing n ts := by
  induction h generalizing n with
  | done => rfl
  | @blank _ c _ _ hc _ ih =>
    have ho : c ≠ '(' := fun e => by simp [e, isBlank] at hc
    have hcl : c ≠ ')' := fun e => by simp [e, isBlank] at hc
    rw [← ih n]
    exact rise_other (show (c == '(') = false from beq_false_of_ne ho)
      (show (c == ')') = false from beq_false_of_ne hcl)
  | token hw _ ih => exact textRise_token hp hw.first ih

end

end Lexical

end Subdomain
