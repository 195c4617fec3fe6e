import Subdomain.Proofs.Lexical.Parentheses
import Subdomain.Proofs.Predicate.Settling

/-!
# The shape of predicates

The tokens of an expression are balanced, and their names are made of letters
(`Derives.shaped`). This is all that the selection language must know of a
predicate to delimit it.
-/

namespace Subdomain

namespace Predicate

open Lexical

theorem parenthesized : Parenthesized rules .openParen .closeParen where
  ne := by decide
  opens p h := by simpa [rules] using h
  closes p h := by simpa [rules] using h
  avoids := by decide +kernel

/-- A name is made of letters. -/
def Plain (t : Token Word) : Prop := t.kind = .identifier → ∀ c ∈ t.chars, c.isAlpha = true

structure Shaped (ts : Tokens) : Prop where
  level : ∀ n, tokenRise .openParen .closeParen n ts = some n
  plain : ∀ t ∈ ts, Plain t

namespace Shaped

theorem nil : Shaped [] := ⟨fun _ => rfl, nofun⟩

theorem append {ts us : Tokens} (ht : Shaped ts) (hu : Shaped us) : Shaped (ts ++ us) where
  level n := by rw [tokenRise_append, ht.level, Option.bind_some, hu.level]
  plain t h := (List.mem_append.1 h).elim (ht.plain t) (hu.plain t)

/-- A token that is no parenthesis stands in front. -/
theorem cons {t : Token Word} {ts : Tokens} (ho : t.kind ≠ .openParen) (hc : t.kind ≠ .closeParen)
    (hp : Plain t) (h : Shaped ts) : Shaped (t :: ts) where
  level n := by rw [tokenRise_other ho hc, h.level]
  plain := List.forall_mem_cons.2 ⟨hp, h.plain⟩

theorem parens {o c : Token Word} {ts : Tokens} (ho : o.kind = .openParen)
    (hc : c.kind = .closeParen) (h : Shaped ts) : Shaped (o :: (ts ++ [c])) where
  level n := by
    rw [tokenRise_open ho, tokenRise_append, h.level, Option.bind_some,
      tokenRise_close (by simp [hc]) hc]
    rfl
  plain := by
    refine List.forall_mem_cons.2 ⟨fun hk => by simp [ho] at hk, fun t ht => ?_⟩
    rcases List.mem_append.1 ht with ht | ht
    · exact h.plain t ht
    · cases List.mem_singleton.1 ht
      exact fun hk => by simp [hc] at hk

theorem operator {t : Token Word} {ts : Tokens} (hr : 0 < t.kind.rank) (h : Shaped ts) :
    Shaped (t :: ts) := by
  refine h.cons (fun hk => ?_) (fun hk => ?_) fun hk => ?_
  all_goals simp [hk, Word.rank] at hr

end Shaped

theorem isAlpha_of_constant? {name : List Char} {e : Expr} (h : constant? name = some e) :
    ∀ c ∈ name, c.isAlpha = true := by
  unfold constant? at h
  split at h
  · subst name; exact List.all_eq_true.1 rfl
  split at h
  · subst name; exact List.all_eq_true.1 rfl
  split at h
  · subst name; exact List.all_eq_true.1 rfl
  split at h
  · subst name; exact List.all_eq_true.1 rfl
  · cases h

theorem shaped_literal {t : Token Word} {e : Expr} (h : leaf? t = some e) : Shaped [t] := by
  have hp : Plain t := fun hk => isAlpha_of_constant? (leaf?_of_identifier hk ▸ h)
  refine Shaped.nil.cons ?_ ?_ hp
  all_goals rcases kind_of_leaf? h with hk | hk | hk | hk <;> simp [hk]

theorem plain_of_function? {t : Token Word} {f : MathFunction} (h : function? t = some f) :
    Plain t := fun _ => by
  rw [(chars_of_function? h).2]
  cases f <;> exact List.all_eq_true.1 rfl

/-! ## Derived tokens -/

mutual

theorem Derives.shaped {l : Level} {ts : Tokens} {e : Expr} (h : Derives l ts e) : Shaped ts := by
  match h with
  | .chain h hr => exact h.shaped.append hr.shaped
  | .compared h | .single h | .unsigned h | .base h => exact h.shaped
  | .compl hop h =>
    exact h.shaped.cons (by simp [hop]) (by simp [hop]) fun hk => by simp [hop] at hk
  | .plus hop h | .minus hop h => exact h.shaped.operator (by simp [hop, Word.rank])
  | .compare h hl => exact h.shaped.append hl.shaped
  | .power h hop he => exact h.shaped.append (he.shaped.operator (by simp [hop, Word.rank]))
  | .literal ht => exact shaped_literal ht
  | .parens ho h hc => exact h.shaped.parens ho hc
  | .call ht ho h hc =>
    have hk := kind_of_function? ht
    exact (h.shaped.parens ho hc).cons (by simp [hk]) (by simp [hk]) (plain_of_function? ht)

theorem DerivesRest.shaped {k : Chain} {left e : Expr} {ts : Tokens}
    (h : DerivesRest k left ts e) : Shaped ts := by
  match h with
  | .done => exact .nil
  | .more hop h hr =>
    refine (h.shaped.append hr.shaped).operator ?_
    rw [rank_of_node? hop]
    cases k <;> decide

theorem DerivesLinks.shaped {ts : Tokens} {ls : Links} (h : DerivesLinks ts ls) : Shaped ts := by
  match h with
  | .nil => exact .nil
  | .cons hop h hl =>
    exact (h.shaped.append hl.shaped).operator (by simp [rank_of_comparison? hop])

end

end Predicate

end Subdomain
