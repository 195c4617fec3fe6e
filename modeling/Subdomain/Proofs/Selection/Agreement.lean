import Subdomain.Proofs.Selection.Texts

/-!
# What both languages call a predicate

A predicate in parentheses behind `vertices in` is read as the leaf of that
predicate (`parse_verticesIn`): the tokens of selections neither reject a
predicate nor cut it short.
-/

namespace Subdomain

namespace Selection

/-- If a text is a predicate, and in parentheses still does not nest too deep, then the words
`vertices in` and the text in parentheses are a selection, of just the vertices in that predicate. -/
theorem parse_verticesIn {P : List Char} {q p : Predicate} (hP : Predicate.ofText P = .ok q)
    (hparens : Predicate.ofText ('(' :: (P ++ [')'])) = .ok p) :
    parse ("vertices in (".toList ++ (P ++ [')'])) = .ok [.push (.verticesIn p)] := by
  rw [Predicate.ofText_eq_ok_iff] at hP hparens
  have hpredicate : IsPredicate ('(' :: (P ++ [')'])) :=
    (isClause_parens hP).isPredicate Lexical.solid_parens
  have htext := (leafText_verticesIn hpredicate).term.expr.mono (Nat.zero_le maxDepth)
  rw [hparens] at htext
  exact htext.parse_eq_ok_iff.2 ⟨_, rfl, rfl⟩

/-- Signs in front of letters, a power, a number with a point and an exponent, and words. -/
theorem parse_verticesIn_signs :
    ∃ p, Predicate.ofText ('(' :: ("-y**2.5e-1<+x*z and not x+y>pi".toList ++ [')'])) = .ok p ∧
      parse ("vertices in (".toList ++ ("-y**2.5e-1<+x*z and not x+y>pi".toList ++ [')'])) =
        .ok [.push (.verticesIn p)] := by
  obtain ⟨q, hq⟩ : ∃ q, Predicate.ofText "-y**2.5e-1<+x*z and not x+y>pi".toList = .ok q :=
    exists_ok_of_isSome (by decide +kernel)
  obtain ⟨p, hp⟩ :
      ∃ p, Predicate.ofText ('(' :: ("-y**2.5e-1<+x*z and not x+y>pi".toList ++ [')'])) = .ok p :=
    exists_ok_of_isSome (by decide +kernel)
  exact ⟨p, hp, parse_verticesIn hq hp⟩

end Selection

end Subdomain
