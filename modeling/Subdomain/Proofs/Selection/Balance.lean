import Subdomain.Proofs.Predicate.Balance
import Subdomain.Proofs.Selection.Openings

/-!
# Levels given back

What holds of the depth of both readers: it comes back with everything that is read, no
level is given back that has not been taken, and what is complete has no part in how
deep the rest goes, but for the operators of chains in a predicate, each of which takes a
level until its chain is done (`depth_balanced`).
-/

namespace Subdomain

namespace Selection

open Predicate (TooDeep not_tooDeep_ok)

variable {s : Source} {i : Nat} {c d : Cursor Word}

/-- One term stands between the cursors, and the operator behind it. -/
def Combined (s : Source) (c d : Cursor Word) : Prop :=
  ∃ (left : Parsed Word Tree c) (op : Parsed Word SetOperator left.next),
    term s c = .ok left ∧ operator? s left.next = .ok (some op) ∧ op.next = d

/-- A term in parentheses that began at `c` gives back its level at `d`. -/
inductive Releases (s : Source) : Cursor Word → Cursor Word → Prop where
  | parens {c : Cursor Word} {paren : Parsed Word (Token Word) c}
      {e : Parsed Word Tree (paren.atDepth (c.depth + 1)).next}
      {close : Parsed Word (Token Word) e.next} : c.eat? .openParen = some paren →
      c.depth ≠ maxDepth → expr s (paren.atDepth (c.depth + 1)).next = .ok e →
      e.next.expect s.length .closeParen .expectedClose = .ok close → Releases s c close.next

theorem depth_of_term {p : Parsed Word Tree c} (h : term s c = .ok p) (hd : c.depth ≤ maxDepth) :
    p.next.depth = c.depth := by
  obtain ⟨_, _, hdepth, _⟩ := term_sound ⟨p, h, rfl, rfl⟩ hd
  exact hdepth.symm

theorem depth_of_combined (h : Combined s c d) (hd : c.depth ≤ maxDepth) : d.depth = c.depth := by
  obtain ⟨left, op, hleft, hop, rfl⟩ := h
  obtain ⟨_, -, hdo, -⟩ := of_operator? hop
  rw [← hdo, depth_of_term hleft hd]

theorem tooDeep_iff_of_combined (h : Combined s c d) : TooDeep (expr s c) ↔ TooDeep (expr s d) := by
  obtain ⟨left, op, hleft, hop, rfl⟩ := h
  rw [tooDeep_expr, hleft, or_iff_right not_tooDeep_ok]
  constructor
  · rintro ⟨_, ⟨⟩, htail⟩
    exact (tooDeep_exprTail hop).1 htail
  · exact fun hdeep => ⟨left, rfl, (tooDeep_exprTail hop).2 hdeep⟩

theorem Releases.depth_eq (h : Releases s c d) (hd : c.depth ≤ maxDepth) :
    d.depth = c.depth + 1 := by
  cases h with
  | parens hparen hne he hclose =>
    obtain ⟨_, _, hde, _⟩ := expr_sound ⟨_, he, rfl, rfl⟩ (show c.depth + 1 ≤ maxDepth by omega)
    obtain ⟨-, -, hdc⟩ := Cursor.gives_expect.1 ⟨_, hclose, rfl, rfl⟩
    rw [← hdc, ← hde]
    rfl

/-- From a place in the tokens on the reader of selections keeps the depth. -/
structure KeepsDepth (s : Source) (ts : Tokens) (place depth : Nat) : Prop where
  returns_expr : Returns ts place depth (expr s ⟨ts.drop place, depth⟩)
  returns_term : Returns ts place depth (term s ⟨ts.drop place, depth⟩)
  /-- The level that a term gives back is the one that it has taken. -/
  released : ∀ d, Releases s ⟨ts.drop place, depth⟩ d → d.depth = depth + 1
  /-- Terms in front take no level. -/
  terms : ∀ i d, Siblings (Combined s) ⟨ts.drop place, depth⟩ i d → d.depth = depth ∧
    (TooDeep (expr s ⟨ts.drop place, depth⟩) ↔ TooDeep (expr s d))
  /-- Only parentheses that are open count, and what predicates hold. -/
  tooDeep_iff : TooDeep (expr s ⟨ts.drop place, depth⟩) ↔ Exceeds s (ts.drop place) depth

theorem keepsDepth (s : Source) (ts : Tokens) (place : Nat) {depth : Nat}
    (hd : depth ≤ maxDepth) : KeepsDepth s ts place depth where
  returns_expr := returns_of_gives fun _ _ h => by
    obtain ⟨d, hr, hdepth, -⟩ := expr_sound h hd
    exact ⟨d.tokens, hr, hdepth⟩
  returns_term := returns_of_gives fun _ _ h => by
    obtain ⟨d, hr, hdepth, -⟩ := term_sound h hd
    exact ⟨d.tokens, hr, hdepth⟩
  released _ h := h.depth_eq hd
  terms _ _ h := ⟨h.depth_eq fun _ _ hdepth hde => depth_of_combined hde (hdepth ▸ hd),
    h.iff fun _ _ => tooDeep_iff_of_combined⟩
  tooDeep_iff := expr_tooDeep_iff hd

end Selection

/-- At every depth that is allowed the readers of predicates and of selections come back to the
depth at which they began, further on in the tokens, and give back no level that they have not
taken. A text is rejected for its depth just if more than `maxDepth` levels are open behind some
beginning of it, or of a predicate in it. What is complete opens none, but for the operators of a
chain in a predicate, each of which takes one until the chain is done. -/
theorem depth_balanced {depth : Nat} (hd : depth ≤ maxDepth) (place : Nat) :
    (∀ n ts, Predicate.KeepsDepth n ts place depth) ∧
    (∀ s ts, Selection.KeepsDepth s ts place depth) ∧
    (∀ text, (∃ e, Predicate.ofText text = .error e ∧ e.cause = .nestedTooDeeply) ↔
      ∃ ts, Predicate.tokens text = .ok ts ∧
        Predicate.Exceeds (Predicate.Opens (.chain .disjunction)) ts 0) ∧
    ∀ text, (∃ e, Selection.parse text = .error e ∧ e.cause = .nestedTooDeeply) ↔
      ∃ ts, Selection.tokens text = .ok ts ∧ Selection.Exceeds (.ofChars text) ts 0 :=
  ⟨fun n ts => Predicate.keepsDepth n ts place hd, fun s ts => Selection.keepsDepth s ts place hd,
    fun _ => Predicate.ofText_tooDeep_iff.trans Predicate.parse_tooDeep_iff,
    fun _ => Selection.parse_tooDeep_iff.trans Selection.parseTree_tooDeep_iff⟩

/-- The sum behind a parenthesis takes the last two levels, and its reader gives both back. -/
theorem depth_balanced_sum : 62 ≤ maxDepth ∧
    ∃ ts p, Predicate.tokens "(x + -y".toList = .ok ts ∧
      Predicate.chain 7 .sum ⟨ts.drop 1, 62⟩ = .ok p ∧ p.next.depth = 62 := by
  have hd : 62 ≤ maxDepth := by decide
  obtain ⟨ts, hts, hread⟩ : ∃ ts, Predicate.tokens "(x + -y".toList = .ok ts ∧
      (Predicate.chain 7 .sum ⟨ts.drop 1, 62⟩).isOk = true :=
    ⟨_, rfl, by decide +kernel⟩
  cases hp : Predicate.chain 7 .sum ⟨ts.drop 1, 62⟩ with
  | error f =>
    rw [hp] at hread
    cases hread
  | ok p =>
    obtain ⟨hdepth, -⟩ := ((depth_balanced hd 1).1 7 ts).returns (.chain .sum) p hp
    exact ⟨hd, ts, p, hts, hp, hdepth⟩

/-- The text of `x` as an operand of a sum, `i` times, and behind it of `x` with 63 signs. -/
def behindOperands (i : Nat) : List Char :=
  (List.replicate i ['x', '+']).flatten ++ (List.replicate 63 '-' ++ ['x'])

/-- One operand leaves the signs behind it their levels, and two do not. -/
theorem tooDeep_behindOperands : ¬ ∀ i j, Predicate.TooDeep (Predicate.parse (behindOperands i)) ↔
    Predicate.TooDeep (Predicate.parse (behindOperands j)) := by
  intro h
  have hone : ¬ Predicate.TooDeep (Predicate.parse (behindOperands 1)) := by decide +kernel
  have htwo : Predicate.TooDeep (Predicate.parse (behindOperands 2)) := by decide +kernel
  exact hone ((h 1 2).2 htwo)

end Subdomain
