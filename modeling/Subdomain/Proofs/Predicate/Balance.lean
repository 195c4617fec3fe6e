import Subdomain.Proofs.Lexical.Balance
import Subdomain.Proofs.Predicate.Openings

/-!
# Levels given back in predicates

Each reader of predicates gives back the levels that it has taken, at the end of a chain one
for each of its operators (`Releases`). There are as many to give back as are given back
(`Releases.depth_eq`), so that the depth is the same again when a reader is done. What
stands in front of an operator then counts just the level of this operator, however
deep it was itself, and in front of a comparison nothing (`Chain.tooDeep_iff_of_joined`,
`tooDeep_iff_of_compared`).
-/

namespace Subdomain

namespace Predicate

section

variable {n i : Nat} {k : Chain} {c d : Cursor Word}

/-! ## Readers that come back -/

theorem read_sound {l : Level} {e : Expr} (h : Gives (l.read n c) e d) :
    ∃ ts, c.rest = ts ++ d.rest ∧ c.depth = d.depth := by
  have hderived : ∃ ts, c.rest = ts ++ d.rest ∧ c.depth = d.depth ∧
      DerivesIn (maxDepth - c.depth) l ts e := by
    cases l with
    | chain k => exact chain_sound h
    | negation => exact negation_sound h
    | comparison => exact comparison_sound h
    | unary => exact unary_sound h
    | power => exact power_sound h
    | atom => exact atom_sound h
  obtain ⟨ts, hr, hd, -⟩ := hderived
  exact ⟨ts, hr, hd⟩

theorem depth_of_read {l : Level} {p : Parsed Word Expr c} (h : l.read n c = .ok p) :
    p.next.depth = c.depth := by
  obtain ⟨_, _, hd⟩ := read_sound ⟨p, h, rfl, rfl⟩
  exact hd.symm

/-! ## Parts in front of an operator -/

theorem of_descend_ok {α : Type} {p q : Parsed Word α c} (h : descend n p = .ok q) :
    p.next.depth < maxDepth ∧ q.next = ⟨p.next.rest, p.next.depth + 1⟩ := by
  unfold descend at h
  dsimp only at h
  split at h
  · cases h
  · rename_i hdepth
    cases h
    exact ⟨Nat.not_lt.1 hdepth, rfl⟩

/-- One operand of the chain stands between the cursors, and the operator behind it. -/
def Chain.Joined (n : Nat) (k : Chain) (c d : Cursor Word) : Prop :=
  ∃ (left : Parsed Word Expr c) (op op' : Parsed Word (Expr → Expr → Expr) left.next),
    operand n k c = .ok left ∧ left.next.take? k.node? = some op ∧ descend n op = .ok op' ∧
      op'.next = d

/-- One side of a comparison stands between the cursors, and the operator behind it. -/
def Compared (n : Nat) (c d : Cursor Word) : Prop :=
  ∃ (left : Parsed Word Expr c) (op : Parsed Word Comparison left.next),
    chain n .sum c = .ok left ∧ left.next.take? comparison? = some op ∧ op.next = d

/-- Of an operand and the operator behind it only the operator takes a level. -/
theorem Chain.depth_of_joined (h : k.Joined n c d) : d.depth = c.depth + 1 := by
  obtain ⟨left, op, op', hleft, hop, hop', rfl⟩ := h
  rw [operand_eq_read] at hleft
  obtain ⟨t, -, hdt, -⟩ := Cursor.of_take? hop
  rw [(of_descend_ok hop').2, ← depth_of_read hleft, hdt]

theorem Chain.tooDeep_iff_of_joined (h : k.Joined n c d) :
    TooDeep (chain n k c) ↔ TooDeep (chain n k d) := by
  obtain ⟨left, op, op', hleft, hop, hop', rfl⟩ := h
  obtain ⟨hlt, hnext⟩ := of_descend_ok hop'
  rw [tooDeep_chain, hleft, or_iff_right not_tooDeep_ok, hnext]
  constructor
  · rintro ⟨_, ⟨⟩, htail⟩
    exact (tooDeep_chainTail hop).1 htail hlt
  · exact fun hdeep => ⟨left, rfl, (tooDeep_chainTail hop).2 fun _ => hdeep⟩

theorem depth_of_compared (h : Compared n c d) : d.depth = c.depth := by
  obtain ⟨left, op, hleft, hop, rfl⟩ := h
  obtain ⟨t, -, hdt, -⟩ := Cursor.of_take? hop
  rw [← hdt, depth_of_read (l := .chain .sum) hleft]

theorem tooDeep_iff_of_compared (h : Compared n c d) :
    TooDeep (comparison n c) ↔ TooDeep (comparison n d) := by
  obtain ⟨left, op, hleft, hop, rfl⟩ := h
  rw [tooDeep_comparison, hleft, or_iff_right not_tooDeep_ok]
  constructor
  · rintro ⟨_, ⟨⟩, hlinks⟩
    exact (tooDeep_links hop).1 hlinks
  · exact fun hdeep => ⟨left, rfl, (tooDeep_links hop).2 hdeep⟩

/-! ## Levels given back -/

/-- A reader that began at `c` gives back `i` levels at `d`: a chain behind its last operand those
of its operators, all others the one that they have taken. -/
inductive Releases (n : Nat) : Cursor Word → Nat → Cursor Word → Prop where
  | chain {k : Chain} {i : Nat} {c d : Cursor Word} {e : Parsed Word Expr d} :
      Siblings (k.Joined n) c i d → operand n k d = .ok e → e.next.take? k.node? = none →
      Releases n c i e.next
  | negation {c : Cursor Word} {op op' : Parsed Word (Token Word) c}
      {e : Parsed Word Expr op'.next} : c.eat? .notWord = some op → descend n op = .ok op' →
      negation n op'.next = .ok e → Releases n c 1 e.next
  | sign {c : Cursor Word} {sign sign' : Parsed Word (Expr → Expr) c}
      {e : Parsed Word Expr sign'.next} : c.take? sign? = some sign →
      descend n sign = .ok sign' → unary n sign'.next = .ok e → Releases n c 1 e.next
  | power {c : Cursor Word} {base : Parsed Word Expr c}
      {op op' : Parsed Word (Token Word) base.next} {e : Parsed Word Expr op'.next} :
      atom n c = .ok base → base.next.eat? .power = some op → descend n op = .ok op' →
      unary n op'.next = .ok e → Releases n c 1 e.next
  | group {c : Cursor Word} {paren inner : Parsed Word (Token Word) c}
      {e : Parsed Word Expr inner.next} {close : Parsed Word (Token Word) e.next} :
      descend n paren = .ok inner → Predicate.chain n .disjunction inner.next = .ok e →
      e.next.expect n .closeParen .expectedClose = .ok close →
      Releases n paren.next 1 close.next

/-- The levels that are given back have been taken since the reader began, and no others. -/
theorem Releases.depth_eq (h : Releases n c i d) : d.depth = c.depth + i := by
  cases h with
  | chain hs he _ =>
    rw [operand_eq_read] at he
    rw [depth_of_read he, hs.depth_eq_add fun _ _ => Chain.depth_of_joined]
  | negation hop hop' he =>
    obtain ⟨-, -, hdo⟩ := Cursor.of_eat? hop
    rw [depth_of_read (l := .negation) he, (of_descend_ok hop').2, hdo]
  | sign hsign hsign' he =>
    obtain ⟨t, -, hds, -⟩ := Cursor.of_take? hsign
    rw [depth_of_read (l := .unary) he, (of_descend_ok hsign').2, hds]
  | power hbase hop hop' he =>
    obtain ⟨-, -, hdo⟩ := Cursor.of_eat? hop
    rw [depth_of_read (l := .unary) he, (of_descend_ok hop').2, ← hdo,
      depth_of_read (l := .atom) hbase]
  | group hinner he hclose =>
    obtain ⟨-, -, hdc⟩ := Cursor.gives_expect.1 ⟨_, hclose, rfl, rfl⟩
    rw [← hdc, depth_of_read (l := .chain .disjunction) he, (of_descend_ok hinner).2]

theorem exists_release_of_chainTail {left p : Parsed Word Expr c} {b : Cursor Word}
    {e : Parsed Word Expr d} (hs : Siblings (k.Joined n) b i d) (he : operand n k d = .ok e)
    (hnext : left.next = e.next) (h : chainTail n k left i = .ok p) :
    ∃ j a, Releases n b j a ∧ p.next = ⟨a.rest, a.depth - j⟩ := by
  induction hlen : left.next.rest.length using Nat.strongRecOn generalizing left d i with
  | ind len ih =>
    obtain ⟨v, next, hshort⟩ := left
    cases hnext
    rw [chainTail] at h
    split at h
    · rename_i hnone
      cases h
      exact ⟨i, e.next, .chain hs he hnone, rfl⟩
    · rename_i op hop
      obtain ⟨op', hop', h⟩ := exists_ok_of_bind h
      obtain ⟨right, hright, h⟩ := exists_ok_of_bind h
      have hlt : right.next.rest.length < e.next.rest.length :=
        Nat.lt_trans right.shorter op'.shorter
      exact ih _ (hlen ▸ hlt) (hs.succ ⟨e, op, op', he, hop, hop', rfl⟩) hright rfl h rfl

/-- A chain that is read gives back the levels of its operators at its end. -/
theorem exists_release_of_chain {p : Parsed Word Expr c} (h : chain n k c = .ok p) :
    ∃ i d, Releases n c i d ∧ p.next = ⟨d.rest, d.depth - i⟩ := by
  rw [chain] at h
  obtain ⟨left, hleft, h⟩ := exists_ok_of_bind h
  exact exists_release_of_chainTail .zero hleft rfl h

theorem exists_release_of_negation {op : Parsed Word (Token Word) c} {p : Parsed Word Expr c}
    (hop : c.eat? .notWord = some op) (h : negation n c = .ok p) :
    ∃ d, Releases n c 1 d ∧ p.next = ⟨d.rest, d.depth - 1⟩ := by
  rw [negation, hop] at h
  obtain ⟨op', hop', h⟩ := exists_ok_of_bind h
  obtain ⟨e, he, h⟩ := exists_ok_of_bind h
  cases h
  exact ⟨e.next, .negation hop hop' he, rfl⟩

theorem exists_release_of_unary {sign : Parsed Word (Expr → Expr) c} {p : Parsed Word Expr c}
    (hsign : c.take? sign? = some sign) (h : unary n c = .ok p) :
    ∃ d, Releases n c 1 d ∧ p.next = ⟨d.rest, d.depth - 1⟩ := by
  rw [unary, hsign] at h
  obtain ⟨sign', hsign', h⟩ := exists_ok_of_bind h
  obtain ⟨e, he, h⟩ := exists_ok_of_bind h
  cases h
  exact ⟨e.next, .sign hsign hsign' he, rfl⟩

theorem exists_release_of_power {base p : Parsed Word Expr c}
    {op : Parsed Word (Token Word) base.next} (hbase : atom n c = .ok base)
    (hop : base.next.eat? .power = some op) (h : power n c = .ok p) :
    ∃ d, Releases n c 1 d ∧ p.next = ⟨d.rest, d.depth - 1⟩ := by
  rw [power] at h
  obtain ⟨base', hbase', h⟩ := exists_ok_of_bind h
  cases hbase.symm.trans hbase'
  simp only [hop] at h
  obtain ⟨op', hop', h⟩ := exists_ok_of_bind h
  obtain ⟨e, he, h⟩ := exists_ok_of_bind h
  cases h
  exact ⟨e.next, .power hbase hop hop' he, rfl⟩

theorem exists_release_of_group {paren : Parsed Word (Token Word) c} {p : Parsed Word Expr c}
    (h : group n paren = .ok p) :
    ∃ d, Releases n paren.next 1 d ∧ p.next = ⟨d.rest, d.depth - 1⟩ := by
  rw [group] at h
  obtain ⟨inner, hinner, h⟩ := exists_ok_of_bind h
  obtain ⟨e, he, h⟩ := exists_ok_of_bind h
  obtain ⟨close, hclose, h⟩ := exists_ok_of_bind h
  cases h
  exact ⟨close.next, .group hinner he hclose, rfl⟩

end

/-! ## What readers of predicates keep -/

/-- From a place in the tokens on the readers of predicates keep the depth. -/
structure KeepsDepth (n : Nat) (ts : Tokens) (place depth : Nat) : Prop where
  returns : ∀ l : Level, Returns ts place depth (l.read n ⟨ts.drop place, depth⟩)
  returns_name : Returns ts place depth (name n ⟨ts.drop place, depth⟩)
  /-- The levels that a reader gives back are those that it has taken. -/
  released : ∀ i d, Releases n ⟨ts.drop place, depth⟩ i d → d.depth = depth + i
  releases_chain : ∀ k p, chain n k ⟨ts.drop place, depth⟩ = .ok p →
    ∃ i d, Releases n ⟨ts.drop place, depth⟩ i d ∧ p.next = ⟨d.rest, d.depth - i⟩
  releases_negation : ∀ op p, Cursor.eat? .notWord ⟨ts.drop place, depth⟩ = some op →
    negation n ⟨ts.drop place, depth⟩ = .ok p →
      ∃ d, Releases n ⟨ts.drop place, depth⟩ 1 d ∧ p.next = ⟨d.rest, d.depth - 1⟩
  releases_unary : ∀ sign p, Cursor.take? sign? ⟨ts.drop place, depth⟩ = some sign →
    unary n ⟨ts.drop place, depth⟩ = .ok p →
      ∃ d, Releases n ⟨ts.drop place, depth⟩ 1 d ∧ p.next = ⟨d.rest, d.depth - 1⟩
  releases_power : ∀ base op p, atom n ⟨ts.drop place, depth⟩ = .ok base →
    base.next.eat? .power = some op → power n ⟨ts.drop place, depth⟩ = .ok p →
      ∃ d, Releases n ⟨ts.drop place, depth⟩ 1 d ∧ p.next = ⟨d.rest, d.depth - 1⟩
  /-- The parenthesis that opens the group stands in front of the place. -/
  releases_group : ∀ (c : Cursor Word) (paren : Parsed Word (Token Word) c) p,
    paren.next = ⟨ts.drop place, depth⟩ → group n paren = .ok p →
      ∃ d, Releases n ⟨ts.drop place, depth⟩ 1 d ∧ p.next = ⟨d.rest, d.depth - 1⟩
  /-- Operands in front take as many levels as operators stand behind them. -/
  operands : ∀ k i d, Siblings (k.Joined n) ⟨ts.drop place, depth⟩ i d → d.depth = depth + i ∧
    (TooDeep (chain n k ⟨ts.drop place, depth⟩) ↔ TooDeep (chain n k d))
  /-- Sides of a comparison in front take none. -/
  sides : ∀ i d, Siblings (Compared n) ⟨ts.drop place, depth⟩ i d → d.depth = depth ∧
    (TooDeep (comparison n ⟨ts.drop place, depth⟩) ↔ TooDeep (comparison n d))
  /-- Only levels that are open count. -/
  tooDeep_iff : ∀ l : Level, TooDeep (l.read n ⟨ts.drop place, depth⟩) ↔
    Exceeds (Opens l) (ts.drop place) depth

theorem keepsDepth (n : Nat) (ts : Tokens) (place : Nat) {depth : Nat} (hd : depth ≤ maxDepth) :
    KeepsDepth n ts place depth where
  returns _ := returns_of_gives fun _ _ => read_sound
  returns_name := returns_of_gives fun _ _ h =>
    let ⟨ts, hr, hdepth, _⟩ := name_sound h
    ⟨ts, hr, hdepth⟩
  released _ _ := Releases.depth_eq
  releases_chain _ _ := exists_release_of_chain
  releases_negation _ _ := exists_release_of_negation
  releases_unary _ _ := exists_release_of_unary
  releases_power _ _ _ := exists_release_of_power
  releases_group _ _ _ hparen h := hparen ▸ exists_release_of_group h
  operands _ _ _ h := ⟨h.depth_eq_add fun _ _ => Chain.depth_of_joined,
    h.iff fun _ _ => Chain.tooDeep_iff_of_joined⟩
  sides _ _ h := ⟨h.depth_eq fun _ _ _ => depth_of_compared,
    h.iff fun _ _ => tooDeep_iff_of_compared⟩
  tooDeep_iff _ := read_tooDeep_iff hd

end Predicate

end Subdomain
