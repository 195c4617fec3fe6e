import Subdomain.Proofs.Predicate.Nesting
import Subdomain.Proofs.Predicate.Settling

/-!
# How deep the expressions of texts are

The reader has at most `maxDepth` levels open at a time. So the expressions of the texts
that it accepts nest within what that many levels bound, and no less will do: there is a
text that needs as much (`nested_of_parse`, `nested_deepest`). More operators than levels
can stand on a path (`deep_left_operand`).
-/

namespace Subdomain

namespace Predicate

open Lexical

/-! ## Words -/

namespace Words

/-- A token that stands nowhere in particular. -/
def word (kind : Word) (chars : List Char) : Token Word := ⟨kind, chars, 0⟩

def x : Token Word := word .identifier ['x']

def minus : Token Word := word .minus ['-']

def plus : Token Word := word .plus ['+']

/-- An operator and an operand behind it, `n` times. -/
def chained (w : Token Word) : Nat → Tokens
  | 0 => []
  | n + 1 => w :: x :: chained w n

/-- The right half of a comparison. -/
def compared : Tokens := [word .lt ['<'], x]

/-- A call of a function. -/
def called (ws : Tokens) : Tokens :=
  word .identifier ['s', 'q', 'r', 't'] :: word .openParen ['('] :: (ws ++ [word .closeParen [')']])

/-- An exponent. -/
def powered : Tokens := [word .power ['*', '*'], x]

/-- An expression that nests as deep as `n` levels let it. -/
def deepest : Nat → Tokens
  | 0 => [x] ++ compared
  | n + 1 =>
    called (deepest n) ++ powered ++ chained (word .slash ['/']) (n + 1) ++
      chained plus (n + 1) ++ compared ++ chained (word .andWord ['&']) (n + 1) ++
      chained (word .orWord ['|']) (n + 1)

end Words

open Words

theorem eq_of_spelling {t w : Token Word} (h : t.spelling = w.spelling) :
    t = ⟨w.kind, w.chars, t.offset⟩ := by
  obtain ⟨k, cs, i⟩ := t
  obtain ⟨rfl, rfl⟩ := Prod.mk.inj h
  rfl

/-! ## Texts that nest deep -/

/-- Tokens that are spelled so derive an expression within `n` levels, and some path of it has `a`
expressions that deepen it and `b` others. -/
structure Attains (n : Nat) (l : Level) (ws : Tokens) (a b : Nat) : Prop where
  takes : ∀ w ∈ ws, Takes rules w.chars [] w.kind
  derives : ∃ e : Expr, (∀ ts : Tokens, ts.map Token.spelling = ws.map Token.spelling →
    DerivesIn n l ts e) ∧ e.HasPath a b

section

variable {n m a b : Nat} {l l' : Level} {k : Chain} {ts ws : Tokens} {w : Token Word}

theorem takes_x : Takes rules x.chars [] x.kind := takes_of_best_eq (by decide) rfl

theorem derivesIn_x (h : ts.map Token.spelling = [x].map Token.spelling) :
    DerivesIn n .atom ts (.coordinate .x) := by
  obtain ⟨t, rfl, ht⟩ := List.map_eq_singleton_iff.1 h
  rw [eq_of_spelling ht]
  exact .literal rfl

theorem attains_x : Attains n .atom [x] 0 1 where
  takes := List.forall_mem_singleton.2 takes_x
  derives := ⟨.coordinate .x, fun _ => derivesIn_x, _, _, .leaf rfl, rfl, rfl⟩

theorem Attains.of_level (h : Attains n l ws a b)
    (hl : ∀ {ts : Tokens} {e : Expr}, DerivesIn n l ts e → DerivesIn n l' ts e) :
    Attains n l' ws a b := by
  obtain ⟨e, hd, hpath⟩ := h.derives
  exact ⟨h.takes, e, fun ts hts => hl (hd ts hts), hpath⟩

theorem takes_chained (hw : Takes rules w.chars [] w.kind) :
    ∀ v ∈ chained w m, Takes rules v.chars [] v.kind := by
  induction m with
  | zero => exact nofun
  | succ m ih => exact List.forall_mem_cons.2 ⟨hw, List.forall_mem_cons.2 ⟨takes_x, ih⟩⟩

/-- Every operator of a chain stands on top of all in front of it. -/
theorem exists_restIn_chained {f : Expr → Expr → Expr}
    (hop : ∀ i, k.node? ⟨w.kind, w.chars, i⟩ = some f) {left : Expr} (hleft : left.HasPath a b) :
    ∃ e : Expr, (∀ ts : Tokens, ts.map Token.spelling = (chained w m).map Token.spelling →
      RestIn m k left ts e) ∧
      e.HasPath (a + m) b := by
  induction m generalizing left a with
  | zero =>
    refine ⟨left, fun ts hts => ?_, hleft⟩
    rw [List.map_eq_nil_iff.1 hts]
    exact .done
  | succ m ih =>
    obtain ⟨hdeepens, hfront, -⟩ := operands_of_node? (hop 0) left (.coordinate .x)
    have hmem : left ∈ (f left (.coordinate .x)).operands := by
      rw [Expr.operands_eq, hfront]
      exact List.mem_cons_self
    obtain ⟨e, hrest, hpath⟩ := ih (hleft.of_deepens hmem hdeepens)
    refine ⟨e, fun ts hts => ?_, by rwa [← Nat.add_assoc, Nat.add_right_comm]⟩
    obtain ⟨t, us, rfl, ht, hus⟩ := List.map_eq_cons_iff.1 hts
    obtain ⟨t', us, rfl, ht', hus⟩ := List.map_eq_cons_iff.1 hus
    have hright : DerivesIn m .atom [t'] (.coordinate .x) := derivesIn_x (congrArg ([·]) ht')
    rw [eq_of_spelling ht]
    exact .more (hop _) (hright.operand_of_atom k) (hrest us hus)

theorem Attains.chained (h : Attains n k.operands ws a b) {f : Expr → Expr → Expr}
    (hop : ∀ i, k.node? ⟨w.kind, w.chars, i⟩ = some f) (hw : Takes rules w.chars [] w.kind)
    (hm : m ≤ n) :
    Attains n (.chain k) (ws ++ Words.chained w m) (a + m) b where
  takes := List.forall_mem_append.2 ⟨h.takes, takes_chained hw⟩
  derives := by
    obtain ⟨left, hd, hpath⟩ := h.derives
    obtain ⟨e, hrest, hpath⟩ := exists_restIn_chained hop hpath
    refine ⟨e, fun ts hws => ?_, hpath⟩
    obtain ⟨ts, us, rfl, hts, hus⟩ := List.map_eq_append_iff.1 (hws.trans List.map_append)
    exact .chain (hd ts hts) ((hrest us hus).mono hm)

theorem Attains.compared (h : Attains n (.chain .sum) ws a b) :
    Attains n .comparison (ws ++ Words.compared) a (b + 1) where
  takes := List.forall_mem_append.2 ⟨h.takes, List.forall_mem_cons.2
    ⟨takes_of_best_eq (by decide) rfl, List.forall_mem_singleton.2 takes_x⟩⟩
  derives := by
    obtain ⟨e, hd, hpath⟩ := h.derives
    refine ⟨.compare e (.cons .lt (.coordinate .x) .nil), fun ts hws => ?_,
      hpath.of_not_deepens (.head _) rfl⟩
    obtain ⟨ts, us, rfl, hts, hus⟩ := List.map_eq_append_iff.1 (hws.trans List.map_append)
    obtain ⟨t, us, rfl, ht, hus⟩ := List.map_eq_cons_iff.1 hus
    have hlinks := LinksIn.cons (congrArg comparison? (eq_of_spelling ht))
      ((derivesIn_x hus).operand_of_atom .sum).chain_of_operand (.nil (n := n))
    rw [List.append_nil] at hlinks
    exact .compare (hd ts hts) hlinks

theorem Attains.call (h : Attains n (.chain .disjunction) ws a b) :
    Attains (n + 1) .atom (called ws) (a + 1) b where
  takes := List.forall_mem_cons.2 ⟨takes_of_best_eq (by decide) rfl, List.forall_mem_cons.2
    ⟨takes_of_best_eq (by decide) rfl, List.forall_mem_append.2 ⟨h.takes,
      List.forall_mem_singleton.2 (takes_of_best_eq (by decide) rfl)⟩⟩⟩
  derives := by
    obtain ⟨e, hd, hpath⟩ := h.derives
    refine ⟨.call .sqrt e, fun ts hws => ?_, hpath.of_deepens (.head _) rfl⟩
    obtain ⟨t, ts, rfl, ht, hws⟩ := List.map_eq_cons_iff.1 hws
    obtain ⟨o, ts, rfl, ho, hws⟩ := List.map_eq_cons_iff.1 hws
    obtain ⟨ts, us, rfl, hts, hus⟩ := List.map_eq_append_iff.1 (hws.trans List.map_append)
    obtain ⟨c, rfl, hc⟩ := List.map_eq_singleton_iff.1 hus
    have hf : function? t = some .sqrt := (congrArg function? (eq_of_spelling ht)).trans rfl
    exact .call hf (congrArg Prod.fst ho) (hd ts hts) (congrArg Prod.fst hc)

theorem Attains.power (h : Attains (n + 1) .atom ws a b) :
    Attains (n + 1) .power (ws ++ powered) (a + 1) b where
  takes := List.forall_mem_append.2 ⟨h.takes, List.forall_mem_cons.2
    ⟨takes_of_best_eq (by decide) rfl, List.forall_mem_singleton.2 takes_x⟩⟩
  derives := by
    obtain ⟨e, hd, hpath⟩ := h.derives
    refine ⟨.arith .pow e (.coordinate .x), fun ts hws => ?_, hpath.of_deepens (.head _) rfl⟩
    obtain ⟨ts, us, rfl, hts, hus⟩ := List.map_eq_append_iff.1 (hws.trans List.map_append)
    obtain ⟨t, us, rfl, ht, hus⟩ := List.map_eq_cons_iff.1 hus
    exact .power (hd ts hts) (congrArg Prod.fst ht) (.unsigned (.base (derivesIn_x hus)))

theorem Attains.minus (h : Attains n .unary ws a b) :
    Attains (n + 1) .unary (Words.minus :: ws) (a + 1) b where
  takes := List.forall_mem_cons.2 ⟨takes_of_best_eq (by decide) rfl, h.takes⟩
  derives := by
    obtain ⟨e, hd, hpath⟩ := h.derives
    refine ⟨.neg e, fun ts hws => ?_, hpath.of_deepens (.head _) rfl⟩
    obtain ⟨t, ts, rfl, ht, hts⟩ := List.map_eq_cons_iff.1 hws
    exact .minus (congrArg Prod.fst ht) (hd ts hts)

/-- A comparison stands for a whole text. -/
theorem Attains.whole (h : Attains n .comparison ws a b) :
    Attains n (.chain .disjunction) ws a b :=
  h.of_level fun h => .chain_of_operand (k := .disjunction)
    (.chain_of_operand (k := .conjunction) (.compared h))

theorem Attains.parse (h : Attains maxDepth (.chain .disjunction) ws a b) :
    ∃ p, Predicate.parse (Token.spaced ws) = .ok p ∧ p.expr.HasPath a b := by
  have halone : Alone rules ' ' := alone_of_all (by decide +kernel)
  obtain ⟨ts, hts, hmap⟩ := exists_scan_spaced halone h.takes
  obtain ⟨e, hd, hpath⟩ := h.derives
  exact ⟨⟨_, e⟩, parse_eq_ok_iff.2 ⟨ts, hts, hd ts hmap, rfl⟩, hpath⟩

end

theorem attains_deepest (n : Nat) : Attains n (.chain .disjunction) (deepest n)
    ((Level.chain .disjunction).limit n) ((Level.chain .disjunction).others n) := by
  induction n with
  | zero =>
    exact (attains_x.of_level fun h => (h.operand_of_atom .sum).chain_of_operand).compared.whole
  | succ n ih =>
    have hlimit : (Level.chain .disjunction).limit (n + 1) =
        (Level.chain .disjunction).limit n + 1 + 1 + (n + 1) + (n + 1) + (n + 1) + (n + 1) := by
      simp only [Level.limit, square_succ]
      omega
    rw [hlimit]
    have hproduct := (ih.call.power.of_level .unsigned).chained (k := .product)
      (w := word .slash ['/']) (fun _ => rfl) (takes_of_best_eq (by decide) rfl) (Nat.le_refl _)
    have hsum := hproduct.chained (k := .sum) (w := plus) (fun _ => rfl)
      (takes_of_best_eq (by decide) rfl) (Nat.le_refl _)
    have hconjunction := (hsum.compared.of_level .compared).chained (k := .conjunction)
      (w := word .andWord ['&']) (fun _ => rfl) (takes_of_best_eq (by decide) rfl) (Nat.le_refl _)
    exact hconjunction.chained (k := .disjunction) (w := word .orWord ['|']) (fun _ => rfl)
      (takes_of_best_eq (by decide) rfl) (Nat.le_refl _)

theorem attains_signs (n : Nat) : Attains n .unary (List.replicate n minus ++ [x]) n 1 := by
  induction n with
  | zero => exact attains_x.of_level fun h => .unsigned (.base h)
  | succ n ih => exact ih.minus

/-! ## The bounds -/

/-- How deep the paths of an expression go. A path without steps to the operand in front of an
operator has no more operators and functions than there are levels, and every such step lets it have
one more. In all they are no more than a square of the levels, and comparisons and the end of the
path make it only a little longer. -/
structure Nested (e : Expr) : Prop where
  open_le : ∀ i es, e.Path i es → es.countP Expr.deepens ≤ maxDepth + i
  deepens_le : ∀ i es, e.Path i es → es.countP Expr.deepens ≤ 2 * maxDepth * (maxDepth + 2)
  length_le : ∀ i es, e.Path i es → es.length ≤ (2 * maxDepth + 1) * (maxDepth + 2)

theorem limit_maxDepth :
    (Level.chain .disjunction).limit maxDepth = 2 * maxDepth * (maxDepth + 2) := rfl

theorem limit_add_others_maxDepth : (Level.chain .disjunction).limit maxDepth +
    (Level.chain .disjunction).others maxDepth = (2 * maxDepth + 1) * (maxDepth + 2) := rfl

theorem nested_of_parse {text : List Char} {p : Predicate} (h : parse text = .ok p) :
    Nested p.expr := by
  obtain ⟨ts, -, hts, -⟩ := parse_eq_ok_iff.1 h
  refine ⟨hts.opensWithin, fun i es hes => ?_, fun i es hes => ?_⟩
  · rw [← limit_maxDepth]
    exact (hts.nestsWithin i es hes).1
  · obtain ⟨hcount, hlength⟩ := hts.nestsWithin i es hes
    rw [← limit_add_others_maxDepth]
    exact Nat.le_trans hlength (Nat.add_le_add_right hcount _)

/-- The bounds are met by a text that can be read. -/
theorem nested_deepest : ∃ p i es, parse (Token.spaced (deepest maxDepth)) = .ok p ∧ Nested p.expr ∧
    p.expr.Path i es ∧ es.countP Expr.deepens = 2 * maxDepth * (maxDepth + 2) ∧
    es.length = (2 * maxDepth + 1) * (maxDepth + 2) := by
  obtain ⟨p, hp, i, es, hes, hcount, hlength⟩ := (attains_deepest maxDepth).parse
  exact ⟨p, i, es, hp, nested_of_parse hp, hes, hcount.trans limit_maxDepth,
    hlength.trans limit_add_others_maxDepth⟩

/-- As many signs as there are levels can stand in front of a sum: its operator takes a level that
they have given back. -/
theorem deep_left_operand : ∃ p i es,
    parse ((List.replicate 64 ['-', ' ']).flatten ++ "x + x < x".toList) = .ok p ∧
      p.expr.Path i es ∧ maxDepth < es.countP Expr.deepens := by
  have hsum := ((attains_signs 64).of_level (.chain_of_operand (k := .product))).chained
    (k := .sum) (w := plus) (m := 1) (fun _ => rfl) (takes_of_best_eq (by decide) rfl) (by decide)
  obtain ⟨p, hp, i, es, hes, hcount, -⟩ := Attains.parse hsum.compared.whole
  have htext : (List.replicate 64 ['-', ' ']).flatten ++ "x + x < x".toList =
      Token.spaced (List.replicate 64 minus ++ [x] ++ chained plus 1 ++ compared) := by
    decide +kernel
  exact ⟨p, i, es, htext ▸ hp, hes, by rw [hcount]; decide⟩

end Predicate

end Subdomain
