import Subdomain.Proofs.Outcome
import Subdomain.Proofs.Selection.Delimiting
import Subdomain.Proofs.Selection.Language

/-!
# Texts of leaves and expressions

A text is a leaf if it has the tokens of a form of that leaf wherever it stands
(`LeafText`); terms and expressions are texts in the same sense. Texts of
expressions are put together like expressions, with blanks around operators and
parentheses around operands (`ExprText.combine`), and reading one gives its tree
(`ExprText.parse_eq_ok_iff`).
-/

namespace Subdomain

namespace Selection

open Lexical

/-- Anywhere in a selection the text is a leaf, or what should be one if there is none. -/
def LeafText (u : List Char) (l : Option Leaf) : Prop :=
  ∀ before after, ∃ d : LeafForm, Scans rules (byteLength before) u d.tokens ∧
    (∀ t ∈ d.integers, Fits t) ∧ d.leaf? (before ++ (u ++ after)) = l

/-- The same for terms, with parentheses that nest `n` deep at most. -/
def TermText (n : Nat) (u : List Char) (t : Option Tree) : Prop :=
  ∀ before after, ∃ d : TermForm, Scans rules (byteLength before) u d.tokens ∧
    (∀ t ∈ d.integers, Fits t) ∧ d.nesting ≤ n ∧ d.tree? (before ++ (u ++ after)) = t

def ExprText (n : Nat) (u : List Char) (t : Option Tree) : Prop :=
  ∀ before after, ∃ d : ExprForm, Scans rules (byteLength before) u d.tokens ∧
    (∀ t ∈ d.integers, Fits t) ∧ d.nesting ≤ n ∧ d.tree? (before ++ (u ++ after)) = t

theorem TermText.mono {n m : Nat} {u : List Char} {t : Option Tree} (h : TermText n u t)
    (hnm : n ≤ m) : TermText m u t := fun before after => by
  obtain ⟨d, hd, hfits, hn, ht⟩ := h before after
  exact ⟨d, hd, hfits, Nat.le_trans hn hnm, ht⟩

theorem ExprText.mono {n m : Nat} {u : List Char} {t : Option Tree} (h : ExprText n u t)
    (hnm : n ≤ m) : ExprText m u t := fun before after => by
  obtain ⟨d, hd, hfits, hn, ht⟩ := h before after
  exact ⟨d, hd, hfits, Nat.le_trans hn hnm, ht⟩

/-! ## Reading texts -/

/-- A text of an expression is read as its tree. -/
theorem ExprText.parse_eq_ok_iff {u : List Char} {t : Option Tree} (h : ExprText maxDepth u t)
    {p : Program} : parse u = .ok p ↔ ∃ e, t = some e ∧ p = e.program := by
  obtain ⟨d, hd, hfits, hnesting, ht⟩ := h [] []
  rw [List.append_nil, List.nil_append] at ht
  have htokens : Selection.tokens u = .ok d.tokens := scan_eq_ok_iff.2 hd
  rw [parse_eq_ok_iff_form]
  constructor
  · rintro ⟨d', hd', -, e, he, rfl⟩
    cases ExprForm.eq_of_tokens (Except.ok.inj (hd'.symm.trans htokens))
    exact ⟨e, ht.symm.trans he, rfl⟩
  · rintro ⟨e, rfl, rfl⟩
    exact ⟨d, htokens, ⟨hfits, hnesting, d.exists_tree?_iff.1 ⟨e, ht⟩⟩, e, ht, rfl⟩

/-! ## Putting texts together -/

theorem LeafText.term {u : List Char} {l : Option Leaf} (h : LeafText u l) :
    TermText 0 u (l.map .leaf) := fun before after => by
  obtain ⟨d, hd, hfits, hl⟩ := h before after
  exact ⟨.leaf d, hd, hfits, Nat.le_refl 0, congrArg (Option.map Tree.leaf) hl⟩

theorem TermText.expr {n : Nat} {u : List Char} {t : Option Tree} (h : TermText n u t) :
    ExprText n u t := fun before after => by
  obtain ⟨d, hd, hfits, hn, ht⟩ := h before after
  refine ⟨.mk d .nil, ?_, fun t ht => hfits t ?_, ?_, ?_⟩
  · rwa [ExprForm.tokens, TailForm.tokens, List.append_nil]
  · rwa [ExprForm.integers, TailForm.integers, List.append_nil] at ht
  · rwa [ExprForm.nesting, TailForm.nesting, Nat.max_zero]
  · rw [ExprForm.tree?, ht]
    cases t <;> rfl

theorem ExprText.parens {n : Nat} {u : List Char} {t : Option Tree} (h : ExprText n u t) :
    TermText (n + 1) ('(' :: (u ++ [')'])) t := fun before after => by
  obtain ⟨d, hd, hfits, hn, ht⟩ := h (before ++ ['(']) (')' :: after)
  rw [byteLength_append] at hd
  obtain ⟨o, c, hs⟩ := scans_parens hd
  refine ⟨.parens o d c, ?_, hfits, ?_, ?_⟩
  · rwa [TermForm.tokens]
  · rw [TermForm.nesting]
    omega
  · rw [TermForm.tree?, ← ht]
    simp

/-! ## Chains of operators -/

/-- One more operator and term at the end. -/
def TailForm.snoc (op : OperatorForm) (d : TermForm) : TailForm → TailForm
  | .nil => .cons op d .nil
  | .cons op' d' rest => .cons op' d' (rest.snoc op d)

def ExprForm.snoc (op : OperatorForm) (d : TermForm) : ExprForm → ExprForm
  | .mk head tail => .mk head (tail.snoc op d)

section

variable {op : OperatorForm} {d : TermForm}

theorem TailForm.tokens_snoc (tail : TailForm) :
    (tail.snoc op d).tokens = tail.tokens ++ op.token :: d.tokens := by
  cases tail with
  | nil => simp [TailForm.snoc, TailForm.tokens]
  | cons _ _ rest => simp [TailForm.snoc, TailForm.tokens, rest.tokens_snoc]

theorem TailForm.integers_snoc (tail : TailForm) :
    (tail.snoc op d).integers = tail.integers ++ d.integers := by
  cases tail with
  | nil => simp [TailForm.snoc, TailForm.integers]
  | cons _ _ rest => simp [TailForm.snoc, TailForm.integers, rest.integers_snoc]

theorem TailForm.nesting_snoc (tail : TailForm) :
    (tail.snoc op d).nesting = max tail.nesting d.nesting := by
  cases tail with
  | nil => simp [TailForm.snoc, TailForm.nesting]
  | cons _ _ rest => simp [TailForm.snoc, TailForm.nesting, rest.nesting_snoc, Nat.max_assoc]

theorem TailForm.treeFrom?_snoc {text : List Char} (tail : TailForm) (left : Tree) :
    (tail.snoc op d).treeFrom? text left = (tail.treeFrom? text left).bind fun a =>
      (d.tree? text).map (.combine a op.operator) := by
  cases tail with
  | nil =>
    rw [TailForm.snoc, TailForm.treeFrom?, TailForm.treeFrom?]
    cases d.tree? text <;> rfl
  | cons op' d' rest =>
    rw [TailForm.snoc, TailForm.treeFrom?, TailForm.treeFrom?]
    cases d'.tree? text with
    | none => rfl
    | some b => exact rest.treeFrom?_snoc _

theorem ExprForm.tokens_snoc (e : ExprForm) :
    (e.snoc op d).tokens = e.tokens ++ op.token :: d.tokens := by
  obtain ⟨head, tail⟩ := e
  rw [snoc, tokens, tokens, tail.tokens_snoc, List.append_assoc]

theorem ExprForm.integers_snoc (e : ExprForm) :
    (e.snoc op d).integers = e.integers ++ d.integers := by
  obtain ⟨head, tail⟩ := e
  rw [snoc, integers, integers, tail.integers_snoc, List.append_assoc]

theorem ExprForm.nesting_snoc (e : ExprForm) :
    (e.snoc op d).nesting = max e.nesting d.nesting := by
  obtain ⟨head, tail⟩ := e
  rw [snoc, nesting, nesting, tail.nesting_snoc, Nat.max_assoc]

theorem ExprForm.tree?_snoc {text : List Char} (e : ExprForm) :
    (e.snoc op d).tree? text = (e.tree? text).bind fun a =>
      (d.tree? text).map (.combine a op.operator) := by
  obtain ⟨head, tail⟩ := e
  rw [snoc, tree?, tree?]
  cases head.tree? text with
  | none => rfl
  | some a => exact tail.treeFrom?_snoc a

end

theorem takes_operator (o : SetOperator) : Takes rules o.chars [] .operator := by
  obtain ⟨op, k⟩ := o
  cases op <;> cases k <;> exact takes_of_best_eq (by decide) rfl

/-- A term behind an operator makes a longer expression. -/
theorem ExprText.combine {n m : Nat} {u v : List Char} {a b : Option Tree} (ha : ExprText n u a)
    (o : SetOperator) (hb : TermText m v b) :
    ExprText (max n m) (u ++ ' ' :: (o.chars ++ ' ' :: v))
      (a.bind fun a => b.map (.combine a o)) := fun before after => by
  obtain ⟨d, hd, hfits, hn, ht⟩ := ha before (' ' :: (o.chars ++ ' ' :: v) ++ after)
  obtain ⟨e, he, hfits', hn', ht'⟩ := hb (before ++ (u ++ ' ' :: (o.chars ++ [' ']))) after
  let op : OperatorForm := ⟨⟨.operator, o.chars, byteLength before + byteLength (u ++ [' '])⟩, rfl,
    o, .coded o⟩
  have hop : Scans rules op.token.offset (o.chars ++ ' ' :: v) (op.token :: e.tokens) := by
    refine scans_word (takes_operator o) ?_
    simpa [op, byteLength, Nat.add_assoc] using he
  refine ⟨d.snoc op e, ?_, ?_, ?_, ?_⟩
  · rw [ExprForm.tokens_snoc]
    exact hd.append_blank alone_blank (by decide) hop
  · rw [ExprForm.integers_snoc]
    exact fun t ht => (List.mem_append.1 ht).elim (hfits t) (hfits' t)
  · rw [ExprForm.nesting_snoc]
    omega
  · rw [ExprForm.tree?_snoc, ← ht, ← ht']
    simp [op]

/-! ## Predicates -/

/-- The words `vertices in` and a predicate are a leaf if the predicate can be read. -/
theorem leafText_verticesIn {u : List Char} (hu : IsPredicate u) :
    LeafText ("vertices in ".toList ++ u)
      ((Predicate.parse u).toOption.map .verticesIn) := fun before after => by
  obtain ⟨d, hd, hslice⟩ := hu.exists_slice (before ++ "vertices in ".toList) after
  let n := byteLength before
  refine ⟨.vertices ⟨⟨.vertices, "vertices".toList, n⟩, rfl⟩
    (.source ⟨⟨.inWord, "in".toList, n + 9⟩, rfl⟩ (.predicate d)), ?_, nofun, ?_⟩
  · rw [byteLength_append] at hd
    exact scans_word (w := "vertices".toList) (takes_of_best_eq (by decide) rfl)
      (scans_word (w := "in".toList) (takes_of_best_eq (by decide) rfl) hd)
  · rw [List.append_assoc] at hslice
    show (d.predicate? _).map _ = _
    rw [PredicateForm.predicate?, List.append_assoc, hslice]

end Selection

end Subdomain
