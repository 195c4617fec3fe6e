import Subdomain.Proofs.Selection.Unambiguity

/-!
# The language of selections

A text is a selection if its tokens are those of a form whose integers fit, whose
parentheses do not nest too deep and whose predicates can be read. There is one
such form at most, and the program of the text is that of its tree
(`parse_iff_form`).
-/

namespace Subdomain

namespace Selection

/-- The predicate can be read from its part of the text. -/
def PredicateForm.Accepted (text : List Char) (d : PredicateForm) : Prop :=
  ∃ p, Predicate.parse (d.slice text) = .ok p

/-- What a form must fulfil besides the grammar. -/
structure ExprForm.Allowed (text : List Char) (d : ExprForm) : Prop where
  fits : ∀ t ∈ d.integers, Fits t
  nesting : d.nesting ≤ maxDepth
  accepted : ∀ q ∈ d.predicates, q.Accepted text

variable {text : List Char}

/-! ## Forms with a tree -/

theorem exists_map_iff {α β : Type} {o : Option α} {f : α → β} :
    (∃ b, o.map f = some b) ↔ ∃ a, o = some a := by
  cases o <;> simp

/-- Both parts have a value if the second one does not ask for the value of the first. -/
theorem exists_bind_iff {α β : Type} {o : Option α} {f : α → Option β} {P : Prop}
    (hf : ∀ a, (∃ b, f a = some b) ↔ P) :
    (∃ b, o.bind f = some b) ↔ (∃ a, o = some a) ∧ P := by
  cases o with
  | none => simp
  | some a => simpa using hf a

theorem PredicateForm.exists_predicate?_iff {d : PredicateForm} :
    (∃ p, d.predicate? text = some p) ↔ d.Accepted text := by
  unfold predicate? Accepted
  cases Predicate.parse (d.slice text) <;> simp [Except.toOption]

theorem SourceForm.exists_leaf?_iff {singular : Bool} {d : SourceForm singular} :
    (∃ l, d.leaf? text = some l) ↔ ∀ q ∈ d.predicates, q.Accepted text := by
  cases d with
  | predicate p =>
    rw [leaf?, exists_map_iff, PredicateForm.exists_predicate?_iff, predicates,
      List.forall_mem_singleton]
  | _ => simp [leaf?, predicates]

theorem VertexForm.exists_leaf?_iff {singular : Bool} {d : VertexForm singular} :
    (∃ l, d.leaf? text = some l) ↔ ∀ q ∈ d.predicates, q.Accepted text := by
  cases d with
  | source w d => exact SourceForm.exists_leaf?_iff
  | _ => simp [leaf?, predicates]

theorem LeafForm.exists_leaf?_iff {d : LeafForm} :
    (∃ l, d.leaf? text = some l) ↔ ∀ q ∈ d.predicates, q.Accepted text := by
  cases d with
  | vertex w d | vertices w d => exact VertexForm.exists_leaf?_iff
  | _ => simp [leaf?, predicates]

mutual

theorem ExprForm.exists_tree?_iff (d : ExprForm) :
    (∃ t, d.tree? text = some t) ↔ ∀ q ∈ d.predicates, q.Accepted text := by
  match d with
  | .mk head tail =>
    rw [ExprForm.predicates, List.forall_mem_append, ← head.exists_tree?_iff]
    exact exists_bind_iff fun u => tail.exists_treeFrom?_iff u

theorem TailForm.exists_treeFrom?_iff (d : TailForm) (left : Tree) :
    (∃ t, d.treeFrom? text left = some t) ↔ ∀ q ∈ d.predicates, q.Accepted text := by
  match d with
  | .nil => exact ⟨fun _ => nofun, fun _ => ⟨left, rfl⟩⟩
  | .cons op term rest =>
    rw [TailForm.predicates, List.forall_mem_append, ← term.exists_tree?_iff]
    exact exists_bind_iff fun u => rest.exists_treeFrom?_iff (.combine left op.operator u)

theorem TermForm.exists_tree?_iff (d : TermForm) :
    (∃ t, d.tree? text = some t) ↔ ∀ q ∈ d.predicates, q.Accepted text := by
  match d with
  | .leaf d =>
    rw [TermForm.predicates, ← LeafForm.exists_leaf?_iff]
    exact exists_map_iff
  | .parens _ inner _ => exact inner.exists_tree?_iff

end

theorem ExprForm.means_iff {d : ExprForm} {t : Tree} :
    d.Means (.ofChars text) 0 t ↔ d.Allowed text ∧ d.tree? text = some t := by
  constructor
  · rintro ⟨hf, hn, ht⟩
    exact ⟨⟨hf, by omega, d.exists_tree?_iff.1 ⟨t, ht⟩⟩, ht⟩
  · rintro ⟨⟨hf, hn, -⟩, ht⟩
    exact ⟨hf, by omega, ht⟩

/-! ## Programs -/

theorem parse_eq_ok_iff_form {p : Program} :
    parse text = .ok p ↔ ∃ d : ExprForm, Selection.tokens text = .ok d.tokens ∧
      d.Allowed text ∧ ∃ t, d.tree? text = some t ∧ p = t.program := by
  rw [parse_eq_ok_iff]
  constructor
  · rintro ⟨t, ht, rfl⟩
    obtain ⟨d, hd, hm⟩ := parseTree_eq_ok_iff.1 ht
    obtain ⟨hallowed, htree⟩ := ExprForm.means_iff.1 hm
    exact ⟨d, hd, hallowed, t, htree, rfl⟩
  · rintro ⟨d, hd, hallowed, t, ht, rfl⟩
    exact ⟨t, parseTree_eq_ok_iff.2 ⟨d, hd, ExprForm.means_iff.2 ⟨hallowed, ht⟩⟩, rfl⟩

/-- A text can be read just if its tokens are those of a form that is allowed. Its program is that
of the tree of the form, every allowed form has a tree, and no other form has the same tokens. -/
theorem parse_iff_form (text : List Char) :
    (∀ p, parse text = .ok p ↔ ∃ d : ExprForm, Selection.tokens text = .ok d.tokens ∧
      d.Allowed text ∧ ∃ t, d.tree? text = some t ∧ p = t.program) ∧
    (∀ d : ExprForm, d.Allowed text → ∃ t, d.tree? text = some t) ∧
    ∀ d d' : ExprForm, d.tokens = d'.tokens → d = d' :=
  ⟨fun _ => parse_eq_ok_iff_form, fun d hd => d.exists_tree?_iff.2 hd.accepted, fun _ _ h =>
    ExprForm.eq_of_tokens h⟩

end Selection

end Subdomain
