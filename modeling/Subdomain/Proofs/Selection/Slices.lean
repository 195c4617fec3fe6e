import Subdomain.Proofs.Selection.Delimiting

/-!
# Predicates in their text

The tokens of a predicate stand in a part of the text, from its first character to
the parenthesis that is its last, and that part is read as the predicate
(`exists_slice_of_scans`). The part has the tokens of a predicate wherever it
stands (`isPredicate_slice`).
-/

namespace Subdomain

namespace Selection

open Lexical

/-! ## The part that is read -/

theorem kind_of_getLast? {tail : List (ConnectiveForm × ClauseForm)} {t e : Token Word}
    (ht : t.kind = .closeParen) (h : (t :: PredicateForm.tailTokens tail).getLast? = some e) :
    e.kind = .closeParen := by
  induction tail generalizing t with
  | nil =>
    cases h
    exact ht
  | cons op tail ih =>
    obtain ⟨op, d⟩ := op
    refine ih d.closeParen.property ?_
    rw [← h, PredicateForm.tailTokens, List.getLast?_cons, List.getLast?_cons, List.getLast?_cons,
      List.getLast?_append, getLast?_clause]
    cases (PredicateForm.tailTokens tail).getLast? <;> rfl

/-- The tokens of a form stand in a part of the text that is read again, which ends with a
parenthesis. -/
theorem exists_slice_of_scans {text : List Char} {d : PredicateForm} {t : Token Word}
    {pre us rest : Tokens} (hd : d.tokens = t :: us)
    (h : Scans rules 0 text (pre ++ (d.tokens ++ rest))) :
    ∃ before part after, text = before ++ ((part ++ [')']) ++ after) ∧
      t.offset = byteLength before ∧ d.slice text = part ++ [')'] ∧
      Scans rules t.offset (part ++ [')']) d.tokens := by
  rw [hd] at h
  obtain ⟨before, part, after, rfl, hstart, hbehind, hpart⟩ := h.part
  rw [Nat.zero_add] at hstart
  obtain ⟨e, he⟩ : ∃ e, d.tokens.getLast? = some e := by
    rw [hd, List.getLast?_cons]
    exact ⟨_, rfl⟩
  have hstop : e.stop = t.offset + byteLength part := by
    rw [← hbehind]
    exact (behind_of_getLast? (hd ▸ he)).symm
  obtain ⟨u, hu, -, hfirst⟩ := hpart.exists_append_of_stop (hd ▸ he) hstop
  rw [kind_of_getLast? d.head.closeParen.property (getLast?_predicate d ▸ he)] at hfirst
  rw [parenthesized.chars_closing hfirst] at hu
  subst hu
  refine ⟨before, u, after, rfl, hstart, ?_, hd ▸ hpart⟩
  rw [PredicateForm.slice, he, hd]
  show sliceBytes t.offset e.stop _ = _
  rw [hstop, hstart, ← List.append_assoc, sliceBytes_append]

/-! ## Predicates elsewhere -/

/-- The same token at another byte. -/
def relocate (f : Nat → Nat) (t : Token Word) : Token Word := { t with offset := f t.offset }

section

variable (f : Nat → Nat)

def Balanced.relocate : Balanced → Balanced
  | nil => nil
  | token t rest => token ⟨Selection.relocate f t.val, t.property⟩ rest.relocate
  | group o inner c rest => group ⟨Selection.relocate f o.val, o.property⟩ inner.relocate
      ⟨Selection.relocate f c.val, c.property⟩ rest.relocate

theorem Balanced.tokens_relocate (b : Balanced) :
    (b.relocate f).tokens = b.tokens.map (Selection.relocate f) := by
  induction b with
  | nil => rfl
  | token t rest ih => rw [relocate, tokens, ih, tokens, List.map_cons]
  | group o inner c rest ihi ihr => simp [relocate, tokens, ihi, ihr]

def ClauseForm.relocate (d : ClauseForm) : ClauseForm where
  negation := d.negation.map fun t => ⟨Selection.relocate f t.val, t.property⟩
  openParen := ⟨Selection.relocate f d.openParen.val, d.openParen.property⟩
  body := d.body.relocate f
  closeParen := ⟨Selection.relocate f d.closeParen.val, d.closeParen.property⟩

theorem ClauseForm.tokens_relocate (d : ClauseForm) :
    (d.relocate f).tokens = d.tokens.map (Selection.relocate f) := by
  obtain ⟨_ | n, o, b, c⟩ := d <;> simp [relocate, tokens, Balanced.tokens_relocate]

def PredicateForm.relocate (d : PredicateForm) : PredicateForm where
  head := d.head.relocate f
  tail := d.tail.map fun e => (⟨Selection.relocate f e.1.val, e.1.property⟩, e.2.relocate f)

theorem PredicateForm.tokens_relocate (d : PredicateForm) :
    (d.relocate f).tokens = d.tokens.map (Selection.relocate f) := by
  obtain ⟨head, tail⟩ := d
  have htail : tailTokens (PredicateForm.relocate f ⟨head, tail⟩).tail =
      (tailTokens tail).map (Selection.relocate f) := by
    induction tail with
    | nil => rfl
    | cons e tail ih =>
      simp only [relocate, List.map_cons, tailTokens, ClauseForm.tokens_relocate, List.map_append]
      rw [← ih]
      rfl
  rw [tokens, htail, tokens, List.map_append]
  exact congrArg (· ++ _) (head.tokens_relocate f)

end

/-- A text with the tokens of a predicate has them anywhere. -/
theorem PredicateForm.exists_scans {m : Nat} {u : List Char} {q : PredicateForm}
    (h : Scans rules m u q.tokens) (n : Nat) : ∃ d : PredicateForm, Scans rules n u d.tokens := by
  obtain ⟨us, hus, htokens⟩ := Scans.exists_unmoved (m := m) (n := 0) h
  have hshift : Selection.relocate (fun k => n + (k - m)) ∘ Token.shift m = Token.shift n :=
    funext fun t => by simp [Selection.relocate, Token.shift]
  refine ⟨q.relocate fun k => n + (k - m), ?_⟩
  rw [tokens_relocate, htokens, List.map_map, hshift]
  exact hus.move n

/-- What a predicate is read from has the tokens of a predicate anywhere. -/
theorem isPredicate_slice {text : List Char} {ts : Tokens} {q : PredicateForm}
    (h : Scans rules 0 text ts) (hq : q.tokens <:+: ts) : IsPredicate (q.slice text) := by
  obtain ⟨pre, post, rfl⟩ := hq
  obtain ⟨t, us, ht, -⟩ := exists_predicate_head q
  obtain ⟨before, part, after, -, -, hslice, hpart⟩ :=
    exists_slice_of_scans ht (List.append_assoc .. ▸ h)
  rw [hslice]
  refine ⟨⟨fun c hc => ?_, fun c hc => ?_⟩, PredicateForm.exists_scans hpart⟩
  · -- No blank stands in front of the first token.
    rw [ht] at hpart
    obtain ⟨b, r, he, -, ho, htakes, -⟩ := hpart.cons_inv
    obtain rfl : b = [] := eq_nil_of_byteLength (by omega)
    obtain ⟨d, w, hw, hd⟩ := htakes.solid
    rw [he, hw] at hc
    cases hc
    exact hd
  · rw [List.getLast?_concat] at hc
    cases hc
    decide

/-! ## Predicates in a form -/

theorem SourceForm.infix_of_mem {singular : Bool} {d : SourceForm singular} {q : PredicateForm}
    (h : q ∈ d.predicates) : q.tokens <:+: d.tokens := by
  cases d with
  | predicate p =>
    cases List.mem_singleton.1 h
    exact List.infix_rfl
  | _ => cases h

theorem VertexForm.infix_of_mem {singular : Bool} {d : VertexForm singular} {q : PredicateForm}
    (h : q ∈ d.predicates) : q.tokens <:+: d.tokens := by
  cases d with
  | source w d => exact (SourceForm.infix_of_mem h).trans (List.suffix_cons ..).isInfix
  | _ => cases h

theorem LeafForm.infix_of_mem {d : LeafForm} {q : PredicateForm} (h : q ∈ d.predicates) :
    q.tokens <:+: d.tokens := by
  cases d with
  | vertex w d | vertices w d =>
    exact (VertexForm.infix_of_mem h).trans (List.suffix_cons ..).isInfix
  | _ => cases h

mutual

/-- The tokens of a predicate stand together among those of the form. -/
theorem ExprForm.infix_of_mem (d : ExprForm) {q : PredicateForm} (h : q ∈ d.predicates) :
    q.tokens <:+: d.tokens := by
  match d with
  | .mk head tail =>
    rcases List.mem_append.1 h with h | h
    · exact (head.infix_of_mem h).trans (List.prefix_append ..).isInfix
    · exact (tail.infix_of_mem h).trans (List.suffix_append ..).isInfix

theorem TailForm.infix_of_mem (d : TailForm) {q : PredicateForm} (h : q ∈ d.predicates) :
    q.tokens <:+: d.tokens := by
  match d with
  | .nil => cases h
  | .cons op term rest =>
    refine List.IsInfix.trans ?_ (List.suffix_cons op.token _).isInfix
    rcases List.mem_append.1 h with h | h
    · exact (term.infix_of_mem h).trans (List.prefix_append ..).isInfix
    · exact (rest.infix_of_mem h).trans (List.suffix_append ..).isInfix

theorem TermForm.infix_of_mem (d : TermForm) {q : PredicateForm} (h : q ∈ d.predicates) :
    q.tokens <:+: d.tokens := by
  match d with
  | .leaf d => exact LeafForm.infix_of_mem h
  | .parens o inner c =>
    exact (inner.infix_of_mem h).trans ((List.prefix_append ..).isInfix.trans
      (List.suffix_cons o.val _).isInfix)

end

end Selection

end Subdomain
