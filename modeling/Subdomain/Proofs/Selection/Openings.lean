import Subdomain.Proofs.Predicate.Openings
import Subdomain.Proofs.Selection.Expressions

/-!
# Open parentheses

A selection is nested too deeply in one of two ways. Some beginning of it leaves more
parentheses open than there are levels, where terms that are complete count nothing
(`Opens`), or behind a beginning there is a leaf whose predicate is nested too deeply by
itself (`Buries`). The reader of selections rejects nothing else for its depth
(`expr_tooDeep_iff`, `parseTree_tooDeep_iff`).
-/

namespace Subdomain

namespace Selection

open Predicate (TooDeep not_tooDeep_ok not_tooDeep_fault not_tooDeep_expect tooDeep_bind
  tooDeep_bind_pure tooDeep_error_iff not_tooDeep_scan)

variable {s : Source}

/-- The tokens begin with a leaf whose predicate is nested too deeply. -/
def Buries (s : Source) (ts : Tokens) : Prop :=
  ∃ (word inWord : Token Word) (d : PredicateForm) (rest : Tokens),
    ts = word :: inWord :: (d.tokens ++ rest) ∧ (word.kind = .vertex ∨ word.kind = .vertices) ∧
      inWord.kind = .inWord ∧ Unjoined rest ∧ TooDeep (Predicate.parse (d.slice s.chars))

/-- The integers of a term fit, and its predicates can be read. -/
def TermForm.Readable (s : Source) (d : TermForm) : Prop :=
  (∀ t ∈ d.integers, Fits t) ∧ ∃ t, d.tree? s.chars = some t

/-- The tokens begin a selection and leave parentheses open. -/
inductive Opens (s : Source) : Tokens → Nat → Prop where
  | start : Opens s [] 0
  | parens {o : Token Word} {ts : Tokens} {m : Nat} : o.kind = .openParen → Opens s ts m →
      Opens s (o :: ts) (m + 1)
  | behind {d : TermForm} {op : OperatorForm} {ts : Tokens} {m : Nat} : d.Readable s →
      Opens s ts m → Opens s (d.tokens ++ op.token :: ts) m

/-- Some beginning of the tokens leaves more parentheses open than there are levels from the depth
on, or has a leaf behind it whose predicate is nested too deeply. -/
def Exceeds (s : Source) (ts : Tokens) (depth : Nat) : Prop :=
  ∃ us m rest, ts = us ++ rest ∧ Opens s us m ∧ (maxDepth < depth + m ∨ Buries s rest)

section

variable {α : Type} {c c' : Cursor Word}

/-! ## Leaves -/

theorem not_tooDeep_bind {β : Type} {r : Except Fault β} {f : β → Except Fault α}
    (h : ¬ TooDeep r) (hf : ∀ b, ¬ TooDeep (f b)) : ¬ TooDeep (r >>= f) := by
  rw [tooDeep_bind]
  rintro (hr | ⟨b, -, hb⟩)
  · exact h hr
  · exact hf b hb

theorem not_tooDeep_reference {cause : SyntaxCause} (h : cause ≠ .nestedTooDeeply) :
    ¬ TooDeep (reference s cause c) :=
  not_tooDeep_bind (not_tooDeep_expect h) fun _ => not_tooDeep_ok

theorem not_tooDeep_name : ¬ TooDeep (name s c) := by
  unfold name
  split
  · exact not_tooDeep_ok
  · exact not_tooDeep_fault (by decide)

theorem not_tooDeep_integer : ¬ TooDeep (integer s c) := by
  refine not_tooDeep_bind (not_tooDeep_expect (by decide)) fun t => ?_
  dsimp only
  split
  · exact not_tooDeep_ok
  · exact not_tooDeep_fault (by decide)

theorem not_tooDeep_signedInteger : ¬ TooDeep (signedInteger s c) := by
  unfold signedInteger
  split
  · exact not_tooDeep_integer
  · exact not_tooDeep_bind not_tooDeep_integer fun _ => not_tooDeep_ok

theorem not_tooDeep_items {k : Word} {item : (c : Cursor Word) → Reading α c}
    (hitem : ∀ c, ¬ TooDeep (item c)) : ¬ TooDeep (items k item c) := by
  have htail : ∀ {c : Cursor Word} (left : Parsed Word α c), ¬ TooDeep (itemsTail k item left) := by
    intro c left
    induction hn : left.next.rest.length using Nat.strongRecOn generalizing c left with
    | ind n ih =>
      rw [itemsTail]
      dsimp only
      split
      · refine not_tooDeep_bind (hitem _) fun e => ?_
        have hlt : e.next.rest.length < n :=
          hn ▸ Nat.lt_of_lt_of_le e.shorter (length_skipComma k left.next)
        exact not_tooDeep_bind (ih _ hlt ⟨e.value, e.next, _⟩ rfl) fun _ => not_tooDeep_ok
      · exact not_tooDeep_ok
  exact not_tooDeep_bind (hitem c) htail

theorem not_tooDeep_integers : ¬ TooDeep (integers s c) :=
  not_tooDeep_items fun _ => not_tooDeep_integer

theorem not_tooDeep_pair : ¬ TooDeep (pair s c) :=
  not_tooDeep_bind (not_tooDeep_expect (by decide)) fun _ =>
    not_tooDeep_bind not_tooDeep_integer fun _ =>
      not_tooDeep_bind (not_tooDeep_expect (by decide)) fun _ =>
        not_tooDeep_bind not_tooDeep_integer fun _ =>
          not_tooDeep_bind (not_tooDeep_expect (by decide)) fun _ => not_tooDeep_ok

theorem not_tooDeep_owner {ofGroup : Int → Leaf} {ofSet : String → Leaf} {cause : SyntaxCause}
    (h : cause ≠ .nestedTooDeeply) : ¬ TooDeep (owner s ofGroup ofSet cause c) := by
  unfold owner
  split
  · exact not_tooDeep_bind not_tooDeep_signedInteger fun _ => not_tooDeep_ok
  · split
    · exact not_tooDeep_bind not_tooDeep_name fun _ => not_tooDeep_ok
    · exact not_tooDeep_fault h

theorem not_tooDeep_vertexOwner : ¬ TooDeep (vertexOwner s c) := by
  unfold vertexOwner
  split
  · exact not_tooDeep_ok
  · exact not_tooDeep_owner (by decide)

theorem not_tooDeep_cellLeaf : ¬ TooDeep (cellLeaf s c) := by
  unfold cellLeaf
  split
  · exact not_tooDeep_bind not_tooDeep_name fun _ => not_tooDeep_ok
  · split
    · exact not_tooDeep_bind (not_tooDeep_owner (by decide)) fun _ => not_tooDeep_ok
    · split
      · exact not_tooDeep_bind (not_tooDeep_items fun _ => not_tooDeep_pair) fun _ => not_tooDeep_ok
      · split
        · exact not_tooDeep_bind not_tooDeep_integers fun _ => not_tooDeep_ok
        · exact not_tooDeep_fault (by decide)

theorem not_tooDeep_clause : ¬ TooDeep (clause s c) := by
  unfold clause
  dsimp only
  split
  · split
    · exact not_tooDeep_ok
    · rw [tooDeep_error_iff]
      exact nofun
  · exact not_tooDeep_fault (by decide)

theorem not_tooDeep_clausesTail {p : Parsed Word (Token Word) c} :
    ¬ TooDeep (clausesTail s p) := by
  induction hn : p.next.rest.length using Nat.strongRecOn generalizing p with
  | ind n ih =>
    rw [clausesTail]
    split
    · exact not_tooDeep_ok
    · rename_i op hop
      refine not_tooDeep_bind not_tooDeep_clause fun right => ?_
      exact ih right.next.rest.length (hn ▸ Nat.lt_trans right.shorter op.shorter)
        (p := p.skipTo (op.skipTo right)) rfl

theorem unjoined_of_clausesTail {p last : Parsed Word (Token Word) c}
    (h : clausesTail s p = .ok last) : Unjoined last.next.rest := by
  induction hn : p.next.rest.length using Nat.strongRecOn generalizing p with
  | ind n ih =>
    rw [clausesTail] at h
    split at h
    · rename_i hnone
      cases h
      exact Cursor.take?_eq_none_iff.1 hnone
    · rename_i op hop
      cases hright : clause s op.next with
      | error f =>
        rw [hright] at h
        cases h
      | ok right =>
        rw [hright] at h
        exact ih right.next.rest.length (hn ▸ Nat.lt_trans right.shorter op.shorter)
          (p := p.skipTo (op.skipTo right)) h rfl

/-- The clauses that have been delimited are those of a form, which has the text from the first to
the last of their tokens. -/
theorem exists_predicate_slice {head last : Parsed Word (Token Word) c}
    (hhead : clause s c = .ok head) (hlast : clausesTail s head = .ok last) :
    ∃ d : PredicateForm, c.rest = d.tokens ++ last.next.rest ∧ d.slice s.chars = sliceBytes
      ((c.rest.head?.map (·.offset)).getD s.length) last.value.stop s.chars := by
  obtain ⟨d, hr, -, hv⟩ := reads_clause.sound ⟨head, hhead, rfl, rfl⟩
  obtain ⟨tail, hr', -, hends⟩ := clausesTail_sound ⟨last, hlast, rfl, rfl⟩
  have hrest : c.rest = PredicateForm.tokens ⟨d, tail⟩ ++ last.next.rest := by
    rw [hr, hr', PredicateForm.tokens, List.append_assoc]
  have hends' : (PredicateForm.tokens ⟨d, tail⟩).getLast? = some last.value := by
    rw [getLast?_predicate, hv, hends]
  exact ⟨⟨d, tail⟩, hrest, by rw [slice_of_ends hends' last.next.rest, ← hrest]⟩

theorem exists_clauses (d : PredicateForm) {rest : Tokens} (hr : c.rest = d.tokens ++ rest)
    (hend : Unjoined rest) :
    ∃ head last, clause s c = .ok head ∧ clausesTail s head = .ok last ∧ d.slice s.chars =
      sliceBytes ((c.rest.head?.map (·.offset)).getD s.length) last.value.stop s.chars := by
  obtain ⟨t, ht⟩ : ∃ t, d.tokens.getLast? = some t := by
    rw [getLast?_predicate, List.getLast?_cons]
    exact ⟨_, rfl⟩
  have hr' : c.rest = d.head.tokens ++ (PredicateForm.tailTokens d.tail ++ rest) := by
    rw [hr, PredicateForm.tokens, List.append_assoc]
  have hclause : Gives (clause s c) d.head.closeParen.val
      ⟨PredicateForm.tailTokens d.tail ++ rest, c.depth⟩ :=
    reads_clause.complete d.head hr' rfl trivial rfl
  obtain ⟨head, hhead, hv, hn⟩ := hclause
  have htail : Gives (clausesTail s head) t ⟨rest, c.depth⟩ :=
    clausesTail_complete d.tail (by rw [hn]) (by rw [hn]) hend
      (by rw [hv, ← getLast?_predicate, ht])
  obtain ⟨last, hlast, hlv, -⟩ := htail
  exact ⟨head, last, hhead, hlast, by rw [slice_of_ends ht rest, ← hr, hlv]⟩

/-- A predicate goes too deep just if the text from its first to its last token does. -/
theorem tooDeep_predicate : TooDeep (predicate s c) ↔
    ∃ (d : PredicateForm) (rest : Tokens), c.rest = d.tokens ++ rest ∧ Unjoined rest ∧
      TooDeep (Predicate.parse (d.slice s.chars)) := by
  rw [predicate, tooDeep_bind, or_iff_right not_tooDeep_clause]
  constructor
  · rintro ⟨head, hhead, h⟩
    obtain ⟨last, hlast, h⟩ := (tooDeep_bind.1 h).resolve_left not_tooDeep_clausesTail
    obtain ⟨d, hr, hslice⟩ := exists_predicate_slice hhead hlast
    refine ⟨d, last.next.rest, hr, unjoined_of_clausesTail hlast, ?_⟩
    dsimp only at h
    split at h
    · exact absurd h not_tooDeep_ok
    · rename_i f hf
      have hcause : (f.shift _).cause = .nestedTooDeeply := tooDeep_error_iff.1 h
      exact ⟨f, hslice ▸ hf, hcause⟩
  · rintro ⟨d, rest, hr, hend, f, hf, hcause⟩
    obtain ⟨head, last, hhead, hlast, hslice⟩ := exists_clauses (s := s) d hr hend
    refine ⟨head, hhead, tooDeep_bind.2 (.inr ⟨last, hlast, ?_⟩)⟩
    dsimp only
    rw [← hslice, hf]
    exact tooDeep_error_iff.2 hcause

theorem tooDeep_vertexSource {singular : Bool} :
    TooDeep (vertexSource s singular c) ↔ TooDeep (predicate s c) := by
  unfold vertexSource
  constructor
  · intro h
    split at h
    · exact absurd h (not_tooDeep_bind not_tooDeep_integers fun _ =>
        not_tooDeep_bind (not_tooDeep_expect (by decide)) fun _ => not_tooDeep_ok)
    · split at h
      · exact absurd h (not_tooDeep_bind (not_tooDeep_reference (by decide)) fun _ =>
          not_tooDeep_ok)
      · split at h
        · exact tooDeep_bind_pure.1 h
        · exact absurd h (not_tooDeep_fault (by decide))
  · intro h
    obtain ⟨d, rest, hr, -⟩ := tooDeep_predicate.1 h
    obtain ⟨t, ts, ht, hhead⟩ := exists_predicate_head d
    rw [ht, List.cons_append] at hr
    have hbracket : t.kind ≠ .openBracket := by
      intro e
      simp [e, isWord] at hhead
    have hregion : ¬ (singular = true ∧ c.kind? = some .reference) := by
      rintro ⟨-, e⟩
      rw [Cursor.kind?_of_rest hr, Option.some.injEq] at e
      simp [e, isWord] at hhead
    rw [Cursor.eat?_of_ne hr hbracket]
    dsimp only
    rw [if_neg hregion, if_pos]
    · exact tooDeep_bind_pure.2 h
    · rw [Cursor.kind?_of_rest hr, hr]
      rcases hhead with hk | hk | hk <;> simp [hk]

theorem tooDeep_vertexLeaf {singular : Bool} : TooDeep (vertexLeaf s singular c) ↔
    ∃ word : Parsed Word (Token Word) c, c.eat? .inWord = some word ∧
      TooDeep (predicate s word.next) := by
  unfold vertexLeaf
  split
  · rename_i word hword
    rw [tooDeep_bind_pure, tooDeep_vertexSource]
    exact ⟨fun h => ⟨word, hword, h⟩, fun ⟨_, heq, h⟩ => Option.some.inj (hword.symm.trans heq) ▸ h⟩
  · rename_i hnone
    refine iff_of_false ?_ fun ⟨_, heq, _⟩ => nomatch hnone.symm.trans heq
    split
    · exact not_tooDeep_bind not_tooDeep_vertexOwner fun _ => not_tooDeep_ok
    · split
      · exact not_tooDeep_bind not_tooDeep_name fun _ => not_tooDeep_ok
      · split
        · exact not_tooDeep_bind not_tooDeep_integers fun _ => not_tooDeep_ok
        · exact not_tooDeep_fault (by decide)

theorem tooDeep_vertexLeaf_iff {singular : Bool} : TooDeep (vertexLeaf s singular c) ↔
    ∃ (inWord : Token Word) (d : PredicateForm) (rest : Tokens),
      c.rest = inWord :: (d.tokens ++ rest) ∧ inWord.kind = .inWord ∧ Unjoined rest ∧
        TooDeep (Predicate.parse (d.slice s.chars)) := by
  rw [tooDeep_vertexLeaf]
  constructor
  · rintro ⟨word, hword, h⟩
    obtain ⟨hk, hr, -⟩ := Cursor.of_eat? hword
    obtain ⟨d, rest, hrest, hd⟩ := tooDeep_predicate.1 h
    exact ⟨word.value, d, rest, hrest ▸ hr, hk, hd⟩
  · rintro ⟨inWord, d, rest, hr, hk, hd⟩
    obtain ⟨word, hword, -, hrest, -⟩ := Cursor.exists_eat? hr hk
    exact ⟨word, hword, tooDeep_predicate.2 ⟨d, rest, hrest, hd⟩⟩

/-- The only leaf that goes too deep is one whose predicate does. -/
theorem leaf_tooDeep_iff : TooDeep (leaf s c) ↔ Buries s c.rest := by
  constructor
  · intro h
    unfold leaf at h
    split at h
    · exact absurd h (not_tooDeep_fault (by decide))
    · rename_i t ht
      obtain ⟨u, hr, -, hu⟩ := Cursor.of_take? ht
      cases hu
      have hvertex {singular : Bool} (hk : t.value.kind = .vertex ∨ t.value.kind = .vertices)
          (h : TooDeep (vertexLeaf s singular t.next)) : Buries s c.rest := by
        obtain ⟨inWord, d, rest, hrest, hd⟩ := tooDeep_vertexLeaf_iff.1 h
        exact ⟨t.value, inWord, d, rest, hrest ▸ hr, hk, hd⟩
      split at h
      · exact absurd h not_tooDeep_ok
      · exact absurd h not_tooDeep_ok
      · exact absurd (tooDeep_bind_pure.1 h) (not_tooDeep_reference (by decide))
      · exact hvertex (.inl ‹_›) (tooDeep_bind_pure.1 h)
      · exact hvertex (.inr ‹_›) (tooDeep_bind_pure.1 h)
      · exact absurd (tooDeep_bind_pure.1 h) not_tooDeep_cellLeaf
      · exact absurd (tooDeep_bind_pure.1 h) not_tooDeep_cellLeaf
      · exact absurd h (not_tooDeep_fault (by decide))
  · rintro ⟨word, inWord, d, rest, hr, hk, hd⟩
    obtain ⟨p, hp, hv, hpr, -⟩ := Cursor.exists_take? (f := some) hr rfl
    rw [leaf, hp]
    dsimp only
    rcases hk with hk | hk <;>
    · rw [hv, hk]
      exact tooDeep_bind_pure.2 (tooDeep_vertexLeaf_iff.2 ⟨inWord, d, rest, hpr, hd⟩)

/-! ## One step of the reader -/

theorem not_tooDeep_operator? : ¬ TooDeep (operator? s c) := by
  unfold operator?
  split
  · exact not_tooDeep_ok
  · split
    · exact not_tooDeep_ok
    · exact not_tooDeep_fault (by decide)

theorem tooDeep_expr : TooDeep (expr s c) ↔
    TooDeep (term s c) ∨ ∃ left, term s c = .ok left ∧ TooDeep (exprTail s left) := by
  rw [expr]
  exact tooDeep_bind

/-- What is in front of the rest of a selection has no part in how deep the rest goes. -/
theorem tooDeep_exprTail_congr {left : Parsed Word Tree c} {left' : Parsed Word Tree c'}
    (h : left.next = left'.next) : TooDeep (exprTail s left) ↔ TooDeep (exprTail s left') := by
  induction hlen : left.next.rest.length using Nat.strongRecOn generalizing c c' left left' with
  | ind len ih =>
    obtain ⟨v, next, hshort⟩ := left
    obtain ⟨v', next', hshort'⟩ := left'
    cases h
    rw [exprTail, exprTail, tooDeep_bind, tooDeep_bind]
    refine or_congr_right (exists_congr fun o => and_congr_right fun _ => ?_)
    cases o with
    | none => exact iff_of_false not_tooDeep_ok not_tooDeep_ok
    | some op =>
      dsimp only
      rw [tooDeep_bind, tooDeep_bind]
      refine or_congr_right (exists_congr fun right => and_congr_right fun _ => ?_)
      exact ih right.next.rest.length (hlen ▸ Nat.lt_trans right.shorter op.shorter) rfl rfl

/-- Behind an operator a selection goes on as one that starts there. -/
theorem tooDeep_exprTail {left : Parsed Word Tree c} {op : Parsed Word SetOperator left.next}
    (hop : operator? s left.next = .ok (some op)) :
    TooDeep (exprTail s left) ↔ TooDeep (expr s op.next) := by
  rw [exprTail, hop, tooDeep_expr]
  show TooDeep (term s op.next >>= _) ↔ _
  refine tooDeep_bind.trans ?_
  exact or_congr_right (exists_congr fun right => and_congr_right fun _ =>
    tooDeep_exprTail_congr rfl)

/-- A parenthesis fails where there is no level left, and else takes one. -/
theorem tooDeep_term {paren : Parsed Word (Token Word) c} (h : c.eat? .openParen = some paren) :
    TooDeep (term s c) ↔
      (c.depth ≠ maxDepth → TooDeep (expr s ⟨paren.next.rest, c.depth + 1⟩)) := by
  rw [term, h]
  dsimp only
  by_cases hd : c.depth = maxDepth
  · rw [if_pos hd]
    exact iff_of_true ⟨_, rfl, Predicate.cause_fault⟩ fun hne => absurd hd hne
  · rw [if_neg hd, tooDeep_bind, or_iff_left]
    · exact ⟨fun h _ => h, fun h => h hd⟩
    · rintro ⟨e, -, h⟩
      exact not_tooDeep_expect (by decide) (tooDeep_bind_pure.1 h)

end

/-! ## Terms that nest too deeply -/

mutual

/-- Of the terms that can be read the first whose parentheses nest too deep is rejected for it. -/
theorem expr_tooDeep (head : TermForm) (tail : TailForm) {c : Cursor Word} {us : Tokens}
    {left t u : Tree} (hr : c.rest = head.tokens ++ (tail.tokens ++ us)) (hend : Closes us)
    (hhead : ∀ t ∈ head.integers, Fits t) (htail : ∀ t ∈ tail.integers, Fits t)
    (ht : head.tree? s.chars = some t) (hu : tail.treeFrom? s.chars left = some u)
    (hd : c.depth ≤ maxDepth) (hdeep : maxDepth < c.depth + max head.nesting tail.nesting) :
    TooDeep (expr s c) := by
  by_cases hterm : maxDepth < c.depth + head.nesting
  · exact tooDeep_expr.2 (.inl (term_tooDeep head hr hhead ht hd hterm))
  · obtain ⟨left', hleft, -, hn⟩ := term_complete (s := s) head
      (e := ⟨tail.tokens ++ us, c.depth⟩) hr rfl (tail.ends hend) ⟨hhead, by omega, ht⟩
    refine tooDeep_expr.2 (.inr ⟨left', hleft, ?_⟩)
    -- the head is shallow enough and is read, so one of the terms behind it is too deep
    match tail with
    | .nil =>
      rw [TailForm.nesting] at hdeep
      omega
    | .cons op term rest =>
      have hrest : left'.next.rest = op.token :: (term.tokens ++ (rest.tokens ++ us)) := by
        rw [hn, TailForm.tokens, List.cons_append, List.append_assoc]
      obtain ⟨p, hp, -, hpr, hpd⟩ := exists_operator? (s := s) op hrest
      have hpd' : p.next.depth = c.depth := by rw [hpd, hn]
      obtain ⟨v, hv, hu⟩ := Option.bind_eq_some_iff.1 hu
      rw [TailForm.integers] at htail
      rw [TailForm.nesting] at hdeep
      exact (tooDeep_exprTail hp).2 (expr_tooDeep term rest hpr hend
        (fun i hi => htail i (List.mem_append_left _ hi))
        (fun i hi => htail i (List.mem_append_right _ hi)) hv hu (by omega) (by omega))
termination_by sizeOf head + sizeOf tail + 1

theorem term_tooDeep (d : TermForm) {c : Cursor Word} {us : Tokens} {t : Tree}
    (hr : c.rest = d.tokens ++ us) (hfits : ∀ t ∈ d.integers, Fits t)
    (ht : d.tree? s.chars = some t) (hd : c.depth ≤ maxDepth)
    (hdeep : maxDepth < c.depth + d.nesting) : TooDeep (term s c) := by
  match d with
  | .leaf d =>
    rw [TermForm.nesting] at hdeep
    omega
  | .parens o (.mk head tail) close =>
    have hrest : c.rest = o.val :: (head.tokens ++ (tail.tokens ++ close.val :: us)) := by
      simp [hr, TermForm.tokens, ExprForm.tokens]
    obtain ⟨paren, hparen, -, hpr, -⟩ := Cursor.exists_eat? hrest o.property
    obtain ⟨v, hv, hu⟩ := Option.bind_eq_some_iff.1 ht
    rw [TermForm.integers, ExprForm.integers] at hfits
    rw [TermForm.nesting, ExprForm.nesting] at hdeep
    refine (tooDeep_term hparen).2 fun hne => ?_
    exact expr_tooDeep head tail (c := ⟨paren.next.rest, c.depth + 1⟩) hpr
      (heads_cons close.property) (fun i hi => hfits i (List.mem_append_left _ hi))
      (fun i hi => hfits i (List.mem_append_right _ hi)) hv hu
      (show c.depth + 1 ≤ maxDepth by omega) (show maxDepth < c.depth + 1 + _ by omega)
termination_by sizeOf d

end

/-! ## Beginnings that leave parentheses open -/

/-- Behind a beginning that leaves more parentheses open than there are levels, or in front of a
leaf that goes too deep, nothing is read. -/
theorem Opens.tooDeep {us : Tokens} {m : Nat} (h : Opens s us m) {c : Cursor Word} {rest : Tokens}
    (hr : c.rest = us ++ rest) (hd : c.depth ≤ maxDepth)
    (hm : maxDepth < c.depth + m ∨ Buries s rest) : TooDeep (expr s c) := by
  induction h generalizing c with
  | start =>
    obtain hm | hleaf := hm
    · omega
    · have hstart := hleaf
      obtain ⟨word, inWord, d, _, hword, hk, -⟩ := hstart
      rw [List.nil_append] at hr
      have hnone : c.eat? .openParen = none :=
        Cursor.eat?_of_ne (hr.trans hword) (by rcases hk with hk | hk <;> simp [hk])
      refine tooDeep_expr.2 (.inl ?_)
      rw [term, hnone]
      exact tooDeep_bind_pure.2 (leaf_tooDeep_iff.2 (hr ▸ hleaf))
  | @parens _ _ m ho _ ih =>
    obtain ⟨paren, hparen, -, hpr, -⟩ := Cursor.exists_eat? hr ho
    refine tooDeep_expr.2 (.inl ((tooDeep_term hparen).2 fun hne => ?_))
    exact ih (c := ⟨paren.next.rest, c.depth + 1⟩) hpr (show c.depth + 1 ≤ maxDepth by omega)
      (hm.imp_left fun hm => (show maxDepth < c.depth + 1 + m by omega))
  | @behind d op ts m hread _ ih =>
    obtain ⟨hfits, t, ht⟩ := hread
    rw [List.append_assoc, List.cons_append] at hr
    -- the term in front is too deep by itself, or it is read and the depth is the same behind it
    by_cases hdeep : maxDepth < c.depth + d.nesting
    · exact tooDeep_expr.2 (.inl (term_tooDeep d hr hfits ht hd hdeep))
    · obtain ⟨left, hleft, -, hn⟩ := term_complete (s := s) d
        (e := ⟨op.token :: (ts ++ rest), c.depth⟩) hr rfl (heads_cons (.inl op.sign))
        ⟨hfits, by omega, ht⟩
      obtain ⟨p, hp, -, hpr, hpd⟩ := exists_operator? (s := s) (c := left.next) op (by rw [hn])
      have hpd' : p.next.depth = c.depth := by rw [hpd, hn]
      refine tooDeep_expr.2 (.inr ⟨left, hleft, (tooDeep_exprTail hp).2 ?_⟩)
      exact ih hpr (by omega) (hpd' ▸ hm)

mutual

theorem expr_exceeds {c : Cursor Word} (h : TooDeep (expr s c)) (hd : c.depth ≤ maxDepth) :
    Exceeds s c.rest c.depth := by
  rcases tooDeep_expr.1 h with h | ⟨left, hleft, h⟩
  · exact term_exceeds h hd
  · obtain ⟨d, hr, hdl, hm⟩ := term_sound ⟨left, hleft, rfl, rfl⟩ hd
    have hrest := h
    rw [exprTail] at hrest
    obtain ⟨o, hop, hrest⟩ := (tooDeep_bind.1 hrest).resolve_left not_tooDeep_operator?
    cases o with
    | none => exact absurd hrest not_tooDeep_ok
    | some op =>
      obtain ⟨form, hro, hdo, -⟩ := of_operator? hop
      have hshort : op.next.rest.length < c.rest.length := Nat.lt_trans op.shorter left.shorter
      obtain ⟨us, m, rest, hrest, hopen, hexceeds⟩ :=
        expr_exceeds ((tooDeep_exprTail hop).1 h) (hdo ▸ hdl ▸ hd)
      refine ⟨d.tokens ++ form.token :: us, m, rest, ?_, .behind ⟨hm.fits, _, hm.tree⟩ hopen, ?_⟩
      · rw [hr, hro, hrest]
        simp
      · rw [hdl, hdo]
        exact hexceeds
termination_by 4 * c.rest.length + 2

theorem term_exceeds {c : Cursor Word} (h : TooDeep (term s c)) (hd : c.depth ≤ maxDepth) :
    Exceeds s c.rest c.depth := by
  cases hparen : c.eat? .openParen with
  | none =>
    rw [term, hparen] at h
    exact ⟨[], 0, c.rest, rfl, .start, .inr (leaf_tooDeep_iff.1 (tooDeep_bind_pure.1 h))⟩
  | some paren =>
    obtain ⟨hk, hr, -⟩ := Cursor.of_eat? hparen
    have hshort := paren.shorter
    by_cases hne : c.depth = maxDepth
    · exact ⟨[paren.value], 1, paren.next.rest, hr, .parens hk .start, .inl (by omega)⟩
    · obtain ⟨us, m, rest, hrest, hopen, hexceeds⟩ :=
        expr_exceeds (c := ⟨paren.next.rest, c.depth + 1⟩) ((tooDeep_term hparen).1 h hne)
          (show c.depth + 1 ≤ maxDepth by omega)
      change paren.next.rest = _ at hrest
      refine ⟨paren.value :: us, m + 1, rest, by rw [hr, hrest]; rfl, .parens hk hopen, ?_⟩
      exact hexceeds.imp_left fun hm => (show maxDepth < c.depth + (m + 1) by
        change maxDepth < c.depth + 1 + m at hm
        omega)
termination_by 4 * c.rest.length + 1

end

/-- The reader goes too deep just if some beginning of what it is given leaves more parentheses
open than there are levels from its depth on, or has a leaf behind it that goes too deep. -/
theorem expr_tooDeep_iff {c : Cursor Word} (hd : c.depth ≤ maxDepth) :
    TooDeep (expr s c) ↔ Exceeds s c.rest c.depth :=
  ⟨fun h => expr_exceeds h hd, fun ⟨_, _, _, hr, hopen, hm⟩ => hopen.tooDeep hr hd hm⟩

theorem parseTree_tooDeep_iff {text : List Char} :
    TooDeep (parseTree text) ↔
      ∃ ts, tokens text = .ok ts ∧ Exceeds (.ofChars text) ts 0 := by
  rw [parseTree]
  refine tooDeep_bind.trans ((or_iff_right not_tooDeep_scan).trans ?_)
  refine exists_congr fun ts => and_congr_right fun _ => ?_
  refine Iff.trans ?_ (expr_tooDeep_iff (c := ⟨ts, 0⟩) (Nat.zero_le _))
  refine tooDeep_bind.trans (or_iff_left ?_)
  rintro ⟨e, -, h⟩
  split at h
  · exact not_tooDeep_ok h
  · exact not_tooDeep_fault (by decide) h

theorem parse_tooDeep_iff {text : List Char} :
    (∃ e, parse text = .error e ∧ e.cause = .nestedTooDeeply) ↔ TooDeep (parseTree text) := by
  unfold parse
  cases parseTree text with
  | ok t => exact iff_of_false (fun ⟨_, h, _⟩ => nomatch h) not_tooDeep_ok
  | error f => exact ⟨fun ⟨_, h, hcause⟩ => ⟨f, rfl, by cases h; exact hcause⟩,
      fun h => ⟨_, rfl, tooDeep_error_iff.1 h⟩⟩

end Selection

end Subdomain
