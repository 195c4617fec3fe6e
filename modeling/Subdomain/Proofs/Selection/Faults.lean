import Subdomain.Proofs.Predicate.Faults
import Subdomain.Proofs.Selection.Expressions
import Subdomain.Proofs.Selection.Slices

/-!
# Faults of selections

A reader of selections finds its faults at the tokens that it has not read, behind
them, or in a predicate (`expr_stays` and the theorems around it). A predicate is
read from a text that closes all its parentheses, so that its faults are inside of
it, and stand in the whole text as far behind as the predicate.
-/

namespace Subdomain

namespace Selection

open Lexical

variable {s : Source} {all : Tokens} {P : Fault → Prop}

/-- The cursor is at tokens of `all` that are left. -/
def Within (all : Tokens) (c : Cursor Word) : Prop := c.rest <:+ all

/-- The faults at the tokens that are left, or behind them, and those of predicates. -/
structure Reports (s : Source) (all : Tokens) (P : Fault → Prop) : Prop where
  fault : ∀ (c : Cursor Word) cause, Within all c → P (c.fault s.length cause)
  predicate : ∀ (d : PredicateForm) t us rest f, d.tokens = t :: us → d.tokens ++ rest <:+ all →
    Predicate.parse (d.slice s.chars) = .error f → P (f.shift t.offset)

section

variable {α : Type} {c : Cursor Word}

theorem Within.take? {f : Token Word → Option α} {p : Parsed Word α c} (hc : Within all c)
    (h : c.take? f = some p) : Within all p.next := by
  obtain ⟨t, hr, -⟩ := Cursor.of_take? h
  exact (List.suffix_cons t _).trans (hr ▸ hc)

theorem Within.eat? {k : Word} {p : Parsed Word (Token Word) c} (hc : Within all c)
    (h : c.eat? k = some p) : Within all p.next := hc.take? h

/-! ## Parts of leaves -/

theorem stays_expect (hP : Reports s all P) {k : Word} {cause : SyntaxCause}
    (hc : Within all c) : Stays (Within all) P (c.expect s.length k cause) := by
  unfold Cursor.expect
  split
  · rename_i p hp
    exact stays_ok (hc.eat? hp)
  · exact stays_error (hP.fault _ _ hc)

theorem stays_reference (hP : Reports s all P) {cause : SyntaxCause} (hc : Within all c) :
    Stays (Within all) P (reference s cause c) :=
  (stays_expect hP hc).bind fun _ hp => stays_ok hp

theorem stays_name (hP : Reports s all P) (hc : Within all c) :
    Stays (Within all) P (name s c) := by
  unfold name
  split
  · rename_i p hp
    exact stays_ok (hc.take? hp)
  · exact stays_error (hP.fault _ _ hc)

theorem stays_integer (hP : Reports s all P) (hc : Within all c) :
    Stays (Within all) P (integer s c) := by
  refine (stays_expect hP hc).bind fun t ht => ?_
  dsimp only
  split
  · exact stays_ok ht
  · exact stays_error (hP.fault _ _ hc)

theorem stays_signedInteger (hP : Reports s all P) (hc : Within all c) :
    Stays (Within all) P (signedInteger s c) := by
  unfold signedInteger
  split
  · exact stays_integer hP hc
  · rename_i sign hsign
    exact (stays_integer hP (hc.eat? hsign)).bind fun _ hn => stays_ok hn

theorem Within.skipComma {k : Word} (hc : Within all c) : Within all (skipComma k c) := by
  obtain ⟨⟨comma, h⟩, -⟩ := skipComma_sound k c
  exact List.IsSuffix.trans ⟨_, h.symm⟩ hc

theorem stays_itemsTail {k : Word} {item : (c : Cursor Word) → Reading α c}
    (hitem : ∀ c, Within all c → Stays (Within all) P (item c)) {p : Parsed Word α c}
    (hl : Within all p.next) : Stays (Within all) P (itemsTail k item p) := by
  induction hn : p.next.rest.length using Nat.strongRecOn generalizing p with
  | ind n ih =>
    rw [itemsTail]
    dsimp only
    split
    · refine (hitem _ hl.skipComma).bind fun e he => ?_
      have hlt : e.next.rest.length < n :=
        hn ▸ Nat.lt_of_lt_of_le e.shorter (length_skipComma k p.next)
      exact (ih _ hlt (p := ⟨e.value, e.next, _⟩) he rfl).bind fun rest hrest => stays_ok hrest
    · exact stays_ok hl

theorem stays_items {k : Word} {item : (c : Cursor Word) → Reading α c}
    (hitem : ∀ c, Within all c → Stays (Within all) P (item c)) (hc : Within all c) :
    Stays (Within all) P (items k item c) :=
  (hitem c hc).bind fun _ hp => stays_itemsTail hitem hp

theorem stays_integers (hP : Reports s all P) (hc : Within all c) :
    Stays (Within all) P (integers s c) :=
  stays_items (fun _ => stays_integer hP) hc

theorem stays_pair (hP : Reports s all P) (hc : Within all c) :
    Stays (Within all) P (pair s c) :=
  (stays_expect hP hc).bind fun _ ho => (stays_integer hP ho).bind fun _ hg =>
    (stays_expect hP hg).bind fun _ hm => (stays_integer hP hm).bind fun _ hi =>
      (stays_expect hP hi).bind fun _ he => stays_ok he

/-! ## Predicates -/

theorem stays_clause (hP : Reports s all P) (hc : Within all c) :
    Stays (Within all) P (clause s c) where
  next p hp := by
    obtain ⟨d, hr, -⟩ := reads_clause.sound ⟨p, hp, rfl, rfl⟩
    exact List.IsSuffix.trans ⟨d.tokens, hr.symm⟩ hc
  fault f hf := by
    unfold clause at hf
    dsimp only at hf
    split at hf
    · split at hf
      · cases hf
      · cases hf
        exact hP.fault ⟨[], 0⟩ _ (List.nil_suffix)
    · cases hf
      obtain ⟨⟨negation, h⟩, -⟩ := skipNegation_sound c
      exact hP.fault _ _ (List.IsSuffix.trans ⟨_, h.symm⟩ hc)

theorem stays_clausesTail (hP : Reports s all P) {p : Parsed Word (Token Word) c}
    (hl : Within all p.next) : Stays (Within all) P (clausesTail s p) := by
  induction hn : p.next.rest.length using Nat.strongRecOn generalizing p with
  | ind n ih =>
    rw [clausesTail]
    split
    · exact stays_ok hl
    · rename_i op hop
      refine (stays_clause hP (hl.take? hop)).bind fun right hright => ?_
      exact ih right.next.rest.length (hn ▸ Nat.lt_trans right.shorter op.shorter)
        (p := p.skipTo (op.skipTo right)) hright rfl

theorem stays_predicate (hP : Reports s all P) (hc : Within all c) :
    Stays (Within all) P (predicate s c) := by
  unfold predicate
  cases hhead : clause s c with
  | error f => exact stays_error ((stays_clause hP hc).fault f hhead)
  | ok head =>
    have hnext := (stays_clause hP hc).next head hhead
    show Stays (Within all) P (clausesTail s head >>= _)
    cases hlast : clausesTail s head with
    | error f => exact stays_error ((stays_clausesTail hP hnext).fault f hlast)
    | ok last =>
      dsimp only [bind, Except.bind]
      split
      · exact stays_ok ((stays_clausesTail hP hnext).next last hlast)
      · rename_i f hf
        -- The text that is read is that of the form that has been delimited.
        obtain ⟨d, hr, -, hv⟩ := reads_clause.sound ⟨head, hhead, rfl, rfl⟩
        obtain ⟨tail, hr', -, hends⟩ := clausesTail_sound ⟨last, hlast, rfl, rfl⟩
        have hrest : c.rest = PredicateForm.tokens ⟨d, tail⟩ ++ last.next.rest := by
          rw [hr, hr', PredicateForm.tokens, List.append_assoc]
        have hends' : (PredicateForm.tokens ⟨d, tail⟩).getLast? = some last.value := by
          rw [getLast?_predicate, hv, hends]
        obtain ⟨t, us, ht, -⟩ := exists_predicate_head ⟨d, tail⟩
        have hslice := slice_of_ends (s := s) hends' last.next.rest
        rw [← hrest] at hslice
        rw [← hslice] at hf
        have hstart : (c.rest.head?.map (·.offset)).getD s.length = t.offset := by
          rw [hrest, ht]
          rfl
        rw [hstart]
        exact stays_error (hP.predicate _ t us _ f ht (by rw [← hrest]; exact hc) hf)

/-! ## Leaves -/

theorem stays_vertexSource (hP : Reports s all P) {singular : Bool} (hc : Within all c) :
    Stays (Within all) P (vertexSource s singular c) := by
  unfold vertexSource
  split
  · rename_i bracket hbracket
    exact (stays_integers hP (hc.eat? hbracket)).bind fun _ hl =>
      (stays_expect hP hl).bind fun _ he => stays_ok he
  · split
    · exact (stays_reference hP hc).bind fun _ hp => stays_ok hp
    · split
      · exact (stays_predicate hP hc).bind fun _ hp => stays_ok hp
      · exact stays_error (hP.fault _ _ hc)

theorem stays_owner (hP : Reports s all P) {ofGroup : Int → Leaf} {ofSet : String → Leaf}
    {cause : SyntaxCause} (hc : Within all c) :
    Stays (Within all) P (owner s ofGroup ofSet cause c) := by
  unfold owner
  split
  · rename_i group hgroup
    exact (stays_signedInteger hP (hc.eat? hgroup)).bind fun _ hp => stays_ok hp
  · split
    · rename_i set hset
      exact (stays_name hP (hc.eat? hset)).bind fun _ hp => stays_ok hp
    · exact stays_error (hP.fault _ _ hc)

theorem stays_vertexOwner (hP : Reports s all P) (hc : Within all c) :
    Stays (Within all) P (vertexOwner s c) := by
  unfold vertexOwner
  split
  · rename_i surface hsurface
    exact stays_ok (hc.eat? hsurface)
  · exact stays_owner hP hc

theorem stays_vertexLeaf (hP : Reports s all P) {singular : Bool} (hc : Within all c) :
    Stays (Within all) P (vertexLeaf s singular c) := by
  unfold vertexLeaf
  split
  · rename_i word hword
    exact (stays_vertexSource hP (hc.eat? hword)).bind fun _ hp => stays_ok hp
  · split
    · rename_i word hword
      exact (stays_vertexOwner hP (hc.eat? hword)).bind fun _ hp => stays_ok hp
    · split
      · rename_i word hword
        exact (stays_name hP (hc.eat? hword)).bind fun _ hp => stays_ok hp
      · split
        · exact (stays_integers hP hc).bind fun _ hp => stays_ok hp
        · exact stays_error (hP.fault _ _ hc)

theorem stays_cellLeaf (hP : Reports s all P) (hc : Within all c) :
    Stays (Within all) P (cellLeaf s c) := by
  unfold cellLeaf
  split
  · rename_i word hword
    exact (stays_name hP (hc.eat? hword)).bind fun _ hp => stays_ok hp
  · split
    · rename_i word hword
      exact (stays_owner hP (hc.eat? hword)).bind fun _ hp => stays_ok hp
    · split
      · exact (stays_items (fun _ => stays_pair hP) hc).bind fun _ hp => stays_ok hp
      · split
        · exact (stays_integers hP hc).bind fun _ hp => stays_ok hp
        · exact stays_error (hP.fault _ _ hc)

theorem stays_leaf (hP : Reports s all P) (hc : Within all c) :
    Stays (Within all) P (leaf s c) := by
  unfold leaf
  split
  · exact stays_error (hP.fault _ _ hc)
  · rename_i t ht
    have hnext := hc.take? ht
    split
    · exact stays_ok hnext
    · exact stays_ok hnext
    · exact (stays_reference hP hnext).bind fun _ hp => stays_ok hp
    · exact (stays_vertexLeaf hP hnext).bind fun _ hp => stays_ok hp
    · exact (stays_vertexLeaf hP hnext).bind fun _ hp => stays_ok hp
    · exact (stays_cellLeaf hP hnext).bind fun _ hp => stays_ok hp
    · exact (stays_cellLeaf hP hnext).bind fun _ hp => stays_ok hp
    · exact stays_error (hP.fault _ _ hc)

/-- A sign that is no operator is a fault at its token. -/
theorem fault_of_operator? (hP : Reports s all P) (hc : Within all c) {f : Fault}
    (h : operator? s c = .error f) : P f := by
  unfold operator? at h
  split at h
  · cases h
  · split at h
    · cases h
    · cases h
      exact hP.fault _ _ hc

end

/-! ## Expressions -/

mutual

theorem expr_stays (hP : Reports s all P) {c : Cursor Word} (hc : Within all c) :
    Stays (Within all) P (expr s c) := by
  rw [expr]
  refine (term_stays hP hc).bind fun left hl => ?_
  have := left.shorter
  exact exprTail_stays hP hl
termination_by 4 * c.rest.length + 2

theorem exprTail_stays (hP : Reports s all P) {c : Cursor Word} {p : Parsed Word Tree c}
    (hl : Within all p.next) : Stays (Within all) P (exprTail s p) := by
  rw [exprTail]
  cases hop : operator? s p.next with
  | error f => exact stays_error (fault_of_operator? hP hl hop)
  | ok o =>
    cases o with
    | none => exact stays_ok hl
    | some op =>
      obtain ⟨d, hr, -⟩ := of_operator? hop
      have := op.shorter
      refine (term_stays hP (c := op.next) ((List.suffix_cons d.token _).trans (hr ▸ hl))).bind
        fun right hright => ?_
      have := right.shorter
      exact exprTail_stays hP (p := (p.skipTo (op.skipTo right)).map
        (.combine p.value op.value)) hright
termination_by 4 * p.next.rest.length

theorem term_stays (hP : Reports s all P) {c : Cursor Word} (hc : Within all c) :
    Stays (Within all) P (term s c) := by
  rw [term]
  split
  · exact (stays_leaf hP hc).bind fun _ hl => stays_ok hl
  · rename_i paren hparen
    split
    · exact stays_error (hP.fault _ _ hc)
    · have := paren.shorter
      have hinner : Within all (paren.atDepth (c.depth + 1)).next :=
        Within.eat? hc hparen (p := paren)
      refine (expr_stays hP hinner).bind fun e he => ?_
      exact (stays_expect hP he).bind fun close hclose => stays_ok hclose
termination_by 4 * c.rest.length + 1

end

/-! ## Whole texts -/

theorem reports_text {text : List Char} {ts : Tokens} (hts : Scans rules 0 text ts) :
    Reports (.ofChars text) ts fun f => f.InText text ∨ f.IsAtEnd text where
  fault := by
    rintro ⟨rest, depth⟩ cause hc
    cases rest with
    | nil => exact .inr ⟨rfl, rfl⟩
    | cons t rest =>
      exact .inl (hts.inText alone_blank (List.IsSuffix.subset hc (.head _)) cause)
  predicate := by
    rintro d t us rest f hd ⟨pre, hpre⟩ hf
    obtain ⟨before, part, after, rfl, hstart, hslice, hpart⟩ :=
      exists_slice_of_scans hd (hpre ▸ hts)
    have hrise : textRise 0 (part ++ [')']) = some 0 := by
      rw [hpart.rise_eq parenthesized, d.level]
    rw [hstart]
    refine .inl ((Predicate.inText_of_parse hrise ?_).shift before after)
    rw [← hslice]
    exact hf

/-- The fault of a text that is no selection stands in the text, or is the end of it. -/
theorem parse_fault {text : List Char} {e : SyntaxError} (h : parse text = .error e) :
    e.text = text ∧ (e.toFault.InText text ∨ e.toFault.IsAtEnd text) := by
  have htree : ∀ f, parseTree text = .error f → f.InText text ∨ f.IsAtEnd text := by
    intro f hf
    unfold parseTree at hf
    cases hts : Selection.tokens text with
    | error g =>
      rw [hts] at hf
      cases hf
      exact .inl (inText_of_scan hts)
    | ok ts =>
      rw [hts] at hf
      change expr (.ofChars text) ⟨ts, 0⟩ >>= _ = _ at hf
      have hreports := reports_text (scan_eq_ok_iff.1 hts)
      have hstays := expr_stays hreports (c := ⟨ts, 0⟩) (List.suffix_refl ts)
      cases he : expr (.ofChars text) ⟨ts, 0⟩ with
      | error g =>
        rw [he] at hf
        cases hf
        exact hstays.fault f he
      | ok e =>
        rw [he] at hf
        change (if e.next.rest.isEmpty then _ else _) = _ at hf
        split at hf
        · cases hf
        · cases hf
          exact hreports.fault _ _ (hstays.next e he)
  unfold parse at h
  cases hf : parseTree text with
  | ok t =>
    rw [hf] at h
    cases h
  | error f =>
    rw [hf] at h
    cases h
    exact ⟨rfl, htree f hf⟩

end Selection

/-- A syntax error, of a selection or of a predicate, holds the text that was read. Its fragment
stands in the text at its position, or it is at the end of the text and says so. A fault in a
predicate of a selection is one of the text as well, and not at the end of the predicate. -/
theorem syntaxError_place {text : List Char} {e : SyntaxError}
    (h : Selection.parse text = .error e ∨ Predicate.ofText text = .error e) :
    e.text = text ∧ (e.toFault.InText text ∨ e.toFault.IsAtEnd text) :=
  h.elim Selection.parse_fault Predicate.ofText_fault

def error? {ε α : Type} : Except ε α → Option ε
  | .error e => some e
  | .ok _ => none

theorem eq_error_of_error? {ε α : Type} {r : Except ε α} {e : ε} (h : error? r = some e) :
    r = .error e := by
  cases r with
  | error f => rw [Option.some.inj h]
  | ok a => cases h

/-- The predicate `(x <)` ends too early, inside a selection and alone, and so does `x <`. -/
theorem syntaxError_place_unfinished :
    (∃ e, Selection.parse "vertices in (x <)".toList = .error e ∧ e.position = 16 ∧
      e.toFault.InText "vertices in (x <)".toList) ∧
    ∃ e, Predicate.ofText "x <".toList = .error e ∧ e.position = 3 ∧
      e.toFault.IsAtEnd "x <".toList := by
  have hselection : Selection.parse "vertices in (x <)".toList =
      .error ⟨⟨.expectedExpression, [')'], 16⟩, "vertices in (x <)".toList⟩ :=
    eq_error_of_error? (by decide +kernel)
  have hpredicate : Predicate.ofText "x <".toList =
      .error ⟨.atEnd .expectedExpression 3, "x <".toList⟩ :=
    eq_error_of_error? (by decide +kernel)
  refine ⟨⟨_, hselection, rfl, ?_⟩, _, hpredicate, rfl, ?_⟩
  · exact (syntaxError_place (.inl hselection)).2.resolve_right fun h => by
      cases h.fragment_eq
  · exact (syntaxError_place (.inr hpredicate)).2.resolve_left fun h => h.fragment_ne rfl

end Subdomain
