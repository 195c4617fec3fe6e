import Subdomain.Proofs.Selection.Clauses
import Subdomain.Proofs.Selection.Vocabulary

/-!
# Predicates between parentheses

A selection delimits a predicate by its own tokens, and reads it again from the
text between them. As a predicate is balanced in its own tokens it is balanced in
those of the selection (`exists_balanced_of_parse`), and a text with the tokens of
a predicate form is the text that is read again (`IsPredicate.exists_slice`).
-/

namespace Subdomain

namespace Selection

open Lexical

theorem parenthesized : Parenthesized rules .openParen .closeParen where
  ne := by decide
  opens p h := by simpa [rules] using h
  closes p h := by simpa [rules] using h
  avoids := by decide +kernel

/-! ## Balance -/

theorem isWord_iff {w : String} {t : Token Word} :
    isWord w t = true ↔ t.kind = .identifier ∧ t.chars = w.toList := by
  rw [isWord, Bool.and_eq_true, decide_eq_true_eq, decide_eq_true_eq]

/-- Behind tokens that leave one parenthesis open for each of `n` that were, `closing` goes on with
one for each of `m`. -/
theorem closing_append {ts us : Tokens} {n m : Nat}
    (h : tokenRise .openParen .closeParen n ts = some m) :
    closing (n + 1) (ts ++ us) = closing (m + 1) us := by
  induction ts generalizing n with
  | nil =>
    cases h
    rfl
  | cons t ts ih =>
    rw [List.cons_append, closing]
    split
    · rename_i hk
      rw [tokenRise_open hk] at h
      exact ih h
    · rename_i hk
      cases n with
      | zero =>
        rw [tokenRise_zero_close (by simp [hk]) hk] at h
        cases h
      | succ n =>
        rw [tokenRise_close (by simp [hk]) hk] at h
        rw [if_neg (by omega), Nat.add_sub_cancel]
        exact ih h
    · rename_i ho hc
      rw [tokenRise_other ho hc] at h
      exact ih h

theorem exists_balanced {ts : Tokens} (h : tokenRise .openParen .closeParen 0 ts = some 0) :
    ∃ b : Balanced, ts = b.tokens := by
  have hclosing : closing 1 (ts ++ [⟨.closeParen, [')'], 0⟩]) = some (_, []) := closing_append h
  obtain ⟨b, e, us, hts, hend⟩ := balanced_of_closing hclosing
  obtain ⟨-, rfl⟩ := Prod.mk.inj hend
  exact ⟨b, List.append_inj_left' hts rfl⟩

theorem Balanced.level (b : Balanced) (n : Nat) :
    tokenRise .openParen .closeParen n b.tokens = some n := by
  induction b generalizing n with
  | nil => rfl
  | token t rest ih => rw [tokens, tokenRise_other t.property.1 t.property.2, ih]
  | group o inner c rest ihi ihr =>
    rw [tokens, tokenRise_open o.property, tokenRise_append, ihi, Option.bind_some,
      tokenRise_close (by simp [c.property]) c.property, ihr]

theorem ClauseForm.level (d : ClauseForm) (n : Nat) :
    tokenRise .openParen .closeParen n d.tokens = some n := by
  obtain ⟨negation, o, b, c⟩ := d
  have hbody : tokenRise .openParen .closeParen n (o.val :: (b.tokens ++ [c.val])) = some n := by
    rw [tokenRise_open o.property, tokenRise_append, b.level, Option.bind_some,
      tokenRise_close (by simp [c.property]) c.property]
    rfl
  cases negation with
  | none => exact hbody
  | some t =>
    have hkind : t.val.kind ≠ .openParen ∧ t.val.kind ≠ .closeParen := by
      rcases t.property with h | h
      · simp [h]
      · simp [(isWord_iff.1 h).1]
    exact (tokenRise_other hkind.1 hkind.2).trans hbody

theorem PredicateForm.level (d : PredicateForm) (n : Nat) :
    tokenRise .openParen .closeParen n d.tokens = some n := by
  obtain ⟨head, tail⟩ := d
  rw [tokens, tokenRise_append, head.level, Option.bind_some]
  induction tail with
  | nil => rfl
  | cons e tail ih =>
    have hkind : e.1.val.kind ≠ .openParen ∧ e.1.val.kind ≠ .closeParen := by
      rcases e.1.property with h | h | h | h
      · simp [h]
      · simp [h]
      · simp [(isWord_iff.1 h).1]
      · simp [(isWord_iff.1 h).1]
    rw [tailTokens, tokenRise_other hkind.1 hkind.2, tokenRise_append, e.2.level, Option.bind_some,
      ih]

/-- A text that is a predicate is balanced. -/
theorem exists_balanced_of_parse {text : List Char} {p : Predicate}
    (h : Predicate.parse text = .ok p) (n : Nat) : ∃ b : Balanced, Scans rules n text b.tokens := by
  obtain ⟨ts, hts, he, -⟩ := Predicate.of_parse h
  have hscans := scan_eq_ok_iff.1 hts
  obtain ⟨us, hus⟩ := (scannable_of_predicate hscans he.shaped.plain).scans n
  obtain ⟨b, rfl⟩ := exists_balanced (by
    rw [← hus.rise_eq parenthesized, hscans.rise_eq Predicate.parenthesized, he.shaped.level])
  exact ⟨b, hus⟩

/-! ## Clauses -/

theorem alone_blank : Alone rules ' ' := alone_of_all (by decide +kernel)

theorem alone_openParen : Alone rules '(' := alone_of_all (by decide +kernel)

theorem alone_closeParen : Alone rules ')' := alone_of_all (by decide +kernel)

theorem scans_takes {n : Nat} {w : List Char} {k : Word} (hw : Takes rules w [] k) :
    Scans rules n w [⟨k, w, n⟩] := by
  have h := Scans.token (n := n) hw (.done _)
  rwa [List.append_nil] at h

/-- In front of a blank a text that is a token is that token. -/
theorem scans_word {n : Nat} {w u : List Char} {k : Word} {ts : Tokens} (hw : Takes rules w [] k)
    (hu : Scans rules (n + byteLength (w ++ [' '])) u ts) :
    Scans rules n (w ++ ' ' :: u) (⟨k, w, n⟩ :: ts) :=
  (scans_takes hw).append_blank alone_blank (by decide) hu

/-- Parentheses around a text stand around its tokens. -/
theorem scans_parens {n : Nat} {s : List Char} {ts : Tokens} (h : Scans rules (n + 1) s ts) :
    ∃ (o : Terminal .openParen) (c : Terminal .closeParen),
      Scans rules n ('(' :: (s ++ [')'])) (o.val :: (ts ++ [c.val])) := by
  refine ⟨⟨_, rfl⟩, ⟨_, rfl⟩, .alone alone_openParen (by decide) ?_
    (h.append alone_closeParen (.alone alone_closeParen (by decide) ?_ (.done _)))⟩
  · exact (takes_of_best_eq (by decide) rfl).first
  · exact (takes_of_best_eq (by decide) rfl).first

/-- Anywhere the text has the tokens of a clause. -/
def IsClause (u : List Char) : Prop := ∀ n, ∃ d : ClauseForm, Scans rules n u d.tokens

theorem isClause_parens {P : List Char} {p : Predicate} (h : Predicate.parse P = .ok p) :
    IsClause ('(' :: (P ++ [')'])) := fun n => by
  obtain ⟨b, hb⟩ := exists_balanced_of_parse h (n + 1)
  obtain ⟨o, c, hs⟩ := scans_parens hb
  exact ⟨⟨none, o, b, c⟩, hs⟩

theorem isClause_not_parens {P : List Char} {p : Predicate} (h : Predicate.parse P = .ok p) :
    IsClause ('~' :: '(' :: (P ++ [')'])) := fun n => by
  obtain ⟨b, hb⟩ := exists_balanced_of_parse h (n + 1 + 1)
  obtain ⟨o, c, hs⟩ := scans_parens hb
  exact ⟨⟨some ⟨⟨.tilde, ['~'], n⟩, .inl rfl⟩, o, b, c⟩, hs.alone (alone_of_all (by decide +kernel))
    (by decide) (takes_of_best_eq (by decide) rfl).first⟩

/-! ## Whole predicates -/

/-- Anywhere the text has the tokens of a predicate, from its first to its last character. -/
structure IsPredicate (u : List Char) : Prop where
  solid : Solid u
  exists_form : ∀ n, ∃ d : PredicateForm, Scans rules n u d.tokens

theorem IsClause.isPredicate {u : List Char} (hu : IsClause u) (hs : Solid u) : IsPredicate u where
  solid := hs
  exists_form n := by
    obtain ⟨d, hd⟩ := hu n
    exact ⟨⟨d, []⟩, by rwa [PredicateForm.tokens, PredicateForm.tailTokens, List.append_nil]⟩

/-- The signs that join clauses. -/
inductive Joins : Char → Word → Prop where
  | amp : Joins '&' .amp
  | pipe : Joins '|' .pipe

theorem Joins.spec {c : Char} {k : Word} (h : Joins c k) : Alone rules c ∧ isBlank c = false ∧
    First [c] rules k ∧ (k = .amp ∨ k = .pipe) := by
  cases h
  · exact ⟨alone_of_all (by decide +kernel), by decide, (takes_of_best_eq (by decide) rfl).first,
      .inl rfl⟩
  · exact ⟨alone_of_all (by decide +kernel), by decide, (takes_of_best_eq (by decide) rfl).first,
      .inr rfl⟩

theorem IsClause.join {u v : List Char} (hu : IsClause u) (hv : IsClause v) {c : Char} {k : Word}
    (hc : Joins c k) (hs : Solid (u ++ ' ' :: c :: ' ' :: v)) :
    IsPredicate (u ++ ' ' :: c :: ' ' :: v) where
  solid := hs
  exists_form n := by
    obtain ⟨halone, hb, hfirst, hk⟩ := hc.spec
    obtain ⟨d, hd⟩ := hu n
    let m := n + byteLength (u ++ [' '])
    obtain ⟨d', hd'⟩ := hv (m + c.utf8Size + ' '.utf8Size)
    refine ⟨⟨d, [(⟨⟨k, [c], m⟩, hk.imp_right .inl⟩, d')]⟩, ?_⟩
    rw [PredicateForm.tokens, PredicateForm.tailTokens, PredicateForm.tailTokens, List.append_nil]
    exact hd.append_blank alone_blank (by decide) (.alone halone hb hfirst
      (.blank (by decide) hd'))

/-- In the text of a selection a predicate is read from its own characters. -/
theorem IsPredicate.exists_slice {u : List Char} (hu : IsPredicate u) (before after : List Char) :
    ∃ d : PredicateForm, Scans rules (byteLength before) u d.tokens ∧
      d.slice (before ++ (u ++ after)) = u := by
  obtain ⟨d, hd⟩ := hu.exists_form (byteLength before)
  refine ⟨d, hd, ?_⟩
  obtain ⟨t, ts, ht, -⟩ := exists_predicate_head d
  obtain ⟨e, he⟩ : ∃ e, d.tokens.getLast? = some e := by
    rw [ht, List.getLast?_cons]
    exact ⟨_, rfl⟩
  have hstart : t.offset = byteLength before := by
    rw [ht] at hd
    exact hd.offset_eq hu.solid
  have hstop := hd.stop_eq hu.solid.last he
  rw [PredicateForm.slice, he, ht]
  show sliceBytes t.offset e.stop _ = u
  rw [hstart, hstop, ← List.append_assoc, sliceBytes_append]

end Selection

end Subdomain
