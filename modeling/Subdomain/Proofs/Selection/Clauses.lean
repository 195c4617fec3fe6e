import Subdomain.Proofs.Lexical.Cursor
import Subdomain.Proofs.Selection.Grammar

/-!
# Delimiting predicates

A clause ends at the token that balances its first parenthesis, and `closing`
finds that token because what stands in between is balanced. A predicate takes
all clauses that connectives join, so that no connective may follow it.
-/

namespace Subdomain

namespace Selection

variable {s : Source}

/-! ## Balanced parentheses -/

theorem closing_balanced (b : Balanced) {n : Nat} (hn : 1 ≤ n) {ts : Tokens} :
    closing n (b.tokens ++ ts) = closing n ts := by
  induction b generalizing n ts with
  | nil => rfl
  | token t rest ih =>
    obtain ⟨t, ho, hc⟩ := t
    rw [Balanced.tokens, List.cons_append, closing]
    split
    · contradiction
    · contradiction
    · exact ih hn
  | group o inner c rest ihi ihr =>
    obtain ⟨o, ho⟩ := o
    obtain ⟨c, hc⟩ := c
    rw [Balanced.tokens, List.cons_append, closing, ho]
    simp only [List.append_assoc, List.cons_append]
    rw [ihi (Nat.le_add_left 1 n), closing, hc]
    simp only
    rw [if_neg (by omega), Nat.add_sub_cancel]
    exact ihr hn

/-- With `n + 1` open parentheses balanced tokens lead to the next one that is closed. -/
theorem balanced_of_closing {n : Nat} {ts rest : Tokens} {t : Token Word}
    (h : closing (n + 1) ts = some (t, rest)) :
    ∃ (b : Balanced) (c : Terminal .closeParen) (us : Tokens), ts = b.tokens ++ c.val :: us ∧
      if n = 0 then (c.val, us) = (t, rest) else closing n us = some (t, rest) := by
  induction hl : ts.length using Nat.strongRecOn generalizing n ts with
  | ind l ih =>
    cases ts with
    | nil => cases h
    | cons u us =>
      subst hl
      rw [closing] at h
      split at h
      · rename_i hk
        obtain ⟨b₁, c₁, us₁, rfl, h₁⟩ := ih _ (by simp) h rfl
        rw [if_neg (Nat.succ_ne_zero n)] at h₁
        obtain ⟨b₂, c₂, us₂, rfl, h₂⟩ := ih us₁.length (by simp; omega) h₁ rfl
        refine ⟨.group ⟨u, hk⟩ b₁ c₁ b₂, c₂, us₂, ?_, h₂⟩
        simp [Balanced.tokens]
      · rename_i hk
        refine ⟨.nil, ⟨u, hk⟩, us, rfl, ?_⟩
        by_cases hn : n = 0
        · rw [if_pos (by omega)] at h
          rw [if_pos hn]
          exact Option.some.inj h
        · rw [if_neg (by omega), Nat.add_sub_cancel] at h
          rwa [if_neg hn]
      · rename_i ho hc
        obtain ⟨b, c, us', rfl, h'⟩ := ih _ (by simp) h rfl
        exact ⟨.token ⟨u, ho, hc⟩ b, c, us', rfl, h'⟩

/-! ## Clauses -/

theorem not_isNot_of_openParen {t : Token Word} (h : t.kind = .openParen) :
    ¬ (t.kind = .tilde ∨ isWord "not" t = true) := by
  simp [h, isWord]

theorem skipNegation_sound (c : Cursor Word) :
    (∃ negation : Option NotForm,
      c.rest = (negation.map (·.val)).toList ++ (skipNegation c).rest) ∧
      c.depth = (skipNegation c).depth := by
  unfold skipNegation
  split
  · rename_i t ts hc
    split
    · rename_i ht
      exact ⟨⟨some ⟨t, ht⟩, hc⟩, rfl⟩
    · exact ⟨⟨none, rfl⟩, rfl⟩
  · exact ⟨⟨none, rfl⟩, rfl⟩

theorem skipNegation_of_openParen {c : Cursor Word} (negation : Option NotForm) {t : Token Word}
    {ts : Tokens} (h : c.rest = (negation.map (·.val)).toList ++ t :: ts)
    (ht : t.kind = .openParen) : skipNegation c = ⟨t :: ts, c.depth⟩ := by
  obtain ⟨rest, depth⟩ := c
  subst h
  cases negation with
  | none => exact if_neg (not_isNot_of_openParen ht)
  | some n => exact if_pos n.property

theorem reads_clause :
    Reads (clause s) ClauseForm.tokens Anything (fun d t => d.closeParen.val = t) where
  sound {c c' t} h := by
    unfold clause at h
    dsimp only at h
    split at h
    · rename_i hk
      split at h
      · rename_i u us hclose
        obtain ⟨rfl, rfl⟩ := gives_ok.1 h
        obtain ⟨⟨negation, hneg⟩, hdepth⟩ := skipNegation_sound c
        obtain ⟨o, ts, hts, ho⟩ := Cursor.exists_of_kind? hk
        rw [hts, closing, ho] at hclose
        rw [hts] at hneg
        obtain ⟨b, e, vs, rfl, hend⟩ := balanced_of_closing hclose
        cases hend
        refine ⟨⟨negation, ⟨o, ho⟩, b, e⟩, ?_, rfl, rfl⟩
        rw [hneg, ClauseForm.tokens]
        simp
      · exact absurd h not_gives_error
    · exact absurd h not_gives_error
  complete {c c' t} d hr hd _ hm := by
    subst hm
    have hskip : skipNegation c =
        ⟨d.openParen.val :: (d.body.tokens ++ d.closeParen.val :: c'.rest), c.depth⟩ := by
      refine skipNegation_of_openParen d.negation ?_ d.openParen.property
      rw [hr, ClauseForm.tokens]
      simp
    have hclosing : closing 0 (skipNegation c).rest = some (d.closeParen.val, c'.rest) := by
      rw [hskip, closing, d.openParen.property]
      simp only
      rw [closing_balanced d.body (Nat.le_refl 1), closing, d.closeParen.property]
      rfl
    unfold clause
    dsimp only
    rw [if_pos (by rw [hskip]; exact congrArg some d.openParen.property)]
    split
    · rename_i u us hclose
      cases hclosing.symm.trans hclose
      exact gives_ok.2 ⟨rfl, Cursor.eq_of_rest rfl hd⟩
    · rename_i hclose
      cases hclosing.symm.trans hclose

theorem getLast?_clause (d : ClauseForm) : d.tokens.getLast? = some d.closeParen.val := by
  simp [ClauseForm.tokens, List.getLast?_append, List.getLast?_cons]

/-! ## Predicates -/

/-- No connective is next. -/
def Unjoined : Tokens → Prop := Heads fun t => connective? t = none

theorem clausesTail_sound {c c' : Cursor Word} {left : Parsed Word (Token Word) c}
    {t : Token Word} (h : Gives (clausesTail s left) t c') :
    ∃ tail, left.next.rest = PredicateForm.tailTokens tail ++ c'.rest ∧
      left.next.depth = c'.depth ∧
      (left.value :: PredicateForm.tailTokens tail).getLast? = some t := by
  induction hl : left.next.rest.length using Nat.strongRecOn generalizing left with
  | ind n ih =>
    rw [clausesTail] at h
    split at h
    · obtain ⟨rfl, rfl⟩ := gives_ok.1 h
      exact ⟨[], rfl, rfl, rfl⟩
    · rename_i op hop
      obtain ⟨u, hru, hdu, hu⟩ := Cursor.of_take? hop
      have hjoins : u.kind = .amp ∨ u.kind = .pipe ∨ isWord "and" u = true ∨
          isWord "or" u = true := by
        unfold connective? at hu
        split at hu
        · assumption
        · cases hu
      obtain ⟨right, hright, h⟩ := gives_bind.1 h
      obtain ⟨d, hr, hd, hv⟩ := reads_clause.sound hright
      obtain ⟨tail, hr', hd', hlast⟩ := ih right.next.rest.length
        (hl ▸ Nat.lt_trans right.shorter op.shorter) h rfl
      refine ⟨(⟨u, hjoins⟩, d) :: tail, ?_, hdu.trans (hd.trans hd'), ?_⟩
      · rw [hru, hr]
        change right.next.rest = _ at hr'
        rw [hr', PredicateForm.tailTokens]
        simp
      · change (right.value :: _).getLast? = _ at hlast
        rw [List.getLast?_cons, ← hv] at hlast
        rw [PredicateForm.tailTokens, List.getLast?_cons, List.getLast?_cons,
          List.getLast?_append, getLast?_clause, ← hlast]
        cases (PredicateForm.tailTokens tail).getLast? <;> rfl

theorem clausesTail_complete (tail : List (ConnectiveForm × ClauseForm)) {c c' : Cursor Word}
    {left : Parsed Word (Token Word) c} {t : Token Word}
    (hr : left.next.rest = PredicateForm.tailTokens tail ++ c'.rest)
    (hd : left.next.depth = c'.depth) (hend : Unjoined c'.rest)
    (hlast : (left.value :: PredicateForm.tailTokens tail).getLast? = some t) :
    Gives (clausesTail s left) t c' := by
  induction tail generalizing left with
  | nil =>
    have hrest : left.next.rest = c'.rest := hr
    have hnone : left.next.take? connective? = none :=
      Cursor.take?_eq_none_iff.2 fun u hu => hend u (hrest ▸ hu)
    rw [clausesTail]
    split
    · exact gives_ok.2 ⟨Option.some.inj hlast, Cursor.eq_of_rest hrest hd⟩
    · rename_i hsome
      cases hnone.symm.trans hsome
  | cons e tail ih =>
    obtain ⟨op, d⟩ := e
    rw [PredicateForm.tailTokens, List.cons_append, List.append_assoc] at hr
    obtain ⟨p, hp, -, hpr, hpd⟩ := Cursor.exists_take? (f := connective?) hr (if_pos op.property)
    rw [clausesTail]
    split
    · rename_i hnone
      cases hnone.symm.trans hp
    · rename_i q hq
      cases hp.symm.trans hq
      refine (reads_clause.complete (e := ⟨_, c'.depth⟩) d hpr (hpd.trans hd) trivial rfl).bind
        fun right hv hn => ih ?_ ?_ ?_
      · show right.next.rest = _
        rw [hn]
      · show right.next.depth = _
        rw [hn]
      · show (right.value :: _).getLast? = _
        rw [PredicateForm.tailTokens, List.getLast?_cons, List.getLast?_cons,
          List.getLast?_append, getLast?_clause] at hlast
        rw [List.getLast?_cons, hv, ← hlast]
        cases (PredicateForm.tailTokens tail).getLast? <;> rfl

theorem exists_clause_head (d : ClauseForm) : ∃ t ts, d.tokens = t :: ts ∧
    (t.kind = .tilde ∨ isWord "not" t = true ∨ t.kind = .openParen) := by
  obtain ⟨_ | n, o, b, e⟩ := d
  · exact ⟨o.val, _, rfl, .inr (.inr o.property)⟩
  · exact ⟨n.val, _, rfl, n.property.imp_right .inl⟩

theorem exists_predicate_head (d : PredicateForm) : ∃ t ts, d.tokens = t :: ts ∧
    (t.kind = .tilde ∨ isWord "not" t = true ∨ t.kind = .openParen) := by
  obtain ⟨t, ts, hd, ht⟩ := exists_clause_head d.head
  exact ⟨t, _, by rw [PredicateForm.tokens, hd]; rfl, ht⟩

theorem getLast?_predicate (d : PredicateForm) :
    d.tokens.getLast? = (d.head.closeParen.val :: PredicateForm.tailTokens d.tail).getLast? := by
  rw [PredicateForm.tokens, List.getLast?_append, getLast?_clause, List.getLast?_cons]
  cases (PredicateForm.tailTokens d.tail).getLast? <;> rfl

theorem slice_of_ends {d : PredicateForm} {last : Token Word}
    (hlast : d.tokens.getLast? = some last) (ts : Tokens) :
    d.slice s.chars = sliceBytes
      (((d.tokens ++ ts).head?.map (·.offset)).getD s.length) last.stop s.chars := by
  obtain ⟨t, us, ht, -⟩ := exists_predicate_head d
  rw [PredicateForm.slice, hlast, ht]
  rfl

theorem reads_predicate :
    Reads (predicate s) PredicateForm.tokens Unjoined
      (fun d p => d.predicate? s.chars = some p) where
  sound {c c' p} h := by
    obtain ⟨head, hhead, h⟩ := gives_bind.1 h
    obtain ⟨d, hr, hd, hv⟩ := reads_clause.sound hhead
    obtain ⟨last, hlast, h⟩ := gives_bind.1 h
    obtain ⟨tail, hr', hd', hlast'⟩ := clausesTail_sound hlast
    dsimp only at h
    split at h
    · rename_i q hq
      obtain ⟨rfl, rfl⟩ := gives_ok.1 h
      have hrest : c.rest = PredicateForm.tokens ⟨d, tail⟩ ++ last.next.rest := by
        rw [hr, hr', PredicateForm.tokens, List.append_assoc]
      refine ⟨⟨d, tail⟩, hrest, hd.trans hd', ?_⟩
      have hends : (PredicateForm.tokens ⟨d, tail⟩).getLast? = some last.value := by
        rw [getLast?_predicate, hv, hlast']
      rw [PredicateForm.predicate?, slice_of_ends hends last.next.rest, ← hrest, hq]
      rfl
    · exact absurd h not_gives_error
  complete {c c' p} d hr hd hend hm := by
    refine (reads_clause.complete (e := ⟨PredicateForm.tailTokens d.tail ++ c'.rest, c'.depth⟩)
      d.head (by rw [hr, PredicateForm.tokens, List.append_assoc]) hd trivial rfl).bind
      fun head hv hn => ?_
    obtain ⟨t, ht⟩ : ∃ t, d.tokens.getLast? = some t := by
      rw [getLast?_predicate, List.getLast?_cons]
      exact ⟨_, rfl⟩
    refine (clausesTail_complete d.tail (t := t) (by rw [hn]) (by rw [hn]) hend
      (by rw [hv, ← getLast?_predicate, ht])).bind fun last hlv hln => ?_
    rw [PredicateForm.predicate?, slice_of_ends ht c'.rest, ← hr, ← hlv] at hm
    dsimp only
    split
    · rename_i q hq
      rw [hq] at hm
      exact gives_ok.2 ⟨Option.some.inj hm, hln⟩
    · rename_i e he
      rw [he] at hm
      cases hm

end Selection

end Subdomain
