import Subdomain.Proofs.Predicate.Settling

/-!
# The precedence of operators

In front of what cannot go on with an expression, a beginning of the tokens derives one
expression only, and no other beginning derives any (`Derives.unique`). So the grammar
gives every operator its place, however deep an expression is nested, and reading a
text finds the one expression that its tokens derive (`ofText_precedence`).
-/

namespace Subdomain

namespace Predicate

/-! ## What a beginning excludes -/

theorem Derives.not_bars {l : Level} {t : Token Word} {ts us rest : Tokens} {e : Expr}
    (h : Derives l ts e) (heq : ts ++ us = t :: rest) : ¬ l.Bars t.kind := by
  obtain ⟨t', vs, rfl, ht⟩ := h.head
  rw [List.cons_append, List.cons.injEq] at heq
  exact heq.1 ▸ ht

theorem cons_append_inj {t t' : Token Word} {ts ts' us us' : Tokens}
    (h : t :: ts ++ us = t' :: ts' ++ us') : t = t' ∧ ts ++ us = ts' ++ us' :=
  List.cons.inj h

theorem Level.Follows.rank_lt {l : Level} {t : Token Word} {ts : Tokens}
    (h : l.Follows (t :: ts)) : t.kind.rank < l.rank :=
  h t rfl

/-- An operator of a chain goes on with the operand in front of it. -/
theorem not_follows_of_node? {k : Chain} {t : Token Word} {f : Expr → Expr → Expr} {ts : Tokens}
    (h : k.node? t = some f) : ¬ (Level.chain k).Follows (t :: ts) := fun hend =>
  Nat.ne_of_lt hend.rank_lt (rank_of_node? h)

/-- Comparisons go on with the operand in front of them. -/
theorem DerivesLinks.not_follows {ts us : Tokens} {op : Comparison} {e : Expr} {links : Links}
    (h : DerivesLinks ts (.cons op e links)) : ¬ Level.comparison.Follows (ts ++ us) := by
  cases h with
  | cons hop _ _ => exact fun hend => Nat.ne_of_lt hend.rank_lt (rank_of_comparison? hop)

/-- A power sign goes on with its base. -/
theorem not_follows_power {op : Token Word} {ts : Tokens} (hop : op.kind = .power) :
    ¬ Level.power.Follows (op :: ts) := fun hend =>
  Nat.ne_of_lt hend.rank_lt (congrArg Word.rank hop)

theorem follows_power {op : Token Word} {ts : Tokens} (hop : op.kind = .power) :
    Level.atom.Follows (op :: ts) :=
  heads_cons (by simp [hop, Word.rank, Level.rank])

theorem Level.Follows.atom {ts : Tokens} (h : Level.power.Follows ts) : Level.atom.Follows ts :=
  h.mono fun _ => Nat.lt_succ_of_lt

theorem Level.Follows.sum {ts : Tokens} (h : Level.comparison.Follows ts) :
    (Level.chain .sum).Follows ts :=
  h.mono fun _ => Nat.lt_succ_of_lt

/-! ## One beginning, one expression -/

mutual

theorem Derives.unique {l : Level} {ts : Tokens} {e : Expr} (h : Derives l ts e)
    {ts' us us' : Tokens} {e' : Expr} (h' : Derives l ts' e') (heq : ts ++ us = ts' ++ us')
    (hend : l.Follows us) (hend' : l.Follows us') : ts = ts' ∧ e = e' := by
  match h with
  | .chain h hrest =>
    cases h' with
    | chain h' hrest' =>
      rw [List.append_assoc, List.append_assoc] at heq
      obtain ⟨rfl, rfl⟩ := h.unique h' heq (hrest.follows hend) (hrest'.follows hend')
      obtain ⟨rfl, rfl⟩ := hrest.unique hrest' (List.append_cancel_left heq) hend hend'
      exact ⟨rfl, rfl⟩
  | .compared h =>
    cases h' with
    | compared h' => exact h.unique h' heq hend hend'
    | compl hop' _ => exact absurd hop' (h.not_bars heq)
  | .compl hop h =>
    cases h' with
    | compared h' => exact absurd hop (h'.not_bars heq.symm)
    | compl _ h' =>
      obtain ⟨rfl, htail⟩ := cons_append_inj heq
      obtain ⟨rfl, rfl⟩ := h.unique h' htail hend hend'
      exact ⟨rfl, rfl⟩
  | .single h =>
    cases h' with
    | single h' => exact h.unique h' heq hend.sum hend'.sum
    | compare h' hl' =>
      rw [List.append_assoc] at heq
      obtain ⟨rfl, -⟩ := h.unique h' heq hend.sum (hl'.follows hend')
      exact absurd (List.append_cancel_left heq ▸ hend) hl'.not_follows
  | .compare h hl =>
    cases h' with
    | single h' =>
      rw [List.append_assoc] at heq
      obtain ⟨rfl, -⟩ := h.unique h' heq (hl.follows hend) hend'.sum
      exact absurd ((List.append_cancel_left heq).symm ▸ hend') hl.not_follows
    | compare h' hl' =>
      rw [List.append_assoc, List.append_assoc] at heq
      obtain ⟨rfl, rfl⟩ := h.unique h' heq (hl.follows hend) (hl'.follows hend')
      obtain ⟨rfl, hlinks⟩ := hl.unique hl' (List.append_cancel_left heq) hend hend'
      cases hlinks
      exact ⟨rfl, rfl⟩
  | .unsigned h =>
    cases h' with
    | unsigned h' => exact h.unique h' heq hend hend'
    | plus hop' _ => exact absurd (.inr (.inl hop')) (h.not_bars heq)
    | minus hop' _ => exact absurd (.inl hop') (h.not_bars heq)
  | .plus hop h =>
    cases h' with
    | unsigned h' => exact absurd (.inr (.inl hop)) (h'.not_bars heq.symm)
    | plus _ h' =>
      obtain ⟨rfl, htail⟩ := cons_append_inj heq
      obtain ⟨rfl, rfl⟩ := h.unique h' htail hend hend'
      exact ⟨rfl, rfl⟩
    | minus hop' _ =>
      obtain ⟨rfl, -⟩ := cons_append_inj heq
      cases hop.symm.trans hop'
  | .minus hop h =>
    cases h' with
    | unsigned h' => exact absurd (.inl hop) (h'.not_bars heq.symm)
    | plus hop' _ =>
      obtain ⟨rfl, -⟩ := cons_append_inj heq
      cases hop.symm.trans hop'
    | minus _ h' =>
      obtain ⟨rfl, htail⟩ := cons_append_inj heq
      obtain ⟨rfl, rfl⟩ := h.unique h' htail hend hend'
      exact ⟨rfl, rfl⟩
  | .base h =>
    cases h' with
    | base h' => exact h.unique h' heq hend.atom hend'.atom
    | power h' hop' _ =>
      rw [List.append_assoc] at heq
      obtain ⟨rfl, -⟩ := h.unique h' heq hend.atom (follows_power hop')
      exact absurd (List.append_cancel_left heq ▸ hend) (not_follows_power hop')
  | .power h hop he =>
    cases h' with
    | base h' =>
      rw [List.append_assoc] at heq
      obtain ⟨rfl, -⟩ := h.unique h' heq (follows_power hop) hend'.atom
      exact absurd ((List.append_cancel_left heq).symm ▸ hend') (not_follows_power hop)
    | power h' hop' he' =>
      rw [List.append_assoc, List.append_assoc] at heq
      obtain ⟨rfl, rfl⟩ := h.unique h' heq (follows_power hop) (follows_power hop')
      obtain ⟨rfl, htail⟩ := cons_append_inj (List.append_cancel_left heq)
      obtain ⟨rfl, rfl⟩ := he.unique he' htail hend hend'
      exact ⟨rfl, rfl⟩
  | .literal ht =>
    cases h' with
    | literal ht' =>
      obtain ⟨rfl, -⟩ := cons_append_inj heq
      exact ⟨rfl, Option.some.inj (ht.symm.trans ht')⟩
    | parens ho' _ _ =>
      obtain ⟨rfl, -⟩ := cons_append_inj heq
      cases ht.symm.trans (leaf?_of_openParen ho')
    | call ht' _ _ _ =>
      obtain ⟨rfl, -⟩ := cons_append_inj heq
      cases ht.symm.trans (leaf?_of_function? ht')
  | .parens ho h hc =>
    cases h' with
    | literal ht' =>
      obtain ⟨rfl, -⟩ := cons_append_inj heq
      cases ht'.symm.trans (leaf?_of_openParen ho)
    | parens ho' h' hc' =>
      obtain ⟨rfl, hgroup⟩ := cons_append_inj heq
      rw [List.append_assoc, List.append_assoc] at hgroup
      obtain ⟨rfl, rfl⟩ := h.unique h' hgroup (follows_closeParen hc) (follows_closeParen hc')
      obtain ⟨rfl, -⟩ := cons_append_inj (List.append_cancel_left hgroup)
      exact ⟨rfl, rfl⟩
    | call ht' _ _ _ =>
      obtain ⟨rfl, -⟩ := cons_append_inj heq
      cases ho.symm.trans (kind_of_function? ht')
  | .call ht ho h hc =>
    cases h' with
    | literal ht' =>
      obtain ⟨rfl, -⟩ := cons_append_inj heq
      cases ht'.symm.trans (leaf?_of_function? ht)
    | parens ho' _ _ =>
      obtain ⟨rfl, -⟩ := cons_append_inj heq
      cases ho'.symm.trans (kind_of_function? ht)
    | call ht' ho' h' hc' =>
      obtain ⟨rfl, htail⟩ := cons_append_inj heq
      obtain ⟨rfl, hgroup⟩ := cons_append_inj htail
      rw [List.append_assoc, List.append_assoc] at hgroup
      obtain ⟨rfl, rfl⟩ := h.unique h' hgroup (follows_closeParen hc) (follows_closeParen hc')
      obtain ⟨rfl, -⟩ := cons_append_inj (List.append_cancel_left hgroup)
      cases ht.symm.trans ht'
      exact ⟨rfl, rfl⟩

theorem DerivesRest.unique {k : Chain} {ts : Tokens} {left e : Expr}
    (h : DerivesRest k left ts e) {ts' us us' : Tokens} {e' : Expr}
    (h' : DerivesRest k left ts' e') (heq : ts ++ us = ts' ++ us')
    (hend : (Level.chain k).Follows us) (hend' : (Level.chain k).Follows us') :
    ts = ts' ∧ e = e' := by
  match h with
  | .done =>
    cases h' with
    | done => exact ⟨rfl, rfl⟩
    | more hop' _ _ =>
      exact absurd ((show us = _ from heq) ▸ hend) (not_follows_of_node? hop')
  | .more hop h hrest =>
    cases h' with
    | done =>
      exact absurd ((show us' = _ from heq.symm) ▸ hend') (not_follows_of_node? hop)
    | more hop' h' hrest' =>
      obtain ⟨rfl, htail⟩ := cons_append_inj heq
      cases hop.symm.trans hop'
      rw [List.append_assoc, List.append_assoc] at htail
      obtain ⟨rfl, rfl⟩ := h.unique h' htail (hrest.follows hend) (hrest'.follows hend')
      obtain ⟨rfl, rfl⟩ := hrest.unique hrest' (List.append_cancel_left htail) hend hend'
      exact ⟨rfl, rfl⟩

theorem DerivesLinks.unique {ts : Tokens} {ls : Links} (h : DerivesLinks ts ls)
    {ts' us us' : Tokens} {ls' : Links} (h' : DerivesLinks ts' ls') (heq : ts ++ us = ts' ++ us')
    (hend : Level.comparison.Follows us) (hend' : Level.comparison.Follows us') :
    ts = ts' ∧ ls = ls' := by
  match h with
  | .nil =>
    cases h' with
    | nil => exact ⟨rfl, rfl⟩
    | cons hop' h' hl' =>
      exact absurd ((show us = _ from heq) ▸ hend) (DerivesLinks.cons hop' h' hl').not_follows
  | .cons hop h hl =>
    cases h' with
    | nil =>
      exact absurd ((show us' = _ from heq.symm) ▸ hend') (DerivesLinks.cons hop h hl).not_follows
    | cons hop' h' hl' =>
      obtain ⟨rfl, htail⟩ := cons_append_inj heq
      cases hop.symm.trans hop'
      rw [List.append_assoc, List.append_assoc] at htail
      obtain ⟨rfl, rfl⟩ := h.unique h' htail (hl.follows hend) (hl'.follows hend')
      obtain ⟨rfl, rfl⟩ := hl.unique hl' (List.append_cancel_left htail) hend hend'
      exact ⟨rfl, rfl⟩

end

/-! ## Texts -/

theorem Derives.expr_unique {l : Level} {ts : Tokens} {e e' : Expr} (h : Derives l ts e)
    (h' : Derives l ts e') : e = e' := by
  have hend : l.Follows [] := heads_nil
  exact (h.unique h' rfl hend hend).2

/-- Reading a text gives an expression that its tokens derive. If they derive one, they derive no
other, and reading gives it, unless it is nested too deeply; that takes more than `maxDepth`
tokens that lead down. -/
theorem ofText_precedence (text : List Char) :
    (∀ p, ofText text = .ok p →
      ∃ ts, tokens text = .ok ts ∧ Derives (.chain .disjunction) ts p.expr) ∧
    ∀ ts e, tokens text = .ok ts → Derives (.chain .disjunction) ts e →
      (∀ e', Derives (.chain .disjunction) ts e' → e' = e) ∧
      (ofText text = .ok ⟨trim text, e⟩ ∨
        maxDepth < descents ts ∧ ∃ f, ofText text = .error f ∧ f.cause = .nestedTooDeeply) := by
  refine ⟨fun p hp => ?_, fun ts e hts h => ⟨fun e' h' => h'.expr_unique h, ?_⟩⟩
  · obtain ⟨ts, hts, h, -⟩ := of_parse (ofText_eq_ok_iff.1 hp)
    exact ⟨ts, hts, h⟩
  · rcases h.parse hts with hok | ⟨hdeep, f, hf, hcause⟩
    · exact .inl (ofText_eq_ok_iff.2 hok)
    · refine .inr ⟨hdeep, { f with text }, ?_, hcause⟩
      rw [ofText, hf]

end Predicate

end Subdomain
