import Subdomain.Proofs.Selection.Expressions

/-!
# Unambiguity

No two forms have the same tokens. For each part of the grammar, what follows it
cannot go on with it, and the first two tokens of a leaf tell the kinds of leaves
apart; so the tokens in front of what may follow determine the form.
-/

namespace Subdomain

namespace Selection

/-- Tokens that begin with different kinds are different. -/
theorem cons_ne_cons {t u : Token Word} {ts us : Tokens} (h : t.kind ≠ u.kind) :
    t :: ts ≠ u :: us := fun e => h (congrArg Token.kind (List.cons.inj e).1)

/-- An optional token is there or not, as the token behind it cannot take its place. -/
theorem unambiguous_optional {P : Token Word → Prop} {o o' : Option { t : Token Word // P t }}
    {t t' : Token Word} {ts ts' : Tokens} (ht : ¬ P t) (ht' : ¬ P t')
    (h : (o.map (·.val)).toList ++ t :: ts = (o'.map (·.val)).toList ++ t' :: ts') :
    o = o' ∧ t :: ts = t' :: ts' := by
  cases o with
  | none =>
    cases o' with
    | none => exact ⟨rfl, h⟩
    | some u => exact absurd ((List.cons.inj h).1 ▸ u.property) ht
  | some u =>
    cases o' with
    | none => exact absurd ((List.cons.inj h).1 ▸ u.property) ht'
    | some u' =>
      obtain ⟨rfl, hts⟩ := unambiguous_token u u' _ _ h trivial trivial
      exact ⟨rfl, hts⟩

theorem unambiguous_signed : Unambiguous SignedForm.tokens Anything := by
  rintro ⟨m, t⟩ ⟨m', t'⟩ r r' h - -
  simp only [SignedForm.tokens, List.append_assoc, List.cons_append, List.nil_append] at h
  obtain ⟨rfl, hts⟩ := unambiguous_optional (by simp [t.property]) (by simp [t'.property]) h
  obtain ⟨rfl, hr⟩ := unambiguous_token t t' r r' hts trivial trivial
  exact ⟨rfl, hr⟩

/-! ## Lists -/

section

variable {φ : Type} {k : Word} {f : φ → Tokens} (hf : Unambiguous f Anything)
  (hk : k ≠ .comma) (hstart : ∀ d, ∃ t ts, f d = t :: ts ∧ t.kind = k)

include hstart in
/-- What stands behind an item is no more items or begins with a comma or an item. -/
theorem not_ended_tailTokens {e : Option (Terminal .comma) × φ}
    {tail : List (Option (Terminal .comma) × φ)} {r : Tokens} :
    ¬ Ended k (ItemsForm.tailTokens f (e :: tail) ++ r) := by
  intro h
  obtain ⟨comma, d⟩ := e
  obtain ⟨t, ts, ht, hkind⟩ := hstart d
  cases comma with
  | none => exact (h t (by simp [ItemsForm.tailTokens, ht])).1 hkind
  | some m => exact (h m.val (by simp [ItemsForm.tailTokens])).2 m.property

include hf hk hstart in
theorem unambiguous_tail : Unambiguous (ItemsForm.tailTokens f) (Ended k) := by
  intro tail
  induction tail with
  | nil =>
    rintro (_ | ⟨e, tail⟩) r r' h hr hr'
    · exact ⟨rfl, h⟩
    · exact absurd ((show r = _ from h) ▸ hr) (not_ended_tailTokens hstart)
  | cons e tail ih =>
    rintro (_ | ⟨e', tail'⟩) r r' h hr hr'
    · exact absurd ((show _ = r' from h) ▸ hr') (not_ended_tailTokens hstart)
    · obtain ⟨comma, d⟩ := e
      obtain ⟨comma', d'⟩ := e'
      obtain ⟨t, ts, ht, htk⟩ := hstart d
      obtain ⟨t', ts', ht', htk'⟩ := hstart d'
      simp only [ItemsForm.tailTokens, List.append_assoc, ht, ht', List.cons_append] at h
      obtain ⟨rfl, hts⟩ := unambiguous_optional (by rwa [htk]) (by rwa [htk']) h
      simp only [← List.cons_append, ← ht, ← ht'] at hts
      obtain ⟨rfl, htail⟩ := hf d d' _ _ hts trivial trivial
      obtain ⟨rfl, hrest⟩ := ih tail' r r' htail hr hr'
      exact ⟨rfl, hrest⟩

include hf hk hstart in
theorem unambiguous_items : Unambiguous (ItemsForm.tokens f) (Ended k) := by
  rintro ⟨d, tail⟩ ⟨d', tail'⟩ r r' h hr hr'
  simp only [ItemsForm.tokens, List.append_assoc] at h
  obtain ⟨rfl, htail⟩ := hf d d' _ _ h trivial trivial
  obtain ⟨rfl, hrest⟩ := unambiguous_tail hf hk hstart tail tail' r r' htail hr hr'
  exact ⟨rfl, hrest⟩

end

theorem unambiguous_integers : Unambiguous IntegersForm.tokens (Ended .integer) :=
  unambiguous_items unambiguous_token (by decide) fun t => ⟨t.val, [], rfl, t.property⟩

theorem unambiguous_pair : Unambiguous PairForm.tokens Anything := by
  rintro ⟨o, g, m, i, e⟩ ⟨o', g', m', i', e'⟩ r r' h - -
  simp only [PairForm.tokens, List.cons_append, List.nil_append, List.cons.injEq] at h
  obtain ⟨ho, hg, hm, hi, he, rfl⟩ := h
  cases Subtype.ext ho
  cases Subtype.ext hg
  cases Subtype.ext hm
  cases Subtype.ext hi
  cases Subtype.ext he
  exact ⟨rfl, rfl⟩

theorem unambiguous_pairs : Unambiguous (ItemsForm.tokens PairForm.tokens) (Ended .openParen) :=
  unambiguous_items unambiguous_pair (by decide) fun d => ⟨_, _, rfl, d.openParen.property⟩

/-! ## Predicates -/

/-- A closing parenthesis ends what is balanced. -/
theorem unambiguous_balanced (b b' : Balanced) (e e' : Terminal .closeParen) (r r' : Tokens)
    (h : b.tokens ++ e.val :: r = b'.tokens ++ e'.val :: r') : b = b' ∧ e = e' ∧ r = r' := by
  induction b generalizing b' e e' r r' with
  | nil =>
    cases b' with
    | nil =>
      obtain ⟨he, hr⟩ := List.cons.inj h
      exact ⟨rfl, Subtype.ext he, hr⟩
    | token t rest =>
      exact absurd (e.property.symm.trans (congrArg _ (List.cons.inj h).1)).symm t.property.2
    | group o inner c rest =>
      exact absurd h (cons_ne_cons (by simp [e.property, o.property]))
  | token t rest ih =>
    cases b' with
    | nil =>
      exact absurd ((congrArg Token.kind (List.cons.inj h).1).trans e'.property) t.property.2
    | token t' rest' =>
      obtain ⟨ht, h⟩ := List.cons.inj h
      obtain ⟨rfl, rfl, rfl⟩ := ih rest' e e' r r' h
      cases Subtype.ext ht
      exact ⟨rfl, rfl, rfl⟩
    | group o inner c rest' =>
      exact absurd ((congrArg Token.kind (List.cons.inj h).1).trans o.property) t.property.1
  | group o inner c rest ihi ihr =>
    cases b' with
    | nil => exact absurd h (cons_ne_cons (by simp [e'.property, o.property]))
    | token t rest' =>
      exact absurd ((congrArg Token.kind (List.cons.inj h).1).symm.trans o.property) t.property.1
    | group o' inner' c' rest' =>
      simp only [Balanced.tokens, List.cons_append, List.append_assoc, List.cons.injEq] at h
      obtain ⟨ho, hinner⟩ := h
      obtain ⟨rfl, rfl, hrest⟩ := ihi inner' c c' _ _ hinner
      obtain ⟨rfl, rfl, rfl⟩ := ihr rest' e e' r r' hrest
      cases Subtype.ext ho
      exact ⟨rfl, rfl, rfl⟩

theorem unambiguous_clause : Unambiguous ClauseForm.tokens Anything := by
  rintro ⟨n, o, b, e⟩ ⟨n', o', b', e'⟩ r r' h - -
  simp only [ClauseForm.tokens, List.append_assoc, List.cons_append, List.nil_append] at h
  obtain ⟨rfl, ho⟩ := unambiguous_optional (not_isNot_of_openParen o.property)
    (not_isNot_of_openParen o'.property) h
  obtain ⟨rfl, hb⟩ := unambiguous_token o o' _ _ ho trivial trivial
  obtain ⟨rfl, rfl, rfl⟩ := unambiguous_balanced b b' e e' r r' hb
  exact ⟨rfl, rfl⟩

theorem not_unjoined {op : ConnectiveForm} {ts : Tokens} : ¬ Unjoined (op.val :: ts) := fun h =>
  nomatch (if_pos op.property).symm.trans (h op.val rfl)

theorem unambiguous_clauses : Unambiguous PredicateForm.tailTokens Unjoined := by
  intro tail
  induction tail with
  | nil =>
    rintro (_ | ⟨e, tail⟩) r r' h hr hr'
    · exact ⟨rfl, h⟩
    · exact absurd ((show r = _ from h) ▸ hr) not_unjoined
  | cons e tail ih =>
    rintro (_ | ⟨e', tail'⟩) r r' h hr hr'
    · exact absurd ((show _ = r' from h) ▸ hr') not_unjoined
    · obtain ⟨op, d⟩ := e
      obtain ⟨op', d'⟩ := e'
      simp only [PredicateForm.tailTokens, List.cons_append, List.append_assoc] at h
      obtain ⟨rfl, hd⟩ := unambiguous_token op op' _ _ h trivial trivial
      obtain ⟨rfl, htail⟩ := unambiguous_clause d d' _ _ hd trivial trivial
      obtain ⟨rfl, hrest⟩ := ih tail' r r' htail hr hr'
      exact ⟨rfl, hrest⟩

theorem unambiguous_predicate : Unambiguous PredicateForm.tokens Unjoined := by
  rintro ⟨d, tail⟩ ⟨d', tail'⟩ r r' h hr hr'
  simp only [PredicateForm.tokens, List.append_assoc] at h
  obtain ⟨rfl, htail⟩ := unambiguous_clause d d' _ _ h trivial trivial
  obtain ⟨rfl, hrest⟩ := unambiguous_clauses tail tail' r r' htail hr hr'
  exact ⟨rfl, hrest⟩

/-! ## Leaves -/

theorem Terminal.kind_val {k : Word} (t : Terminal k) : t.val.kind = k := t.property

theorem IntegersForm.tokens_eq (l : IntegersForm) :
    l.tokens = l.head.val :: ItemsForm.tailTokens (fun t => [t.val]) l.tail := rfl

/-- A predicate does not begin with a bracket or a reference. -/
theorem predicate_ne {p : PredicateForm} {u : Token Word} {us r : Tokens}
    (hu : u.kind = .openBracket ∨ u.kind = .reference) : p.tokens ++ r ≠ u :: us := by
  intro h
  obtain ⟨t, ts, ht, hhead⟩ := exists_predicate_head p
  rw [ht, List.cons_append] at h
  cases h
  rcases hu with e | e <;> simp [e, isWord] at hhead

theorem unambiguous_source {singular : Bool} :
    Unambiguous (fun d : SourceForm singular => d.tokens) Ends := by
  intro d d' r r' h hr hr'
  cases d with
  | list o l e =>
    cases d' with
    | list o' l' e' =>
      simp only [SourceForm.tokens, List.cons_append, List.append_assoc, List.nil_append,
        List.cons.injEq] at h
      obtain ⟨ho, hl⟩ := h
      obtain ⟨rfl, he⟩ := unambiguous_integers l l' _ _ hl (ended_of_closeBracket e.property)
        (ended_of_closeBracket e'.property)
      obtain ⟨rfl, hrest⟩ := unambiguous_token e e' _ _ he trivial trivial
      cases Subtype.ext ho
      exact ⟨rfl, hrest⟩
    | predicate p => exact absurd h.symm (predicate_ne (.inl o.property))
    | region t =>
      exact absurd h (cons_ne_cons (by simp [o.property, t.property]))
  | predicate p =>
    cases d' with
    | list o l e => exact absurd h (predicate_ne (.inl o.property))
    | predicate p' =>
      obtain ⟨rfl, hrest⟩ := unambiguous_predicate p p' _ _ h hr.unjoined hr'.unjoined
      exact ⟨rfl, hrest⟩
    | region t => exact absurd h (predicate_ne (.inr t.property))
  | region t =>
    cases d' with
    | list o l e =>
      exact absurd h (cons_ne_cons (by simp [o.property, t.property]))
    | predicate p => exact absurd h.symm (predicate_ne (.inr t.property))
    | region t' =>
      obtain ⟨rfl, hrest⟩ := unambiguous_token t t' _ _ h trivial trivial
      exact ⟨rfl, hrest⟩

theorem unambiguous_owner : Unambiguous OwnerForm.tokens Anything := by
  intro d d' r r' h _ _
  cases d with
  | group w i =>
    cases d' with
    | group w' i' =>
      obtain ⟨he, hrest⟩ := unambiguous_signed.cons (w, i) (w', i') r r' h trivial trivial
      cases he
      exact ⟨rfl, hrest⟩
    | set w' n' =>
      exact absurd h (cons_ne_cons (by simp [w.property, w'.property]))
  | set w n =>
    cases d' with
    | group w' i' =>
      exact absurd h (cons_ne_cons (by simp [w.property, w'.property]))
    | set w' n' =>
      obtain ⟨he, hrest⟩ := unambiguous_token.cons (w, n) (w', n') r r' h trivial trivial
      cases he
      exact ⟨rfl, hrest⟩

theorem owner_ne {d : OwnerForm} {u : Token Word} {us r : Tokens} (hu : u.kind = .surface) :
    d.tokens ++ r ≠ u :: us := by
  intro h
  obtain ⟨t, ts, ht, hk⟩ := exists_owner_head d
  rw [ht, List.cons_append] at h
  cases h
  rcases hk with e | e <;> simp [e] at hu

theorem unambiguous_vertex {singular : Bool} :
    Unambiguous (fun d : VertexForm singular => d.tokens) Ends := by
  intro d d' r r' h hr hr'
  -- The first tokens differ in kind unless both forms begin with `of`.
  have hkinds := congrArg (List.map Token.kind) h
  cases d with
  | source w d =>
    cases d' with
    | source w' d' =>
      obtain ⟨he, hrest⟩ := unambiguous_source.cons (w, d) (w', d') r r' h hr hr'
      cases he
      exact ⟨rfl, hrest⟩
    | _ => simp [VertexForm.tokens, Terminal.kind_val, IntegersForm.tokens_eq] at hkinds
  | surface w t =>
    cases d' with
    | surface w' t' =>
      obtain ⟨he, hrest⟩ := unambiguous_token.cons (w, t) (w', t') r r' h trivial trivial
      cases he
      exact ⟨rfl, hrest⟩
    | owner w' d' => exact absurd (List.cons.inj h).2.symm (owner_ne t.property)
    | _ => simp [VertexForm.tokens, Terminal.kind_val, IntegersForm.tokens_eq] at hkinds
  | owner w d =>
    cases d' with
    | surface w' t' => exact absurd (List.cons.inj h).2 (owner_ne t'.property)
    | owner w' d' =>
      obtain ⟨he, hrest⟩ := unambiguous_owner.cons (w, d) (w', d') r r' h trivial trivial
      cases he
      exact ⟨rfl, hrest⟩
    | _ => simp [VertexForm.tokens, Terminal.kind_val, IntegersForm.tokens_eq] at hkinds
  | function w n =>
    cases d' with
    | function w' n' =>
      obtain ⟨he, hrest⟩ := unambiguous_token.cons (w, n) (w', n') r r' h trivial trivial
      cases he
      exact ⟨rfl, hrest⟩
    | _ => simp [VertexForm.tokens, Terminal.kind_val, IntegersForm.tokens_eq] at hkinds
  | list l =>
    cases d' with
    | list l' =>
      obtain ⟨rfl, hrest⟩ := unambiguous_integers l l' _ _ h (hr.ended (.inl rfl))
        (hr'.ended (.inl rfl))
      exact ⟨rfl, hrest⟩
    | _ => simp [VertexForm.tokens, Terminal.kind_val, IntegersForm.tokens_eq] at hkinds

theorem PairForm.items_tokens_eq (l : ItemsForm PairForm) : l.tokens PairForm.tokens =
    l.head.openParen.val :: (l.head.tokens.tail ++ ItemsForm.tailTokens PairForm.tokens l.tail) :=
  rfl

theorem unambiguous_cell : Unambiguous CellForm.tokens Ends := by
  intro d d' r r' h hr hr'
  have hkinds := congrArg (List.map Token.kind) h
  cases d with
  | owner w d =>
    cases d' with
    | owner w' d' =>
      obtain ⟨he, hrest⟩ := unambiguous_owner.cons (w, d) (w', d') r r' h trivial trivial
      cases he
      exact ⟨rfl, hrest⟩
    | _ => simp [CellForm.tokens, Terminal.kind_val, IntegersForm.tokens_eq,
        PairForm.items_tokens_eq] at hkinds
  | function w n =>
    cases d' with
    | function w' n' =>
      obtain ⟨he, hrest⟩ := unambiguous_token.cons (w, n) (w', n') r r' h trivial trivial
      cases he
      exact ⟨rfl, hrest⟩
    | _ => simp [CellForm.tokens, Terminal.kind_val, IntegersForm.tokens_eq,
        PairForm.items_tokens_eq] at hkinds
  | pairs l =>
    cases d' with
    | pairs l' =>
      obtain ⟨rfl, hrest⟩ := unambiguous_pairs l l' _ _ h (hr.ended (.inr rfl))
        (hr'.ended (.inr rfl))
      exact ⟨rfl, hrest⟩
    | _ => simp [CellForm.tokens, Terminal.kind_val, IntegersForm.tokens_eq,
        PairForm.items_tokens_eq] at hkinds
  | list l =>
    cases d' with
    | list l' =>
      obtain ⟨rfl, hrest⟩ := unambiguous_integers l l' _ _ h (hr.ended (.inl rfl))
        (hr'.ended (.inl rfl))
      exact ⟨rfl, hrest⟩
    | _ => simp [CellForm.tokens, Terminal.kind_val, IntegersForm.tokens_eq,
        PairForm.items_tokens_eq] at hkinds

theorem cells_ne_cons {w : { t : Token Word // t.kind = .cell ∨ t.kind = .cells }}
    {u : Token Word} {ts us : Tokens} (hu : u.kind ≠ .cell ∧ u.kind ≠ .cells) :
    w.val :: ts ≠ u :: us := by
  refine cons_ne_cons fun e => ?_
  rcases w.property with hw | hw
  · exact hu.1 (e.symm.trans hw)
  · exact hu.2 (e.symm.trans hw)

theorem unambiguous_leaf : Unambiguous LeafForm.tokens Ends := by
  intro d d' r r' h hr hr'
  cases d with
  | all w =>
    cases d' with
    | all w' =>
      obtain ⟨rfl, hrest⟩ := unambiguous_token w w' _ _ h trivial trivial
      exact ⟨rfl, hrest⟩
    | cells w' d' => exact absurd h.symm (cells_ne_cons (by simp [w.property]))
    | region w' | copy w' _ | vertex w' _ | vertices w' _ =>
      exact absurd h (cons_ne_cons (by simp [w.property, w'.property]))
  | region w =>
    cases d' with
    | region w' =>
      obtain ⟨rfl, hrest⟩ := unambiguous_token w w' _ _ h trivial trivial
      exact ⟨rfl, hrest⟩
    | cells w' d' => exact absurd h.symm (cells_ne_cons (by simp [w.property]))
    | all w' | copy w' _ | vertex w' _ | vertices w' _ =>
      exact absurd h (cons_ne_cons (by simp [w.property, w'.property]))
  | copy w t =>
    cases d' with
    | copy w' t' =>
      obtain ⟨he, hrest⟩ := unambiguous_token.cons (w, t) (w', t') r r' h trivial trivial
      cases he
      exact ⟨rfl, hrest⟩
    | cells w' d' => exact absurd h.symm (cells_ne_cons (by simp [w.property]))
    | all w' | region w' | vertex w' _ | vertices w' _ =>
      exact absurd h (cons_ne_cons (by simp [w.property, w'.property]))
  | vertex w d =>
    cases d' with
    | vertex w' d' =>
      obtain ⟨he, hrest⟩ := unambiguous_vertex.cons (w, d) (w', d') r r' h hr hr'
      cases he
      exact ⟨rfl, hrest⟩
    | cells w' d' => exact absurd h.symm (cells_ne_cons (by simp [w.property]))
    | all w' | region w' | copy w' _ | vertices w' _ =>
      exact absurd h (cons_ne_cons (by simp [w.property, w'.property]))
  | vertices w d =>
    cases d' with
    | vertices w' d' =>
      obtain ⟨he, hrest⟩ := unambiguous_vertex.cons (w, d) (w', d') r r' h hr hr'
      cases he
      exact ⟨rfl, hrest⟩
    | cells w' d' => exact absurd h.symm (cells_ne_cons (by simp [w.property]))
    | all w' | region w' | copy w' _ | vertex w' _ =>
      exact absurd h (cons_ne_cons (by simp [w.property, w'.property]))
  | cells w d =>
    cases d' with
    | cells w' d' =>
      obtain ⟨he, hrest⟩ := unambiguous_cell.cons (w, d) (w', d') r r' h hr hr'
      cases he
      exact ⟨rfl, hrest⟩
    | all w' | region w' | copy w' _ | vertex w' _ | vertices w' _ =>
      exact absurd h (cells_ne_cons (by simp [w'.property]))

/-! ## Expressions -/

theorem Spells.unique {o o' : SetOperator} {cs : List Char} (h : Spells o cs)
    (h' : Spells o' cs) : o = o' :=
  Option.some.inj ((ofChars?_eq_some_iff.2 h).symm.trans (ofChars?_eq_some_iff.2 h'))

theorem OperatorForm.eq_of_token {d d' : OperatorForm} (h : d.token = d'.token) : d = d' := by
  obtain ⟨t, ht, o, ho⟩ := d
  obtain ⟨t', ht', o', ho'⟩ := d'
  cases h
  cases ho.unique ho'
  rfl

mutual

theorem unambiguous_expr (d d' : ExprForm) (r r' : Tokens)
    (h : d.tokens ++ r = d'.tokens ++ r') (hr : Closes r) (hr' : Closes r') :
    d = d' ∧ r = r' := by
  match d, d' with
  | .mk head tail, .mk head' tail' =>
    simp only [ExprForm.tokens, List.append_assoc] at h
    obtain ⟨rfl, htail⟩ := unambiguous_term head head' _ _ h (tail.ends hr) (tail'.ends hr')
    obtain ⟨rfl, hrest⟩ := unambiguous_terms tail tail' r r' htail hr hr'
    exact ⟨rfl, hrest⟩

theorem unambiguous_terms (d d' : TailForm) (r r' : Tokens)
    (h : d.tokens ++ r = d'.tokens ++ r') (hr : Closes r) (hr' : Closes r') :
    d = d' ∧ r = r' := by
  have hsign {op : OperatorForm} {ts : Tokens} : ¬ Closes (op.token :: ts) := fun hc => by
    have := op.sign
    simp [hc op.token rfl, Word.isSign] at this
  match d, d' with
  | .nil, .nil => exact ⟨rfl, h⟩
  | .nil, .cons .. => exact absurd ((show r = _ from h) ▸ hr) hsign
  | .cons .., .nil => exact absurd ((show _ = r' from h) ▸ hr') hsign
  | .cons op term rest, .cons op' term' rest' =>
    simp only [TailForm.tokens, List.cons_append, List.append_assoc] at h
    obtain ⟨hop, hterm⟩ := List.cons.inj h
    obtain ⟨rfl, htail⟩ := unambiguous_term term term' _ _ hterm (rest.ends hr) (rest'.ends hr')
    obtain ⟨rfl, hrest⟩ := unambiguous_terms rest rest' r r' htail hr hr'
    cases OperatorForm.eq_of_token hop
    exact ⟨rfl, hrest⟩

theorem unambiguous_term (d d' : TermForm) (r r' : Tokens)
    (h : d.tokens ++ r = d'.tokens ++ r') (hr : Ends r) (hr' : Ends r') : d = d' ∧ r = r' := by
  have hparen {d : LeafForm} {o : Terminal .openParen} {ts us : Tokens} :
      d.tokens ++ ts ≠ o.val :: us := fun he => by
    obtain ⟨t, vs, ht, hk⟩ := exists_leaf_head d
    rw [ht] at he
    exact hk ((List.cons.inj he).1 ▸ o.property)
  match d, d' with
  | .leaf d, .leaf d' =>
    obtain ⟨rfl, hrest⟩ := unambiguous_leaf d d' r r' h hr hr'
    exact ⟨rfl, hrest⟩
  | .leaf _, .parens .. => exact absurd h hparen
  | .parens .., .leaf _ => exact absurd h.symm hparen
  | .parens o inner e, .parens o' inner' e' =>
    simp only [TermForm.tokens, List.cons_append, List.append_assoc, List.nil_append] at h
    obtain ⟨ho, hinner⟩ := List.cons.inj h
    obtain ⟨rfl, he⟩ := unambiguous_expr inner inner' _ _ hinner (heads_cons e.property)
      (heads_cons e'.property)
    obtain ⟨rfl, hrest⟩ := unambiguous_token e e' r r' he trivial trivial
    cases Subtype.ext ho
    exact ⟨rfl, hrest⟩

end

/-- The tokens of an expression determine its form. -/
theorem ExprForm.eq_of_tokens {d d' : ExprForm} (h : d.tokens = d'.tokens) : d = d' :=
  (unambiguous_expr d d' [] [] (by rw [h]) heads_nil heads_nil).1

end Selection

end Subdomain
