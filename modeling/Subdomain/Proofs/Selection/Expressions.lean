import Subdomain.Proofs.Selection.Leaves

/-!
# Reading expressions

`expr`, `exprTail` and `term` read the forms of expressions, of what stands
behind a first term, and of terms. A form means a tree at a depth if its integers
fit, its parentheses do not nest too deep from there on and its predicates can be
read.
-/

namespace Subdomain

namespace Selection

variable {s : Source}

structure TermForm.Means (s : Source) (depth : Nat) (d : TermForm) (t : Tree) : Prop where
  fits : ∀ t ∈ d.integers, Fits t
  nesting : depth + d.nesting ≤ maxDepth
  tree : d.tree? s.chars = some t

/-- The form turns the tree `left` in front of it into the tree `t`. -/
structure TailForm.Means (s : Source) (depth : Nat) (d : TailForm) (left t : Tree) : Prop where
  fits : ∀ t ∈ d.integers, Fits t
  nesting : depth + d.nesting ≤ maxDepth
  tree : d.treeFrom? s.chars left = some t

structure ExprForm.Means (s : Source) (depth : Nat) (d : ExprForm) (t : Tree) : Prop where
  fits : ∀ t ∈ d.integers, Fits t
  nesting : depth + d.nesting ≤ maxDepth
  tree : d.tree? s.chars = some t

theorem ExprForm.means_mk {depth : Nat} {head : TermForm} {tail : TailForm} {t : Tree} :
    (ExprForm.mk head tail).Means s depth t ↔
      ∃ u, head.Means s depth u ∧ tail.Means s depth u t := by
  constructor
  · rintro ⟨hf, hn, ht⟩
    obtain ⟨u, hu, ht⟩ := Option.bind_eq_some_iff.1 ht
    rw [ExprForm.integers] at hf
    rw [ExprForm.nesting] at hn
    exact ⟨u, ⟨fun i hi => hf i (List.mem_append_left _ hi), by omega, hu⟩,
      ⟨fun i hi => hf i (List.mem_append_right _ hi), by omega, ht⟩⟩
  · rintro ⟨u, ⟨hf, hn, hu⟩, ⟨hf', hn', ht⟩⟩
    refine ⟨fun i hi => ?_, ?_, Option.bind_eq_some_iff.2 ⟨u, hu, ht⟩⟩
    · exact (List.mem_append.1 hi).elim (hf i) (hf' i)
    · rw [ExprForm.nesting]
      omega

theorem TailForm.means_cons {depth : Nat} {op : OperatorForm} {term : TermForm} {rest : TailForm}
    {left t : Tree} : (TailForm.cons op term rest).Means s depth left t ↔
      ∃ u, term.Means s depth u ∧ rest.Means s depth (.combine left op.operator u) t := by
  constructor
  · rintro ⟨hf, hn, ht⟩
    obtain ⟨u, hu, ht⟩ := Option.bind_eq_some_iff.1 ht
    rw [TailForm.integers] at hf
    rw [TailForm.nesting] at hn
    exact ⟨u, ⟨fun i hi => hf i (List.mem_append_left _ hi), by omega, hu⟩,
      ⟨fun i hi => hf i (List.mem_append_right _ hi), by omega, ht⟩⟩
  · rintro ⟨u, ⟨hf, hn, hu⟩, ⟨hf', hn', ht⟩⟩
    refine ⟨fun i hi => ?_, ?_, Option.bind_eq_some_iff.2 ⟨u, hu, ht⟩⟩
    · exact (List.mem_append.1 hi).elim (hf i) (hf' i)
    · rw [TailForm.nesting]
      omega

theorem TailForm.means_nil {depth : Nat} (hd : depth ≤ maxDepth) {left t : Tree} :
    TailForm.nil.Means s depth left t ↔ left = t :=
  ⟨fun h => Option.some.inj h.tree, fun h => ⟨nofun, hd, congrArg some h⟩⟩

theorem TermForm.means_parens {depth : Nat} {o : Terminal .openParen} {inner : ExprForm}
    {e : Terminal .closeParen} {t : Tree} :
    (TermForm.parens o inner e).Means s depth t ↔ inner.Means s (depth + 1) t := by
  constructor
  · rintro ⟨hf, hn, ht⟩
    rw [TermForm.nesting] at hn
    exact ⟨hf, by omega, ht⟩
  · rintro ⟨hf, hn, ht⟩
    exact ⟨hf, by rw [TermForm.nesting]; omega, ht⟩

theorem TermForm.means_leaf {depth : Nat} (hd : depth ≤ maxDepth) {d : LeafForm} {t : Tree} :
    (TermForm.leaf d).Means s depth t ↔ ∃ l, d.Means s l ∧ Tree.leaf l = t := by
  constructor
  · rintro ⟨hf, -, ht⟩
    obtain ⟨l, hl, rfl⟩ := Option.map_eq_some_iff.1 ht
    exact ⟨l, ⟨hf, hl⟩, rfl⟩
  · rintro ⟨l, ⟨hf, hl⟩, rfl⟩
    exact ⟨hf, hd, Option.map_eq_some_iff.2 ⟨l, hl, rfl⟩⟩

/-! ## Operators -/

theorem ofChars?_eq_some_iff {cs : List Char} {o : SetOperator} :
    SetOperator.ofChars? cs = some o ↔ Spells o cs := by
  constructor
  · intro h
    unfold SetOperator.ofChars? at h
    split at h
    · obtain ⟨op, hop, rfl⟩ := Option.map_eq_some_iff.1 h
      rw [SetOp.ofSign?_eq_some_iff.1 hop]
      exact .bare op
    · obtain ⟨op, hop, h⟩ := Option.bind_eq_some_iff.1 h
      obtain ⟨k, hk, h⟩ := Option.bind_eq_some_iff.1 h
      cases h
      rw [SetOp.ofSign?_eq_some_iff.1 hop, Kind.ofCode?_eq_some_iff.1 hk]
      exact .coded ⟨op, k⟩
    · cases h
  · rintro (_ | op)
    · exact SetOperator.ofChars?_chars o
    · cases op <;> rfl

theorem signed?_eq (t : Token Word) :
    signed? t = if t.kind.isSign then some (SetOperator.ofChars? t.chars) else none := by
  unfold signed? Word.isSign
  cases t.kind <;> rfl

theorem of_operator? {c : Cursor Word} {p : Parsed Word SetOperator c}
    (h : operator? s c = .ok (some p)) :
    ∃ d : OperatorForm, c.rest = d.token :: p.next.rest ∧ c.depth = p.next.depth ∧
      d.operator = p.value := by
  unfold operator? at h
  split at h
  · cases h
  · rename_i q hq
    obtain ⟨t, hr, hd, ht⟩ := Cursor.of_take? hq
    rw [signed?_eq] at ht
    split at ht
    · rename_i hsign
      split at h
      · rename_i op hop
        cases h
        exact ⟨⟨t, hsign, op, ofChars?_eq_some_iff.1 ((Option.some.inj ht).trans hop)⟩, hr, hd, rfl⟩
      · cases h
    · cases ht

theorem exists_operator? {c : Cursor Word} {ts : Tokens} (d : OperatorForm)
    (hr : c.rest = d.token :: ts) :
    ∃ p, operator? s c = .ok (some p) ∧ p.value = d.operator ∧ p.next.rest = ts ∧
      p.next.depth = c.depth := by
  obtain ⟨p, hp, hv, hn⟩ := Cursor.exists_take? (f := signed?) (a := some d.operator) hr
    (by rw [signed?_eq, if_pos d.sign, ofChars?_eq_some_iff.2 d.spelled])
  rw [operator?, hp]
  dsimp only
  rw [hv]
  exact ⟨_, rfl, rfl, hn⟩

/-- A closing parenthesis or nothing is next. -/
def Closes : Tokens → Prop := Heads fun t => t.kind = .closeParen

theorem Closes.ends {ts : Tokens} (h : Closes ts) : Ends ts := h.mono fun _ => .inr

theorem operator?_of_closes {c : Cursor Word} (h : Closes c.rest) : operator? s c = .ok none := by
  rw [operator?, Cursor.take?_eq_none_iff.2]
  intro t ht
  rw [signed?_eq]
  exact if_neg (by simp [h t ht, Word.isSign])

theorem TailForm.ends (d : TailForm) {ts : Tokens} (h : Closes ts) : Ends (d.tokens ++ ts) := by
  cases d with
  | nil => exact h.ends
  | cons op _ _ => exact heads_cons (.inl op.sign)

theorem exists_leaf_head (d : LeafForm) :
    ∃ t ts, d.tokens = t :: ts ∧ t.kind ≠ .openParen := by
  cases d with
  | cells w d =>
    refine ⟨_, _, rfl, ?_⟩
    rcases w.property with h | h <;> simp [h]
  | all w | region w | copy w _ | vertex w _ | vertices w _ =>
    exact ⟨_, _, rfl, by simp [w.property]⟩

/-! ## What has been read -/

mutual

theorem expr_sound {c c' : Cursor Word} {t : Tree} (h : Gives (expr s c) t c')
    (hdepth : c.depth ≤ maxDepth) :
    ∃ d : ExprForm, c.rest = d.tokens ++ c'.rest ∧ c.depth = c'.depth ∧ d.Means s c.depth t := by
  rw [expr] at h
  obtain ⟨left, hleft, h⟩ := gives_bind.1 h
  obtain ⟨head, hr, hd, hm⟩ := term_sound hleft hdepth
  have := left.shorter
  change Gives (exprTail s left) t c' at h
  obtain ⟨tail, hr', hd', hm'⟩ := exprTail_sound h (hd ▸ hdepth)
  refine ⟨.mk head tail, ?_, hd.trans hd', ExprForm.means_mk.2 ⟨_, hm, hd ▸ hm'⟩⟩
  rw [hr, hr', ExprForm.tokens, List.append_assoc]
termination_by 4 * c.rest.length + 2

theorem exprTail_sound {c c' : Cursor Word} {left : Parsed Word Tree c} {t : Tree}
    (h : Gives (exprTail s left) t c') (hdepth : left.next.depth ≤ maxDepth) :
    ∃ d : TailForm, left.next.rest = d.tokens ++ c'.rest ∧ left.next.depth = c'.depth ∧
      d.Means s left.next.depth left.value t := by
  rw [exprTail] at h
  cases hop : operator? s left.next with
  | error e =>
    rw [hop] at h
    exact absurd h not_gives_error
  | ok o =>
    rw [hop] at h
    cases o with
    | none =>
      obtain ⟨rfl, rfl⟩ := gives_ok.1 h
      exact ⟨.nil, rfl, rfl, (TailForm.means_nil hdepth).2 rfl⟩
    | some op =>
      obtain ⟨opForm, hor, hod, hov⟩ := of_operator? hop
      change Gives (term s op.next >>= _) t c' at h
      obtain ⟨right, hright, h⟩ := gives_bind.1 h
      have := op.shorter
      have := right.shorter
      obtain ⟨d, hr, hd, hm⟩ := term_sound hright (hod ▸ hdepth)
      -- The loop goes on with the tree of all operands up to `right`.
      change Gives (exprTail s ((left.skipTo (op.skipTo right)).map
        (.combine left.value op.value))) t c' at h
      obtain ⟨rest, hr', hd', hm'⟩ := exprTail_sound h
        (show right.next.depth ≤ maxDepth from hd ▸ hod ▸ hdepth)
      refine ⟨.cons opForm d rest, ?_, hod.trans (hd.trans hd'),
        TailForm.means_cons.2 ⟨_, hod ▸ hm, ?_⟩⟩
      · change right.next.rest = _ at hr'
        rw [hor, hr, hr', TailForm.tokens, List.cons_append, List.append_assoc]
      · rw [hod, hd, hov]
        exact hm'
termination_by 4 * left.next.rest.length

theorem term_sound {c c' : Cursor Word} {t : Tree} (h : Gives (term s c) t c')
    (hdepth : c.depth ≤ maxDepth) :
    ∃ d : TermForm, c.rest = d.tokens ++ c'.rest ∧ c.depth = c'.depth ∧ d.Means s c.depth t := by
  rw [term] at h
  split at h
  · obtain ⟨l, hl, rfl⟩ := gives_map.1 h
    obtain ⟨d, hr, hd, hm⟩ := reads_leaf.sound hl
    exact ⟨.leaf d, hr, hd, (TermForm.means_leaf hdepth).2 ⟨l, hm, rfl⟩⟩
  · rename_i paren hparen
    obtain ⟨hok, hor, hod⟩ := Cursor.of_eat? hparen
    split at h
    · exact absurd h not_gives_error
    · rename_i hne
      obtain ⟨e, he, h⟩ := gives_bind.1 h
      obtain ⟨close, hclose, h⟩ := gives_bind.1 h
      obtain ⟨hck, hcr, hcd⟩ := Cursor.gives_expect.1 hclose
      obtain ⟨hv, hn⟩ := gives_ok.1 h
      have := paren.shorter
      change Gives (expr s (paren.atDepth (c.depth + 1)).next) e.value e.next at he
      obtain ⟨d, hr, hd, hm⟩ := expr_sound he (show c.depth + 1 ≤ maxDepth by omega)
      change paren.next.rest = _ at hr
      change c.depth + 1 = _ at hd
      subst hn
      refine ⟨.parens ⟨_, hok⟩ d ⟨_, hck⟩, ?_, ?_, TermForm.means_parens.2 ?_⟩
      · rw [hor, hr, hcr, TermForm.tokens]
        simp
      · show c.depth = close.next.depth - 1
        omega
      · subst hv
        exact hm
termination_by 4 * c.rest.length + 1

end

/-! ## What is read -/

mutual

theorem expr_complete (d : ExprForm) {c e : Cursor Word} {t : Tree}
    (hr : c.rest = d.tokens ++ e.rest) (hd : c.depth = e.depth) (hend : Closes e.rest)
    (hm : d.Means s c.depth t) : Gives (expr s c) t e := by
  match d with
  | .mk head tail =>
    rw [ExprForm.tokens, List.append_assoc] at hr
    obtain ⟨u, hu, ht⟩ := ExprForm.means_mk.1 hm
    rw [expr]
    refine (term_complete head (e := ⟨tail.tokens ++ e.rest, e.depth⟩) hr hd
      (tail.ends hend) hu).bind fun left hv hn => ?_
    refine exprTail_complete tail (by rw [hn]) (by rw [hn]) hend ?_
    rw [hn, hv, ← hd]
    exact ht

theorem exprTail_complete (d : TailForm) {c e : Cursor Word} {left : Parsed Word Tree c}
    {t : Tree} (hr : left.next.rest = d.tokens ++ e.rest) (hd : left.next.depth = e.depth)
    (hend : Closes e.rest) (hm : d.Means s left.next.depth left.value t) :
    Gives (exprTail s left) t e := by
  match d with
  | .nil =>
    have hrest : left.next.rest = e.rest := hr
    rw [exprTail, operator?_of_closes (hrest ▸ hend)]
    exact gives_ok.2 ⟨Option.some.inj hm.tree, Cursor.eq_of_rest hrest hd⟩
  | .cons op term rest =>
    rw [TailForm.tokens, List.cons_append, List.append_assoc] at hr
    obtain ⟨u, hu, ht⟩ := TailForm.means_cons.1 hm
    obtain ⟨p, hp, hpv, hpr, hpd⟩ := exists_operator? (s := s) op hr
    rw [exprTail, hp]
    show Gives (Selection.term s p.next >>= _) t e
    refine (term_complete term (e := ⟨rest.tokens ++ e.rest, e.depth⟩) hpr (hpd.trans hd)
      (rest.ends hend) (hpd ▸ hu)).bind fun right hv hn => ?_
    show Gives (exprTail s ((left.skipTo (p.skipTo right)).map (.combine left.value p.value))) t e
    refine exprTail_complete rest (show right.next.rest = _ by rw [hn])
      (show right.next.depth = _ by rw [hn]) hend ?_
    show rest.Means s right.next.depth (.combine left.value p.value right.value) t
    rw [hn, hv, hpv, ← hd]
    exact ht

theorem term_complete (d : TermForm) {c e : Cursor Word} {t : Tree}
    (hr : c.rest = d.tokens ++ e.rest) (hd : c.depth = e.depth) (hend : Ends e.rest)
    (hm : d.Means s c.depth t) : Gives (term s c) t e := by
  match d with
  | .leaf d =>
    have hdepth : c.depth ≤ maxDepth := Nat.le_trans (Nat.le_add_right ..) hm.nesting
    obtain ⟨l, hl, ht⟩ := (TermForm.means_leaf hdepth).1 hm
    obtain ⟨u, ts, hu, hk⟩ := exists_leaf_head d
    have hrest : c.rest = u :: (ts ++ e.rest) := by
      rw [hr, TermForm.tokens, hu, List.cons_append]
    rw [term, Cursor.eat?_of_ne hrest hk]
    exact gives_map.2 ⟨l, reads_leaf.complete d hr hd hend hl, ht⟩
  | .parens o inner close =>
    rw [TermForm.tokens, List.cons_append, List.append_assoc] at hr
    obtain ⟨p, hp, -, hpr, -⟩ := Cursor.exists_eat? hr o.property
    have hshallow : c.depth ≠ maxDepth := by
      have := hm.nesting
      rw [TermForm.nesting] at this
      omega
    rw [term, hp]
    dsimp only
    rw [if_neg hshallow]
    refine (expr_complete inner (c := (p.atDepth (c.depth + 1)).next)
      (e := ⟨close.val :: e.rest, c.depth + 1⟩) hpr rfl
      (heads_cons close.property) (TermForm.means_parens.1 hm)).bind fun q hqv hqn => ?_
    refine (Cursor.gives_expect.2 ⟨close.property, by rw [hqn], by rw [hqn]⟩ :
      Gives _ _ ⟨e.rest, c.depth + 1⟩).bind fun v _ hvn => ?_
    refine gives_ok.2 ⟨hqv, Cursor.eq_of_rest ?_ ?_⟩
    · show v.next.rest = e.rest
      rw [hvn]
    · show v.next.depth - 1 = e.depth
      rw [hvn, ← hd]
      rfl

end

/-! ## Whole texts -/

theorem parseTree_eq_ok_iff {text : List Char} {t : Tree} :
    parseTree text = .ok t ↔
      ∃ d : ExprForm, Selection.tokens text = .ok d.tokens ∧ d.Means (.ofChars text) 0 t := by
  unfold parseTree
  cases hts : Selection.tokens text with
  | error e => simp [bind, Except.bind]
  | ok ts =>
    constructor
    · intro h
      change (expr (.ofChars text) ⟨ts, 0⟩ >>= _) = _ at h
      cases he : expr (.ofChars text) ⟨ts, 0⟩ with
      | error e =>
        rw [he] at h
        cases h
      | ok e =>
        rw [he] at h
        obtain ⟨d, hr, -, hm⟩ := expr_sound ⟨e, he, rfl, rfl⟩ (Nat.zero_le maxDepth)
        change (if e.next.rest.isEmpty then _ else _) = _ at h
        split at h
        · rename_i hempty
          cases h
          rw [List.isEmpty_iff.1 hempty, List.append_nil] at hr
          exact ⟨d, congrArg _ hr, hm⟩
        · cases h
    · rintro ⟨d, hd, hm⟩
      cases hd
      obtain ⟨e, he, hv, hn⟩ := expr_complete d (c := ⟨d.tokens, 0⟩) (e := ⟨[], 0⟩)
        (List.append_nil _).symm rfl heads_nil hm
      show (expr (.ofChars text) ⟨d.tokens, 0⟩ >>= _) = _
      rw [he]
      show (if e.next.rest.isEmpty then _ else _) = _
      rw [hn, hv]
      rfl

end Selection

end Subdomain
