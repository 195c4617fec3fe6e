import Subdomain.Proofs.Predicate.Reading

/-!
# What the readers make of derived tokens

Tokens that derive an expression are read as that expression in front of what
cannot go on with it, unless the levels that they take are more than the reader has
left (`DerivesIn.settles`). So a text that can be read has one expression only, and
the texts that can be read are those with a derivation of bounded depth
(`parse_eq_ok_iff`).
-/

namespace Subdomain

namespace Predicate

/-! ## Settling -/

def TooDeep {α : Type} (r : Except Fault α) : Prop :=
  ∃ f, r = .error f ∧ f.cause = .nestedTooDeeply

/-- The reading gives `a` and goes on at `d`, or goes too deep if the depth can get to `m`. -/
def Settles {α : Type} (m : Nat) {c : Cursor Word} (r : Except Fault (Parsed Word α c)) (a : α)
    (d : Cursor Word) : Prop :=
  Gives r a d ∨ maxDepth < m ∧ TooDeep r

section

variable {α β : Type} {m n : Nat} {c c₁ c₂ d : Cursor Word} {a : α} {b : β}

theorem settles_ok {p : Parsed Word α c} (hv : p.value = a) (hr : p.next.rest = d.rest)
    (hd : p.next.depth = d.depth) : Settles m (.ok p) a d :=
  .inl (gives_ok.2 ⟨hv, Cursor.eq_of_rest hr hd⟩)

theorem Settles.bind {r : Except Fault (Parsed Word β c₁)} (h : Settles m r b c₂)
    {f : Parsed Word β c₁ → Except Fault (Parsed Word α c)}
    (hf : ∀ p, p.value = b → p.next = c₂ → Settles m (f p) a d) : Settles m (r >>= f) a d := by
  rcases h with ⟨p, rfl, hv, hn⟩ | ⟨hm, e, rfl, he⟩
  · exact hf p hv hn
  · exact .inr ⟨hm, e, rfl, he⟩

theorem settles_descend {p : Parsed Word α c} (hm : p.next.depth < m) :
    Settles m (descend n p) p.value ⟨p.next.rest, p.next.depth + 1⟩ := by
  unfold descend
  dsimp only
  split
  · rename_i hdeep
    refine .inr ⟨Nat.lt_of_lt_of_le hdeep hm, _, rfl, ?_⟩
    unfold Cursor.fault
    split <;> rfl
  · exact settles_ok rfl rfl rfl

theorem settles_ascend {i : Nat} {p : Parsed Word α c} (hv : p.value = a)
    (hn : p.next = ⟨d.rest, d.depth + i⟩) : Settles m (.ok (ascend i p)) a d := by
  refine settles_ok hv (show p.next.rest = _ by rw [hn]) ?_
  show p.next.depth - i = d.depth
  rw [hn, Nat.add_sub_cancel]

end

/-! ## What may follow -/

/-- How tight the operators of a kind bind. -/
def Word.rank : Word → Nat
  | orWord => 1
  | andWord => 2
  | lt | le | gt | ge | eq | ne => 3
  | plus | minus => 4
  | star | slash => 5
  | power => 6
  | _ => 0

/-- How tight the operators are that go on with an expression of a level, at least. -/
def Level.rank : Level → Nat
  | chain .disjunction => 1
  | chain .conjunction => 2
  | negation | comparison => 3
  | chain .sum => 4
  | chain .product => 5
  | unary | power => 6
  | atom => 7

/-- What is next does not go on with an expression of the level. -/
def Level.Follows (l : Level) : Tokens → Prop := Heads fun t => t.kind.rank < l.rank

def Level.read (n : Nat) (c : Cursor Word) : Level → Reading c
  | chain k => Predicate.chain n k c
  | negation => Predicate.negation n c
  | comparison => Predicate.comparison n c
  | unary => Predicate.unary n c
  | power => Predicate.power n c
  | atom => Predicate.atom n c

theorem operand_eq_read (n : Nat) (k : Chain) (c : Cursor Word) :
    operand n k c = k.operands.read n c := by
  cases k <;> rw [operand] <;> rfl

theorem Chain.rank_operands (k : Chain) : (Level.chain k).rank < k.operands.rank := by
  cases k <;> decide

theorem rank_of_node? {k : Chain} {t : Token Word} {f : Expr → Expr → Expr}
    (h : k.node? t = some f) : t.kind.rank = (Level.chain k).rank := by
  unfold Chain.node? at h
  split at h <;> cases h
  all_goals
    rename_i hk
    rw [hk]
    rfl

theorem node?_eq_none {k : Chain} {t : Token Word} (h : t.kind.rank < (Level.chain k).rank) :
    k.node? t = none :=
  Option.eq_none_iff_forall_ne_some.2 fun _ hf => Nat.lt_irrefl _ (rank_of_node? hf ▸ h)

theorem rank_of_comparison? {t : Token Word} {op : Comparison} (h : comparison? t = some op) :
    t.kind.rank = 3 := by
  unfold comparison? at h
  split at h <;> cases h
  all_goals
    rename_i hk
    rw [hk]
    rfl

theorem comparison?_eq_none {t : Token Word} (h : t.kind.rank < 3) : comparison? t = none :=
  Option.eq_none_iff_forall_ne_some.2 fun _ hop => Nat.lt_irrefl _ (rank_of_comparison? hop ▸ h)

theorem sign?_eq_none {t : Token Word} (h : ¬ Level.power.Bars t.kind) : sign? t = none := by
  unfold sign?
  split
  · exact absurd (.inl ‹_›) h
  · exact absurd (.inr (.inl ‹_›)) h
  · rfl

theorem literal?_of_openParen {t : Token Word} (h : t.kind = .openParen) : literal? t = none := by
  rw [literal?, h]

theorem leaf?_of_openParen {t : Token Word} (h : t.kind = .openParen) : leaf? t = none := by
  rw [leaf?, if_neg (by simp [h]), literal?_of_openParen h]

theorem chars_of_function? {t : Token Word} {f : MathFunction} (h : function? t = some f) :
    t.kind = .identifier ∧ t.chars = f.name.toList := by
  unfold function? at h
  split at h
  · rename_i hk
    have hf : f.name = t.text := by simpa using List.find?_some h
    exact ⟨hk, by rw [hf, Token.text, String.toList_ofList]⟩
  · cases h

theorem constant?_of_function? {t : Token Word} {f : MathFunction} (h : function? t = some f) :
    constant? t.chars = none := by
  rw [(chars_of_function? h).2]
  cases f <;> rfl

theorem leaf?_of_function? {t : Token Word} {f : MathFunction} (h : function? t = some f) :
    leaf? t = none :=
  (leaf?_of_identifier (chars_of_function? h).1).trans (constant?_of_function? h)

theorem take?_of_none {α : Type} {f : Token Word → Option α} {c : Cursor Word} {t : Token Word}
    {ts : Tokens} (h : c.rest = t :: ts) (hf : f t = none) : c.take? f = none := by
  refine Cursor.take?_eq_none_iff.2 fun u hu => ?_
  rw [h] at hu
  cases hu
  exact hf

/-- An identifier is read as a name. -/
theorem atom_eq_name {n : Nat} {c : Cursor Word} {t : Token Word} {ts : Tokens}
    (hr : c.rest = t :: ts) (hk : t.kind = .identifier) : atom n c = name n c := by
  have hliteral : literal? t = none := by rw [literal?, hk]
  have hkind : c.kind? = some .identifier := hk ▸ Cursor.kind?_of_rest hr
  rw [atom, take?_of_none hr hliteral, Cursor.eat?_of_ne hr (by simp [hk])]
  exact if_pos hkind

/-! ## Derived tokens -/

theorem DerivesLinks.follows {ts : Tokens} {ls : Links} (h : DerivesLinks ts ls) {us : Tokens}
    (hend : Level.comparison.Follows us) : (Level.chain .sum).Follows (ts ++ us) := by
  cases h with
  | nil => exact hend.mono fun _ => Nat.lt_succ_of_lt
  | cons hop _ _ => exact heads_cons (rank_of_comparison? hop ▸ Nat.lt_succ_self 3)

theorem settles_no_links {α : Type} {m n : Nat} {c d : Cursor Word} {p : Parsed Word α c}
    (hn : p.next = d) (hend : Level.comparison.Follows d.rest) :
    Settles m (links n p) .nil d := by
  have hnone : p.next.take? comparison? = none :=
    Cursor.take?_eq_none_iff.2 fun t ht => comparison?_eq_none (hend t (hn ▸ ht))
  rw [links, hnone]
  exact settles_ok rfl (congrArg _ hn) (congrArg _ hn)

/-- A sign is read in front of what is read at the level of signs. -/
theorem settles_sign {m n : Nat} {c d : Cursor Word} {op : Token Word} {f : Expr → Expr}
    {e : Expr} {ts : Tokens} (hr : c.rest = op :: ts ++ d.rest) (hd : c.depth = d.depth)
    (hop : sign? op = some f) (hm : d.depth < m)
    (h : ∀ {i : Cursor Word}, i.rest = ts ++ d.rest → i.depth = d.depth + 1 →
      Settles m (Level.unary.read n i) e ⟨d.rest, d.depth + 1⟩) :
    Settles m (Level.unary.read n c) (f e) d := by
  obtain ⟨p, hp, hv, hpr, hpd⟩ := Cursor.exists_take? hr hop
  show Settles m (unary n c) _ d
  rw [unary, hp]
  refine (settles_descend (p := p) (by omega)).bind fun q hqv hqn => ?_
  refine (h (i := q.next) (by rw [hqn]; exact hpr) (by rw [hqn, ← hd, ← hpd])).bind
    fun r hrv hrn => ?_
  exact settles_ascend (by rw [← hv, ← hqv, ← hrv]; rfl) hrn

/-- What stands between parentheses is read one level deeper. -/
theorem settles_group {m n : Nat} {c d : Cursor Word} {p : Parsed Word (Token Word) c}
    {close : Token Word} {e : Expr} {ts : Tokens} (hc : close.kind = .closeParen)
    (hr : p.next.rest = ts ++ close :: d.rest) (hd : p.next.depth = d.depth)
    (hm : d.depth < m)
    (h : ∀ {i : Cursor Word}, i.rest = ts ++ close :: d.rest → i.depth = d.depth + 1 →
      Settles m ((Level.chain .disjunction).read n i) e ⟨close :: d.rest, d.depth + 1⟩) :
    Settles m (group n p) e d := by
  rw [group]
  refine (settles_descend (p := p) (by omega)).bind fun q _ hqn => ?_
  refine (h (i := q.next) (by rw [hqn]; exact hr) (by rw [hqn, ← hd])).bind fun r hrv hrn => ?_
  refine (Settles.bind (.inl (Cursor.gives_expect.2 ⟨hc, by rw [hrn], by rw [hrn]⟩ :
    Gives _ close ⟨d.rest, d.depth + 1⟩)) fun t _ htn => ?_)
  exact settles_ascend hrv htn

/-- A number or a name that is an expression by itself is read as it. -/
theorem settles_leaf {m n : Nat} {c d : Cursor Word} {t : Token Word} {e : Expr}
    (hr : c.rest = t :: d.rest) (hd : c.depth = d.depth) (ht : leaf? t = some e) :
    Settles m (atom n c) e d := by
  unfold leaf? at ht
  split at ht
  · rename_i hk
    obtain ⟨p, hp, hv, hpr, hpd⟩ := Cursor.exists_take? (f := fun t => constant? t.chars) hr ht
    rw [atom_eq_name hr hk, name, hp]
    exact settles_ok hv hpr (hpd.trans hd)
  · obtain ⟨p, hp, hv, hpr, hpd⟩ := Cursor.exists_take? hr ht
    rw [atom, hp]
    exact settles_ok hv hpr (hpd.trans hd)

/-- The argument of a function is read as a group. -/
theorem settles_call {m n : Nat} {c d : Cursor Word} {t o close : Token Word} {f : MathFunction}
    {e : Expr} {ts : Tokens} (ht : function? t = some f) (ho : o.kind = .openParen)
    (hc : close.kind = .closeParen) (hr : c.rest = t :: o :: (ts ++ close :: d.rest))
    (hd : c.depth = d.depth) (hm : d.depth < m)
    (h : ∀ {i : Cursor Word}, i.rest = ts ++ close :: d.rest → i.depth = d.depth + 1 →
      Settles m ((Level.chain .disjunction).read n i) e ⟨close :: d.rest, d.depth + 1⟩) :
    Settles m (atom n c) (.call f e) d := by
  have hk := kind_of_function? ht
  obtain ⟨i, hi, hiv, hir, hid⟩ := Cursor.exists_take? (f := fun t => MathFunction.ofName? t.text)
    hr (function?_of_identifier hk ▸ ht)
  obtain ⟨p, hp, -, hpr, hpd⟩ := Cursor.exists_eat? hir ho
  rw [atom_eq_name hr hk, name, take?_of_none hr (constant?_of_function? ht), hi]
  dsimp only
  rw [hp]
  refine (settles_group (p := i.skipTo p) (d := d) hc hpr (hpd.trans (hid.trans hd)) hm h).bind
    fun q hv hn => ?_
  exact settles_ok (by rw [← hiv, ← hv]; rfl) (by rw [← hn]; rfl) (by rw [← hn]; rfl)

theorem follows_closeParen {t : Token Word} {ts : Tokens} (h : t.kind = .closeParen) :
    (Level.chain .disjunction).Follows (t :: ts) :=
  heads_cons (by simp [h, Word.rank, Level.rank])

theorem DerivesRest.follows {k : Chain} {ts : Tokens} {left e : Expr}
    (h : DerivesRest k left ts e) {us : Tokens} (hend : (Level.chain k).Follows us) :
    k.operands.Follows (ts ++ us) := by
  cases h with
  | done => exact hend.mono fun _ ht => Nat.lt_trans ht k.rank_operands
  | more hop _ _ => exact heads_cons (rank_of_node? hop ▸ k.rank_operands)

mutual

/-- Tokens are read as the expression that they derive unless the reader goes too deep, for which
the levels that they take have to lead there. -/
theorem DerivesIn.settles {levels : Nat} {l : Level} {ts : Tokens} {e : Expr}
    (h : DerivesIn levels l ts e) {m n : Nat} {c d : Cursor Word} (hr : c.rest = ts ++ d.rest)
    (hd : c.depth = d.depth) (hend : l.Follows d.rest) (hm : d.depth + levels ≤ m) :
    Settles m (l.read n c) e d := by
  match h with
  | @DerivesIn.chain _ k _ us _ _ h hrest =>
    rw [List.append_assoc] at hr
    show Settles m (Predicate.chain n k c) e d
    rw [Predicate.chain, operand_eq_read]
    refine (h.settles (d := ⟨us ++ d.rest, d.depth⟩) hr hd (hrest.derivesRest.follows hend)
      hm).bind fun p hv hn => ?_
    exact hrest.settles hv (by rw [hn]) (by rw [hn]; rfl) hend hm
  | .compared h =>
    obtain ⟨t, us, hts, ht⟩ := h.derives.head
    show Settles m (Predicate.negation n c) e d
    rw [Predicate.negation, Cursor.eat?_of_ne (hr.trans (by rw [hts]; rfl)) ht]
    exact h.settles hr hd hend hm
  | .compl hop h =>
    obtain ⟨p, hp, -, hpr, hpd⟩ := Cursor.exists_eat? hr hop
    show Settles m (Predicate.negation n c) _ d
    rw [Predicate.negation, hp]
    refine (settles_descend (p := p) (by omega)).bind fun q _ hqn => ?_
    refine (h.settles (c := q.next) (d := ⟨d.rest, d.depth + 1⟩) (by rw [hqn]; exact hpr)
      (by rw [hqn]; exact congrArg (· + 1) (hpd.trans hd)) hend
      (show d.depth + 1 + _ ≤ m by omega)).bind fun r hv hn => ?_
    exact settles_ascend (congrArg _ hv) hn
  | .single h =>
    show Settles m (Predicate.comparison n c) e d
    rw [Predicate.comparison]
    refine (h.settles hr hd (hend.mono fun _ => Nat.lt_succ_of_lt) hm).bind fun p hv hn => ?_
    refine (settles_no_links (p := p) hn hend).bind fun q hqv hqn => ?_
    rw [hqv]
    exact settles_ok hv (by rw [hn]) (by rw [hn])
  | @DerivesIn.compare _ _ us _ _ _ _ h hl =>
    rw [List.append_assoc] at hr
    show Settles m (Predicate.comparison n c) _ d
    rw [Predicate.comparison]
    refine (h.settles (d := ⟨us ++ d.rest, d.depth⟩) hr hd (hl.derivesLinks.follows hend)
      hm).bind fun p hv hn => ?_
    refine (hl.settles (d := d) (p := p) (by rw [hn]) (by rw [hn]) hend hm).bind
      fun q hqv hqn => ?_
    rw [hqv]
    exact settles_ok (by rw [← hv]; rfl) (by rw [← hqn]; rfl) (by rw [← hqn]; rfl)
  | .unsigned h =>
    obtain ⟨t, us, hts, ht⟩ := h.derives.head
    show Settles m (Predicate.unary n c) e d
    rw [Predicate.unary, take?_of_none (hr.trans (by rw [hts]; rfl)) (sign?_eq_none ht)]
    exact h.settles hr hd hend hm
  | .plus hop h =>
    exact settles_sign (f := id) hr hd (by rw [sign?, hop]) (by omega) fun hr hd =>
      h.settles hr hd hend (show d.depth + 1 + _ ≤ m by omega)
  | .minus hop h =>
    exact settles_sign hr hd (by rw [sign?, hop]) (by omega) fun hr hd =>
      h.settles hr hd hend (show d.depth + 1 + _ ≤ m by omega)
  | .base h =>
    show Settles m (Predicate.power n c) e d
    rw [Predicate.power]
    refine (h.settles hr hd (hend.mono fun _ => Nat.lt_succ_of_lt) hm).bind fun p hv hn => ?_
    have hnone : p.next.eat? Word.power = none := by
      rw [hn]
      exact Cursor.take?_eq_none_iff.2 fun t ht => if_neg fun hk => by
        have := hend t ht
        simp [hk, Word.rank, Level.rank] at this
    rw [hnone]
    exact settles_ok hv (by rw [hn]) (by rw [hn])
  | @DerivesIn.power _ op _ us _ _ h hop he =>
    rw [List.append_assoc, List.cons_append] at hr
    show Settles m (Predicate.power n c) _ d
    rw [Predicate.power]
    refine (h.settles (d := ⟨op :: (us ++ d.rest), d.depth⟩) hr hd
      (heads_cons (by simp [hop, Word.rank, Level.rank])) hm).bind
      fun p hv hn => ?_
    obtain ⟨q, hq, -, hqr, hqd⟩ := Cursor.exists_eat? (c := p.next) (by rw [hn]) hop
    rw [hq]
    refine (settles_descend (p := q) (by rw [hqd, hn]; show d.depth < m; omega)).bind
      fun q' _ hqn' => ?_
    refine (he.settles (c := q'.next) (d := ⟨d.rest, d.depth + 1⟩) (by rw [hqn']; exact hqr)
      (by rw [hqn']; simp only [hqd, hn]) hend (show d.depth + 1 + _ ≤ m by omega)).bind
      fun r hrv hrn => ?_
    exact settles_ascend (by rw [← hv, ← hrv]; rfl) hrn
  | .literal ht => exact settles_leaf hr hd ht
  | .parens (c := close) ho h hc =>
    rw [List.cons_append, List.append_assoc] at hr
    obtain ⟨p, hp, -, hpr, hpd⟩ := Cursor.exists_eat? hr ho
    show Settles m (Predicate.atom n c) e d
    rw [Predicate.atom, take?_of_none hr (literal?_of_openParen ho), hp]
    exact settles_group hc hpr (hpd.trans hd) (by omega) fun hr hd => h.settles hr hd
      (follows_closeParen hc) (show d.depth + 1 + _ ≤ m by omega)
  | .call ht ho h hc =>
    rw [List.cons_append, List.cons_append, List.append_assoc] at hr
    exact settles_call ht ho hc hr hd (by omega) fun hr hd => h.settles hr hd
      (follows_closeParen hc) (show d.depth + 1 + _ ≤ m by omega)

theorem RestIn.settles {levels : Nat} {k : Chain} {ts : Tokens} {left e : Expr}
    (h : RestIn levels k left ts e) {m n i : Nat} {c d : Cursor Word} {p : Parsed Word Expr c}
    (hv : p.value = left) (hr : p.next.rest = ts ++ d.rest) (hd : p.next.depth = d.depth + i)
    (hend : (Level.chain k).Follows d.rest) (hm : d.depth + i + levels ≤ m) :
    Settles m (chainTail n k p i) e d := by
  match h with
  | .done =>
    have hrest : p.next.rest = d.rest := hr
    have hnone : p.next.take? k.node? = none :=
      Cursor.take?_eq_none_iff.2 fun t ht => node?_eq_none (hend t (hrest ▸ ht))
    rw [chainTail, hnone]
    exact settles_ascend hv (Cursor.eq_of_rest hrest hd)
  | @RestIn.more _ _ _ _ _ us _ _ _ hop h hrest =>
    rw [List.cons_append, List.append_assoc] at hr
    obtain ⟨q, hq, hqv, hqr, hqd⟩ := Cursor.exists_take? hr hop
    rw [chainTail, hq]
    refine (settles_descend (p := q) (by omega)).bind fun q' hqv' hqn' => ?_
    dsimp only
    rw [operand_eq_read]
    refine (h.settles (c := q'.next) (d := ⟨us ++ d.rest, d.depth + (i + 1)⟩)
      (by rw [hqn']; exact hqr) (by rw [hqn']; simp only [hqd, hd, Nat.add_assoc])
      (hrest.derivesRest.follows hend) (show d.depth + (i + 1) + _ ≤ m by omega)).bind fun r hrv hrn => ?_
    refine hrest.settles ?_ (show r.next.rest = _ by rw [hrn])
      (show r.next.depth = _ by rw [hrn]) hend (by omega)
    show q'.value p.value r.value = _
    rw [hqv', hqv, hv, hrv]

theorem LinksIn.settles {levels : Nat} {ts : Tokens} {ls : Links} (h : LinksIn levels ts ls)
    {α : Type} {m n : Nat} {c d : Cursor Word} {p : Parsed Word α c} (hr : p.next.rest = ts ++ d.rest)
    (hd : p.next.depth = d.depth) (hend : Level.comparison.Follows d.rest)
    (hm : d.depth + levels ≤ m) : Settles m (links n p) ls d := by
  match h with
  | .nil => exact settles_no_links (Cursor.eq_of_rest hr hd) hend
  | @LinksIn.cons _ _ _ _ us _ _ hop h hl =>
    rw [List.cons_append, List.append_assoc] at hr
    obtain ⟨q, hq, hqv, hqr, hqd⟩ := Cursor.exists_take? hr hop
    rw [links, hq]
    dsimp only
    refine (h.settles (c := q.next) (d := ⟨us ++ d.rest, d.depth⟩) hqr (hqd.trans hd)
      (hl.derivesLinks.follows hend) hm).bind fun r hrv hrn => ?_
    refine (hl.settles (d := d) (p := p.skipTo (q.skipTo r)) (show r.next.rest = _ by rw [hrn])
      (show r.next.depth = _ by rw [hrn]) hend hm).bind fun t htv htn => ?_
    exact settles_ok (by rw [← hqv, ← hrv, ← htv]; rfl) (by rw [← htn]; rfl) (by rw [← htn]; rfl)

end

/-! ## Whole texts -/

theorem ofText_eq_ok_iff {text : List Char} {p : Predicate} :
    ofText text = .ok p ↔ parse text = .ok p := by
  unfold ofText
  cases parse text <;> simp

/-- A text whose tokens derive an expression means that expression unless it is nested too deeply,
for which the levels that it takes have to lead there. -/
theorem DerivesIn.parse {levels : Nat} {text : List Char} {ts : Tokens} {e : Expr}
    (h : DerivesIn levels (.chain .disjunction) ts e) (hts : tokens text = .ok ts) :
    Predicate.parse text = .ok ⟨trim text, e⟩ ∨
      maxDepth < levels ∧ TooDeep (Predicate.parse text) := by
  rcases h.settles (n := byteLength text) (c := ⟨ts, 0⟩) (d := ⟨[], 0⟩)
    (List.append_nil ts).symm rfl heads_nil (Nat.le_of_eq (Nat.zero_add _)) with
    ⟨q, hq, rfl, hn⟩ | ⟨hm, f, hf, hdeep⟩
  · change Predicate.chain _ _ _ = _ at hq
    left
    rw [Predicate.parse, hts]
    show Predicate.chain _ _ _ >>= _ = _
    rw [hq]
    show (if q.next.rest.isEmpty then _ else _) = _
    rw [hn]
    rfl
  · change Predicate.chain _ _ _ = _ at hf
    refine .inr ⟨hm, f, ?_, hdeep⟩
    rw [Predicate.parse, hts]
    show Predicate.chain _ _ _ >>= _ = _
    rw [hf]
    rfl

/-- A text means an expression exactly if its tokens derive it within the levels that there are. -/
theorem parse_eq_ok_iff {text : List Char} {p : Predicate} :
    parse text = .ok p ↔ ∃ ts, tokens text = .ok ts ∧
      DerivesIn maxDepth (.chain .disjunction) ts p.expr ∧ p.text = trim text := by
  constructor
  · intro h
    unfold parse at h
    cases hts : tokens text with
    | error f =>
      rw [hts] at h
      cases h
    | ok ts =>
      rw [hts] at h
      change chain _ _ _ >>= _ = _ at h
      cases he : chain (byteLength text) .disjunction ⟨ts, 0⟩ with
      | error f =>
        rw [he] at h
        cases h
      | ok e =>
        rw [he] at h
        change (if e.next.rest.isEmpty then _ else _) = _ at h
        split at h
        · rename_i hempty
          cases h
          obtain ⟨us, hus, -, hderives⟩ := chain_sound ⟨e, he, rfl, rfl⟩
          rw [List.isEmpty_iff.1 hempty, List.append_nil] at hus
          exact ⟨ts, rfl, (show ts = us from hus) ▸ hderives, rfl⟩
        · cases h
  · rintro ⟨ts, hts, h, htext⟩
    rcases h.parse hts with hok | ⟨hdeep, -⟩
    · rw [hok, ← htext]
    · exact absurd hdeep (Nat.lt_irrefl _)

theorem of_parse {text : List Char} {p : Predicate} (h : parse text = .ok p) :
    ∃ ts, tokens text = .ok ts ∧ Derives (.chain .disjunction) ts p.expr ∧ p.text = trim text := by
  obtain ⟨ts, hts, hderives, htext⟩ := parse_eq_ok_iff.1 h
  exact ⟨ts, hts, hderives.derives, htext⟩

/-- A text whose tokens derive an expression means that expression unless it is nested too deeply,
for which many of its tokens have to lead down. -/
theorem Derives.parse {text : List Char} {ts : Tokens} {e : Expr}
    (h : Derives (.chain .disjunction) ts e) (hts : tokens text = .ok ts) :
    Predicate.parse text = .ok ⟨trim text, e⟩ ∨
      maxDepth < descents ts ∧ TooDeep (Predicate.parse text) :=
  h.derivesIn.parse hts

theorem Derives.eq_of_parse {text : List Char} {ts : Tokens} {e : Expr} {p : Predicate}
    (h : Derives (.chain .disjunction) ts e) (hts : tokens text = .ok ts)
    (hp : Predicate.parse text = .ok p) : p = ⟨trim text, e⟩ := by
  rcases h.parse hts with hok | ⟨-, f, hf, -⟩
  · exact Except.ok.inj (hp.symm.trans hok)
  · cases hp.symm.trans hf

end Predicate

end Subdomain
