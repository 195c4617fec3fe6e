import Subdomain.Proofs.Predicate.Settling

/-!
# Open levels

What a reader of predicates has behind it when it goes too deep is the beginning of an
expression. `Opens l ts m` says of such a beginning that it leaves `m` levels open: one for
every parenthesis that is not closed, one for every sign, negation or `**` whose operand is
not complete, and one for every operator so far of a chain that may go on. Complete
operands count nothing, and comparisons neither. A reader goes too deep just if some
beginning leaves more levels open than there are from its depth on (`read_tooDeep_iff`), and
a text is nested too deeply just if some beginning leaves more than `maxDepth` open
(`parse_tooDeep_iff`).
-/

namespace Subdomain

namespace Predicate

/-- The tokens begin an expression of the level and leave levels open. -/
inductive Opens : Level → Tokens → Nat → Prop where
  | start {l : Level} : Opens l [] 0
  | first {k : Chain} {ts : Tokens} {m : Nat} : Opens k.operands ts m → Opens (.chain k) ts m
  | chain {k : Chain} {op : Token Word} {f : Expr → Expr → Expr} {ts us : Tokens} {left : Expr}
      {m : Nat} : Derives k.operands ts left → k.node? op = some f → Opens (.chain k) us m →
      Opens (.chain k) (ts ++ op :: us) (m + 1)
  | compared {ts : Tokens} {m : Nat} : Opens .comparison ts m → Opens .negation ts m
  | compl {op : Token Word} {ts : Tokens} {m : Nat} : op.kind = .notWord →
      Opens .negation ts m → Opens .negation (op :: ts) (m + 1)
  | single {ts : Tokens} {m : Nat} : Opens (.chain .sum) ts m → Opens .comparison ts m
  | compare {t : Token Word} {op : Comparison} {ts us : Tokens} {left : Expr} {m : Nat} :
      Derives (.chain .sum) ts left → comparison? t = some op → Opens .comparison us m →
      Opens .comparison (ts ++ t :: us) m
  | unsigned {ts : Tokens} {m : Nat} : Opens .power ts m → Opens .unary ts m
  | signed {op : Token Word} {f : Expr → Expr} {ts : Tokens} {m : Nat} : sign? op = some f →
      Opens .unary ts m → Opens .unary (op :: ts) (m + 1)
  | base {ts : Tokens} {m : Nat} : Opens .atom ts m → Opens .power ts m
  | power {op : Token Word} {ts us : Tokens} {base : Expr} {m : Nat} :
      Derives .atom ts base → op.kind = .power → Opens .unary us m →
      Opens .power (ts ++ op :: us) (m + 1)
  | parens {o : Token Word} {ts : Tokens} {m : Nat} : o.kind = .openParen →
      Opens (.chain .disjunction) ts m → Opens .atom (o :: ts) (m + 1)
  | call {t o : Token Word} {f : MathFunction} {ts : Tokens} {m : Nat} : function? t = some f →
      o.kind = .openParen → Opens (.chain .disjunction) ts m → Opens .atom (t :: o :: ts) (m + 1)

/-- Some beginning of the tokens leaves more levels open than there are from the depth on. -/
def Exceeds (P : Tokens → Nat → Prop) (ts : Tokens) (depth : Nat) : Prop :=
  ∃ us m, us <+: ts ∧ P us m ∧ maxDepth < depth + m

namespace Exceeds

variable {P Q : Tokens → Nat → Prop} {t : Token Word} {ts us : Tokens} {d : Nat}

theorem mono (h : Exceeds P ts d) (hPQ : ∀ us m, P us m → Q us m) : Exceeds Q ts d := by
  obtain ⟨us, m, hus, hm, hdeep⟩ := h
  exact ⟨us, m, hus, hPQ us m hm, hdeep⟩

/-- What stands in front leaves nothing open. -/
theorem behind (h : Exceeds P us d) (hPQ : ∀ vs m, P vs m → Q (ts ++ vs) m) :
    Exceeds Q (ts ++ us) d := by
  obtain ⟨vs, m, hvs, hm, hdeep⟩ := h
  exact ⟨ts ++ vs, m, (List.prefix_append_right_inj ts).2 hvs, hPQ vs m hm, hdeep⟩

/-- A token takes a level from what stands behind it, or there is none left to take. -/
theorem deeper (h : d < maxDepth → Exceeds P ts (d + 1)) (hd : d ≤ maxDepth) (hstart : P [] 0)
    (hPQ : ∀ us m, P us m → Q (t :: us) (m + 1)) : Exceeds Q (t :: ts) d := by
  by_cases hlt : d < maxDepth
  · obtain ⟨us, m, hus, hm, hdeep⟩ := h hlt
    exact ⟨t :: us, m + 1, List.cons_prefix_cons.2 ⟨rfl, hus⟩, hPQ us m hm, by omega⟩
  · exact ⟨[t], 1, List.cons_prefix_cons.2 ⟨rfl, List.nil_prefix⟩, hPQ [] 0 hstart, by omega⟩

end Exceeds

section

variable {α β : Type} {n i j : Nat} {k : Chain} {c c' d : Cursor Word}

/-! ## Going too deep -/

theorem tooDeep_error_iff {f : Fault} :
    TooDeep (.error f : Except Fault α) ↔ f.cause = .nestedTooDeeply := by
  simp [TooDeep]

theorem not_tooDeep_ok {a : α} : ¬ TooDeep (.ok a : Except Fault α) :=
  fun ⟨_, h, _⟩ => nomatch h

instance decidableTooDeep (r : Except Fault α) : Decidable (TooDeep r) :=
  match r with
  | .ok _ => .isFalse not_tooDeep_ok
  | .error _ => decidable_of_iff _ tooDeep_error_iff.symm

theorem cause_fault {κ : Type} {c : Cursor κ} {cause : SyntaxCause} :
    (c.fault n cause).cause = cause := by
  unfold Cursor.fault
  split <;> rfl

theorem not_tooDeep_fault {κ : Type} {c : Cursor κ} {cause : SyntaxCause}
    (h : cause ≠ .nestedTooDeeply) : ¬ TooDeep (.error (c.fault n cause) : Except Fault α) := by
  rw [tooDeep_error_iff, cause_fault]
  exact h

theorem tooDeep_bind {r : Except Fault β} {f : β → Except Fault α} :
    TooDeep (r >>= f) ↔ TooDeep r ∨ ∃ b, r = .ok b ∧ TooDeep (f b) := by
  cases r with
  | error e =>
    have hbind : (.error e >>= f) = (.error e : Except Fault α) := rfl
    rw [hbind, tooDeep_error_iff, tooDeep_error_iff]
    simp
  | ok b =>
    refine ⟨fun h => .inr ⟨b, rfl, h⟩, ?_⟩
    rintro (h | ⟨_, hb, h⟩)
    · exact absurd h not_tooDeep_ok
    · cases hb
      exact h

theorem tooDeep_ok_bind {b : β} {f : β → Except Fault α} :
    TooDeep (.ok b >>= f) ↔ TooDeep (f b) :=
  Iff.rfl

theorem tooDeep_bind_pure {r : Except Fault β} {f : β → α} :
    TooDeep (r >>= fun b => pure (f b)) ↔ TooDeep r := by
  rw [tooDeep_bind, or_iff_left]
  rintro ⟨b, -, h⟩
  exact not_tooDeep_ok h

theorem not_tooDeep_expect {κ : Type} [DecidableEq κ] {c : Cursor κ} {k : κ} {cause : SyntaxCause}
    (h : cause ≠ .nestedTooDeeply) : ¬ TooDeep (c.expect n k cause) := by
  unfold Cursor.expect
  split
  · exact not_tooDeep_ok
  · exact not_tooDeep_fault h

/-- Going down fails where there is no level left, and else takes one and does nothing more. -/
theorem tooDeep_descend_bind {p : Parsed Word β c} {f : Parsed Word β c → Except Fault α} :
    TooDeep (descend n p >>= f) ↔
      (p.next.depth < maxDepth → TooDeep (f (p.atDepth (p.next.depth + 1)))) := by
  have hnext : (p.atDepth (p.next.depth + 1)).next.depth = p.next.depth + 1 := rfl
  unfold descend
  dsimp only
  rw [hnext]
  by_cases hlt : p.next.depth < maxDepth
  · rw [if_neg (by omega)]
    exact ⟨fun h _ => h, fun h => h hlt⟩
  · rw [if_pos (by omega)]
    exact ⟨fun _ hlt' => absurd hlt' hlt, fun _ => ⟨_, rfl, cause_fault⟩⟩

/-! ## One step of a reader -/

/-- What is in front of the rest of a chain has no part in how deep the rest goes. -/
theorem tooDeep_chainTail_congr {left : Parsed Word Expr c} {left' : Parsed Word Expr c'}
    (h : left.next = left'.next) :
    TooDeep (chainTail n k left i) ↔ TooDeep (chainTail n k left' j) := by
  induction hlen : left.next.rest.length using Nat.strongRecOn generalizing c c' left left' i j with
  | ind len ih =>
    obtain ⟨v, next, hshort⟩ := left
    obtain ⟨v', next', hshort'⟩ := left'
    cases h
    rw [chainTail, chainTail]
    dsimp only
    cases next.take? k.node? with
    | none => exact iff_of_false not_tooDeep_ok not_tooDeep_ok
    | some op =>
      dsimp only
      rw [tooDeep_descend_bind, tooDeep_descend_bind]
      refine imp_congr_right fun _ => ?_
      rw [tooDeep_bind, tooDeep_bind]
      refine or_congr_right (exists_congr fun right => and_congr_right fun _ => ?_)
      exact ih right.next.rest.length (hlen ▸ Nat.lt_trans right.shorter op.shorter) rfl rfl

theorem tooDeep_chain : TooDeep (chain n k c) ↔
    TooDeep (operand n k c) ∨ ∃ left, operand n k c = .ok left ∧ TooDeep (chainTail n k left 0) := by
  rw [chain]
  exact tooDeep_bind

/-- Behind an operator a chain goes on as one that starts there, a level deeper. -/
theorem tooDeep_chainTail {left : Parsed Word Expr c}
    {op : Parsed Word (Expr → Expr → Expr) left.next} (hop : left.next.take? k.node? = some op) :
    TooDeep (chainTail n k left i) ↔
      (op.next.depth < maxDepth → TooDeep (chain n k ⟨op.next.rest, op.next.depth + 1⟩)) := by
  rw [chainTail, hop]
  dsimp only
  rw [tooDeep_descend_bind, tooDeep_chain]
  refine imp_congr_right fun _ => tooDeep_bind.trans ?_
  exact or_congr_right (exists_congr fun right => and_congr_right fun _ =>
    tooDeep_chainTail_congr rfl)

theorem tooDeep_links_congr {γ : Type} {left : Parsed Word β c} {left' : Parsed Word γ c'}
    (h : left.next = left'.next) : TooDeep (links n left) ↔ TooDeep (links n left') := by
  induction hlen : left.next.rest.length using Nat.strongRecOn generalizing c c' left left' β γ with
  | ind len ih =>
    obtain ⟨v, next, hshort⟩ := left
    obtain ⟨v', next', hshort'⟩ := left'
    cases h
    rw [links, links]
    dsimp only
    cases next.take? comparison? with
    | none => exact iff_of_false not_tooDeep_ok not_tooDeep_ok
    | some op =>
      dsimp only
      rw [tooDeep_bind, tooDeep_bind]
      refine or_congr_right (exists_congr fun e => and_congr_right fun _ => ?_)
      rw [tooDeep_bind_pure, tooDeep_bind_pure]
      exact ih e.next.rest.length (hlen ▸ Nat.lt_trans e.shorter op.shorter) rfl rfl

theorem tooDeep_comparison : TooDeep (comparison n c) ↔ TooDeep (chain n .sum c) ∨
    ∃ first, chain n .sum c = .ok first ∧ TooDeep (links n first) := by
  rw [comparison, tooDeep_bind]
  refine or_congr_right (exists_congr fun first => and_congr_right fun _ => ?_)
  rw [tooDeep_bind, or_iff_left]
  rintro ⟨ls, -, h⟩
  split at h <;> exact not_tooDeep_ok h

/-- A comparison goes on as one that starts behind its operator. -/
theorem tooDeep_links {left : Parsed Word β c} {op : Parsed Word Comparison left.next}
    (hop : left.next.take? comparison? = some op) :
    TooDeep (links n left) ↔ TooDeep (comparison n op.next) := by
  rw [links, hop, tooDeep_comparison]
  dsimp only
  rw [tooDeep_bind]
  refine or_congr_right (exists_congr fun e => and_congr_right fun _ => ?_)
  rw [tooDeep_bind_pure]
  exact tooDeep_links_congr rfl

theorem tooDeep_negation {op : Parsed Word (Token Word) c} (hop : c.eat? .notWord = some op) :
    TooDeep (negation n c) ↔
      (op.next.depth < maxDepth → TooDeep (negation n ⟨op.next.rest, op.next.depth + 1⟩)) := by
  rw [negation, hop]
  dsimp only
  rw [tooDeep_descend_bind]
  exact imp_congr_right fun _ => tooDeep_bind_pure

theorem tooDeep_unary {sign : Parsed Word (Expr → Expr) c} (hsign : c.take? sign? = some sign) :
    TooDeep (unary n c) ↔
      (sign.next.depth < maxDepth → TooDeep (unary n ⟨sign.next.rest, sign.next.depth + 1⟩)) := by
  rw [unary, hsign]
  dsimp only
  rw [tooDeep_descend_bind]
  exact imp_congr_right fun _ => tooDeep_bind_pure

theorem tooDeep_power {base : Parsed Word Expr c} {op : Parsed Word (Token Word) base.next}
    (hbase : atom n c = .ok base) (hop : base.next.eat? .power = some op) :
    TooDeep (power n c) ↔
      (op.next.depth < maxDepth → TooDeep (unary n ⟨op.next.rest, op.next.depth + 1⟩)) := by
  rw [power, hbase, tooDeep_ok_bind, hop]
  dsimp only
  rw [tooDeep_descend_bind]
  exact imp_congr_right fun _ => tooDeep_bind_pure

theorem tooDeep_group {p : Parsed Word (Token Word) c} : TooDeep (group n p) ↔
    (p.next.depth < maxDepth → TooDeep (chain n .disjunction ⟨p.next.rest, p.next.depth + 1⟩)) := by
  rw [group, tooDeep_descend_bind]
  refine imp_congr_right fun _ => ?_
  rw [tooDeep_bind, or_iff_left]
  · rfl
  · rintro ⟨e, -, h⟩
    exact not_tooDeep_expect (by decide) (tooDeep_bind_pure.1 h)

/-- Tokens that derive an expression are read as it, if they do not nest too deeply. -/
theorem Derives.gives {l : Level} {ts us : Tokens} {e : Expr} (h : Derives l ts e)
    (hr : c.rest = ts ++ us) (hend : l.Follows us) :
    Gives (l.read n c) e ⟨us, c.depth⟩ ∨ TooDeep (l.read n c) :=
  (h.derivesIn.settles (d := ⟨us, c.depth⟩) hr rfl hend (Nat.le_refl _)).imp_right (·.2)

end

/-! ## Levels that are open -/

/-- A beginning that leaves levels open starts as an expression of its level does. -/
theorem Opens.head {l : Level} {ts : Tokens} {m : Nat} (h : Opens l ts m) (hm : 0 < m) :
    ∃ t us, ts = t :: us ∧ ¬ l.Bars t.kind := by
  induction h with
  | start => exact absurd hm (Nat.lt_irrefl 0)
  | @first k _ _ _ ih =>
    obtain ⟨t, us, rfl, ht⟩ := ih hm
    refine ⟨t, us, rfl, ?_⟩
    cases k <;> first | exact id | exact ht
  | @chain k _ _ _ _ _ _ h _ _ _ =>
    obtain ⟨t, us, rfl, ht⟩ := h.head
    refine ⟨t, _, rfl, ?_⟩
    cases k <;> first | exact id | exact ht
  | compared _ ih =>
    obtain ⟨t, us, rfl, -⟩ := ih hm
    exact ⟨t, us, rfl, id⟩
  | compl _ _ _ => exact ⟨_, _, rfl, id⟩
  | single _ ih | base _ ih => exact ih hm
  | compare h _ _ _ | power h _ _ _ =>
    obtain ⟨t, us, rfl, ht⟩ := h.head
    exact ⟨t, _, rfl, ht⟩
  | unsigned _ ih =>
    obtain ⟨t, us, rfl, ht⟩ := ih hm
    exact ⟨t, us, rfl, fun hk => ht (.inr (.inr hk))⟩
  | signed hop _ _ =>
    refine ⟨_, _, rfl, fun hk : _ = Word.notWord => ?_⟩
    rw [sign?, hk] at hop
    cases hop
  | parens ho _ _ => exact ⟨_, _, rfl, by simp [ho, Level.Bars]⟩
  | call ht _ _ _ => exact ⟨_, _, rfl, by simp [kind_of_function? ht, Level.Bars]⟩

/-- A beginning that leaves more levels open than there are is not read to its end. -/
theorem Opens.tooDeep {l : Level} {ts : Tokens} {m : Nat} (h : Opens l ts m) {n : Nat}
    {c : Cursor Word} {us : Tokens} (hr : c.rest = ts ++ us) (hd : c.depth ≤ maxDepth)
    (hm : maxDepth < c.depth + m) : TooDeep (l.read n c) := by
  induction h generalizing c us with
  | start => omega
  | @first k _ _ _ ih =>
    show TooDeep (Predicate.chain n k c)
    rw [tooDeep_chain, operand_eq_read]
    exact .inl (ih hr hd hm)
  | @chain k op f ts vs left m h hop _ ih =>
    rw [List.append_assoc] at hr
    show TooDeep (Predicate.chain n k c)
    rw [tooDeep_chain, operand_eq_read]
    rcases h.gives hr (heads_cons (rank_of_node? hop ▸ k.rank_operands)) with
      ⟨p, hp, -, hn⟩ | hdeep
    · obtain ⟨q, hq, -, hqr, hqd⟩ := Cursor.exists_take? (c := p.next) (by rw [hn]; rfl) hop
      have hpd : p.next.depth = c.depth := by rw [hn]
      refine .inr ⟨p, hp, (tooDeep_chainTail hq).2 fun hlt => ?_⟩
      exact ih (c := ⟨q.next.rest, q.next.depth + 1⟩) hqr hlt
        (show maxDepth < q.next.depth + 1 + m by omega)
    · exact .inl hdeep
  | compared h ih =>
    obtain ⟨t, vs, rfl, ht⟩ := h.head (by omega)
    show TooDeep (Predicate.negation n c)
    rw [Predicate.negation, Cursor.eat?_of_ne hr ht]
    exact ih hr hd hm
  | @compl _ _ m hop _ ih =>
    obtain ⟨p, hp, -, hpr, hpd⟩ := Cursor.exists_eat? hr hop
    refine (tooDeep_negation hp).2 fun hlt => ?_
    exact ih (c := ⟨p.next.rest, p.next.depth + 1⟩) hpr hlt
      (show maxDepth < p.next.depth + 1 + m by omega)
  | single _ ih => exact tooDeep_comparison.2 (.inl (ih hr hd hm))
  | @compare t op ts vs left m h hop _ ih =>
    rw [List.append_assoc] at hr
    refine tooDeep_comparison.2 ?_
    rcases h.gives hr (heads_cons (rank_of_comparison? hop ▸ Nat.lt_succ_self 3)) with
      ⟨p, hp, -, hn⟩ | hdeep
    · obtain ⟨q, hq, -, hqr, hqd⟩ := Cursor.exists_take? (c := p.next) (by rw [hn]; rfl) hop
      have hpd : p.next.depth = c.depth := by rw [hn]
      exact .inr ⟨p, hp, (tooDeep_links hq).2 (ih hqr (by omega) (by omega))⟩
    · exact .inl hdeep
  | unsigned h ih =>
    obtain ⟨t, vs, rfl, ht⟩ := h.head (by omega)
    show TooDeep (Predicate.unary n c)
    rw [Predicate.unary, take?_of_none hr (sign?_eq_none ht)]
    exact ih hr hd hm
  | @signed _ _ _ m hop _ ih =>
    obtain ⟨p, hp, -, hpr, hpd⟩ := Cursor.exists_take? hr hop
    refine (tooDeep_unary hp).2 fun hlt => ?_
    exact ih (c := ⟨p.next.rest, p.next.depth + 1⟩) hpr hlt
      (show maxDepth < p.next.depth + 1 + m by omega)
  | base _ ih =>
    show TooDeep (Predicate.power n c)
    rw [Predicate.power]
    exact tooDeep_bind.2 (.inl (ih hr hd hm))
  | @power op ts vs base m h hop _ ih =>
    rw [List.append_assoc] at hr
    rcases h.gives hr (heads_cons (by simp [hop, Word.rank, Level.rank])) with
      ⟨p, hp, -, hn⟩ | hdeep
    · obtain ⟨q, hq, -, hqr, hqd⟩ := Cursor.exists_eat? (c := p.next) (by rw [hn]; rfl) hop
      have hpd : p.next.depth = c.depth := by rw [hn]
      refine (tooDeep_power hp hq).2 fun hlt => ?_
      exact ih (c := ⟨q.next.rest, q.next.depth + 1⟩) hqr hlt
        (show maxDepth < q.next.depth + 1 + m by omega)
    · show TooDeep (Predicate.power n c)
      rw [Predicate.power]
      exact tooDeep_bind.2 (.inl hdeep)
  | @parens _ _ m ho _ ih =>
    obtain ⟨p, hp, -, hpr, hpd⟩ := Cursor.exists_eat? hr ho
    show TooDeep (Predicate.atom n c)
    rw [Predicate.atom, take?_of_none hr (literal?_of_openParen ho), hp]
    refine tooDeep_group.2 fun hlt => ?_
    exact ih (c := ⟨p.next.rest, p.next.depth + 1⟩) hpr hlt
      (show maxDepth < p.next.depth + 1 + m by omega)
  | @call _ _ _ _ m ht ho _ ih =>
    rw [List.cons_append, List.cons_append] at hr
    have hk := kind_of_function? ht
    obtain ⟨f, hf, -, hfr, hfd⟩ := Cursor.exists_take? (f := fun t => MathFunction.ofName? t.text)
      hr (function?_of_identifier hk ▸ ht)
    obtain ⟨p, hp, -, hpr, hpd⟩ := Cursor.exists_eat? hfr ho
    show TooDeep (Predicate.atom n c)
    rw [atom_eq_name hr hk, name, take?_of_none hr (constant?_of_function? ht), hf]
    dsimp only
    rw [hp]
    refine tooDeep_bind_pure.2 (tooDeep_group.2 fun hlt => ?_)
    exact ih (c := ⟨p.next.rest, p.next.depth + 1⟩) hpr hlt
      (show maxDepth < p.next.depth + 1 + m by omega)

/-! ## What goes too deep -/

mutual

theorem chain_exceeds {n : Nat} {k : Chain} {c : Cursor Word} (h : TooDeep (chain n k c))
    (hd : c.depth ≤ maxDepth) : Exceeds (Opens (.chain k)) c.rest c.depth := by
  rcases tooDeep_chain.1 h with h | ⟨left, hleft, h⟩
  · exact (operand_exceeds h hd).mono fun _ _ => .first
  · obtain ⟨ts, hr, hdl, hts⟩ := operand_sound ⟨left, hleft, rfl, rfl⟩
    cases hop : left.next.take? k.node? with
    | none =>
      rw [chainTail, hop] at h
      exact absurd h not_tooDeep_ok
    | some op =>
      obtain ⟨t, hrt, hdt, ht⟩ := Cursor.of_take? hop
      have hrest := (tooDeep_chainTail hop).1 h
      have hshort : op.next.rest.length < c.rest.length := Nat.lt_trans op.shorter left.shorter
      rw [hr, hrt, hdl, hdt]
      -- the operand `ts` is complete and leaves nothing open, the operator behind it one level
      have hdeeper := Exceeds.deeper (Q := fun us m => Opens (.chain k) (ts ++ us) m)
        (fun hlt => chain_exceeds (c := ⟨op.next.rest, op.next.depth + 1⟩) (hrest hlt) hlt)
        (hdt ▸ hdl ▸ hd) .start fun _ _ => .chain hts.derives ht
      exact hdeeper.behind fun _ _ => id
termination_by 16 * c.rest.length + k.rank + 1

theorem operand_exceeds {n : Nat} {k : Chain} {c : Cursor Word} (h : TooDeep (operand n k c))
    (hd : c.depth ≤ maxDepth) : Exceeds (Opens k.operands) c.rest c.depth := by
  cases k with
  | disjunction =>
    rw [operand] at h
    exact chain_exceeds h hd
  | conjunction =>
    rw [operand] at h
    exact negation_exceeds h hd
  | sum =>
    rw [operand] at h
    exact chain_exceeds h hd
  | product =>
    rw [operand] at h
    exact unary_exceeds h hd
termination_by 16 * c.rest.length + k.rank

theorem negation_exceeds {n : Nat} {c : Cursor Word} (h : TooDeep (negation n c))
    (hd : c.depth ≤ maxDepth) : Exceeds (Opens .negation) c.rest c.depth := by
  cases hop : c.eat? .notWord with
  | none =>
    rw [negation, hop] at h
    exact (comparison_exceeds h hd).mono fun _ _ => .compared
  | some op =>
    obtain ⟨hk, hr, hdo⟩ := Cursor.of_eat? hop
    have hrest := (tooDeep_negation hop).1 h
    have hshort := op.shorter
    rw [hr, hdo]
    exact .deeper
      (fun hlt => negation_exceeds (c := ⟨op.next.rest, op.next.depth + 1⟩) (hrest hlt) hlt)
      (hdo ▸ hd) .start fun _ _ => .compl hk
termination_by 16 * c.rest.length + 10

theorem comparison_exceeds {n : Nat} {c : Cursor Word} (h : TooDeep (comparison n c))
    (hd : c.depth ≤ maxDepth) : Exceeds (Opens .comparison) c.rest c.depth := by
  rcases tooDeep_comparison.1 h with h | ⟨left, hleft, h⟩
  · exact (chain_exceeds h hd).mono fun _ _ => .single
  · obtain ⟨ts, hr, hdl, hts⟩ := chain_sound ⟨left, hleft, rfl, rfl⟩
    cases hop : left.next.take? comparison? with
    | none =>
      rw [links, hop] at h
      exact absurd h not_tooDeep_ok
    | some op =>
      obtain ⟨t, hrt, hdt, ht⟩ := Cursor.of_take? hop
      have hshort : op.next.rest.length < c.rest.length := Nat.lt_trans op.shorter left.shorter
      -- unlike the operator of a chain, that of a comparison takes no level
      have hrest := comparison_exceeds ((tooDeep_links hop).1 h) (hdt ▸ hdl ▸ hd)
      rw [hr, hrt, hdl, hdt, List.append_cons]
      refine hrest.behind fun us m hus => ?_
      rw [← List.append_cons]
      exact .compare hts.derives ht hus
termination_by 16 * c.rest.length + 9

theorem unary_exceeds {n : Nat} {c : Cursor Word} (h : TooDeep (unary n c))
    (hd : c.depth ≤ maxDepth) : Exceeds (Opens .unary) c.rest c.depth := by
  cases hsign : c.take? sign? with
  | none =>
    rw [unary, hsign] at h
    exact (power_exceeds h hd).mono fun _ _ => .unsigned
  | some sign =>
    obtain ⟨t, hr, hds, ht⟩ := Cursor.of_take? hsign
    have hrest := (tooDeep_unary hsign).1 h
    have hshort := sign.shorter
    rw [hr, hds]
    exact .deeper
      (fun hlt => unary_exceeds (c := ⟨sign.next.rest, sign.next.depth + 1⟩) (hrest hlt) hlt)
      (hds ▸ hd) .start fun _ _ => .signed ht
termination_by 16 * c.rest.length + 4

theorem power_exceeds {n : Nat} {c : Cursor Word} (h : TooDeep (power n c))
    (hd : c.depth ≤ maxDepth) : Exceeds (Opens .power) c.rest c.depth := by
  have hparts := h
  rw [power] at hparts
  rcases tooDeep_bind.1 hparts with hatom | ⟨base, hbase, hexp⟩
  · exact (atom_exceeds hatom hd).mono fun _ _ => .base
  · obtain ⟨ts, hr, hdb, hts⟩ := atom_sound ⟨base, hbase, rfl, rfl⟩
    cases hop : base.next.eat? .power with
    | none =>
      rw [hop] at hexp
      exact absurd hexp not_tooDeep_ok
    | some op =>
      obtain ⟨hk, hro, hdo⟩ := Cursor.of_eat? hop
      have hrest := (tooDeep_power hbase hop).1 h
      have hshort : op.next.rest.length < c.rest.length := Nat.lt_trans op.shorter base.shorter
      rw [hr, hro, hdb, hdo]
      have hdeeper := Exceeds.deeper (Q := fun us m => Opens .power (ts ++ us) m)
        (fun hlt => unary_exceeds (c := ⟨op.next.rest, op.next.depth + 1⟩) (hrest hlt) hlt)
        (hdo ▸ hdb ▸ hd) .start fun _ _ => .power hts.derives hk
      exact hdeeper.behind fun _ _ => id
termination_by 16 * c.rest.length + 3

theorem atom_exceeds {n : Nat} {c : Cursor Word} (h : TooDeep (atom n c))
    (hd : c.depth ≤ maxDepth) : Exceeds (Opens .atom) c.rest c.depth := by
  rw [atom] at h
  split at h
  · exact absurd h not_tooDeep_ok
  · split at h
    · rename_i paren hparen
      obtain ⟨hk, hr, hdp⟩ := Cursor.of_eat? hparen
      have hshort := paren.shorter
      rw [hr, hdp]
      exact .deeper (fun hlt => chain_exceeds (c := ⟨paren.next.rest, paren.next.depth + 1⟩)
        (tooDeep_group.1 h hlt) hlt) (hdp ▸ hd) .start fun _ _ => .parens hk
    · split at h
      · exact name_exceeds h hd ‹_›
      · exact absurd h (not_tooDeep_fault (by decide))
termination_by 16 * c.rest.length + 2

theorem name_exceeds {n : Nat} {c : Cursor Word} (h : TooDeep (name n c))
    (hd : c.depth ≤ maxDepth) (hk : c.kind? = some .identifier) :
    Exceeds (Opens .atom) c.rest c.depth := by
  rw [name] at h
  split at h
  · exact absurd h not_tooDeep_ok
  · split at h
    · exact absurd h (not_tooDeep_fault (by decide))
    · rename_i f hf
      obtain ⟨t, hr, hdf, ht⟩ := Cursor.of_take? hf
      have hident : t.kind = .identifier :=
        Option.some.inj ((Cursor.kind?_of_rest hr).symm.trans hk)
      split at h
      · exact absurd h (not_tooDeep_fault (by decide))
      · rename_i paren hparen
        obtain ⟨hk, hro, hdp⟩ := Cursor.of_eat? hparen
        have hshort : paren.next.rest.length < c.rest.length :=
          Nat.lt_trans paren.shorter f.shorter
        rw [hr, hro, hdf, hdp]
        have hrest := tooDeep_group.1 (tooDeep_bind_pure.1 h)
        have hdeeper := Exceeds.deeper (Q := fun us m => Opens .atom (t :: us) m)
          (fun hlt => chain_exceeds (c := ⟨paren.next.rest, paren.next.depth + 1⟩)
            (hrest hlt) hlt)
          (hdp ▸ hdf ▸ hd) .start fun _ _ => .call ((function?_of_identifier hident).trans ht) hk
        show Exceeds (Opens .atom) ([t] ++ paren.value :: paren.next.rest) paren.next.depth
        exact hdeeper.behind fun _ _ => id
termination_by 16 * c.rest.length + 1

end

/-- A reader goes too deep just if some beginning of what it is given leaves more levels open than
there are from its depth on. -/
theorem read_tooDeep_iff {l : Level} {n : Nat} {c : Cursor Word} (hd : c.depth ≤ maxDepth) :
    TooDeep (l.read n c) ↔ Exceeds (Opens l) c.rest c.depth := by
  constructor
  · intro h
    cases l with
    | chain k => exact chain_exceeds h hd
    | negation => exact negation_exceeds h hd
    | comparison => exact comparison_exceeds h hd
    | unary => exact unary_exceeds h hd
    | power => exact power_exceeds h hd
    | atom => exact atom_exceeds h hd
  · rintro ⟨us, m, ⟨vs, hvs⟩, hopen, hdeep⟩
    exact hopen.tooDeep hvs.symm hd hdeep

theorem not_tooDeep_scan {κ : Type} {rules : List (κ × Pattern)} {s : List Char} :
    ¬ TooDeep (Lexical.scan rules s) := by
  rintro ⟨f, hf, hcause⟩
  obtain ⟨before, c, after, ts, -, rfl, -⟩ := (Lexical.scanFrom_spec rules 0 s).2 f hf
  cases hcause

/-- A text is nested too deeply just if some beginning of its tokens leaves more than `maxDepth`
levels open. -/
theorem parse_tooDeep_iff {text : List Char} :
    TooDeep (Predicate.parse text) ↔
      ∃ ts, tokens text = .ok ts ∧ Exceeds (Opens (.chain .disjunction)) ts 0 := by
  rw [Predicate.parse]
  refine tooDeep_bind.trans ((or_iff_right not_tooDeep_scan).trans ?_)
  refine exists_congr fun ts => and_congr_right fun _ => ?_
  refine Iff.trans ?_ (read_tooDeep_iff (n := byteLength text) (c := ⟨ts, 0⟩) (Nat.zero_le _))
  refine tooDeep_bind.trans (or_iff_left ?_)
  rintro ⟨e, -, h⟩
  split at h
  · exact not_tooDeep_ok h
  · exact not_tooDeep_fault (by decide) h

theorem ofText_tooDeep_iff {text : List Char} :
    (∃ e, ofText text = .error e ∧ e.cause = .nestedTooDeeply) ↔
      TooDeep (Predicate.parse text) := by
  unfold ofText
  cases Predicate.parse text with
  | ok p => exact iff_of_false (fun ⟨_, h, _⟩ => nomatch h) not_tooDeep_ok
  | error f => exact ⟨fun ⟨_, h, hcause⟩ => ⟨f, rfl, by cases h; exact hcause⟩,
      fun h => ⟨_, rfl, tooDeep_error_iff.1 h⟩⟩

end Predicate

end Subdomain
