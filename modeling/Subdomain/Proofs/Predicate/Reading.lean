import Subdomain.Proofs.Lexical.Cursor
import Subdomain.Proofs.Predicate.Depth

/-!
# Reading the grammar of predicates

What a reader has read derives the expression that it gives, within the levels that
are left at the depth at which it began and to which it comes back (`chain_sound` and
the theorems around it).
-/

namespace Subdomain

namespace Predicate

theorem of_descend {α : Type} {n : Nat} {c c' : Cursor Word} {p : Parsed Word α c} {a : α}
    (h : Gives (descend n p) a c') :
    a = p.value ∧ c'.rest = p.next.rest ∧ c'.depth = p.next.depth + 1 ∧
      maxDepth - p.next.depth = maxDepth - c'.depth + 1 := by
  unfold descend at h
  dsimp only at h
  split at h
  · exact absurd h not_gives_error
  · rename_i hdepth
    change ¬ maxDepth < p.next.depth + 1 at hdepth
    obtain ⟨rfl, rfl⟩ := gives_ok.1 h
    exact ⟨rfl, rfl, rfl,
      show maxDepth - p.next.depth = maxDepth - (p.next.depth + 1) + 1 by omega⟩

theorem of_sign? {t : Token Word} {f : Expr → Expr} (h : sign? t = some f) {n : Nat} {ts : Tokens}
    {e : Expr} (ht : DerivesIn n .unary ts e) : DerivesIn (n + 1) .unary (t :: ts) (f e) := by
  unfold sign? at h
  split at h
  · cases h
    exact .minus ‹_› ht
  · cases h
    exact .plus ‹_› ht
  · cases h

mutual

theorem chain_sound {n : Nat} {c c' : Cursor Word} {e : Expr} {k : Chain}
    (h : Gives (chain n k c) e c') :
    ∃ ts, c.rest = ts ++ c'.rest ∧ c.depth = c'.depth ∧
      DerivesIn (maxDepth - c.depth) (.chain k) ts e := by
  rw [chain] at h
  obtain ⟨left, hleft, h⟩ := gives_bind.1 h
  have := left.shorter
  obtain ⟨ts, hr, hd, hts⟩ := operand_sound hleft
  obtain ⟨us, hr', hd', hus⟩ := chainTail_sound h (Nat.zero_le _)
  exact ⟨ts ++ us, by rw [hr, hr', List.append_assoc], hd.trans hd',
    .chain hts (hd ▸ hus)⟩
termination_by 16 * c.rest.length + k.rank + 1

theorem chainTail_sound {n : Nat} {c c' : Cursor Word} {e : Expr} {k : Chain}
    {left : Parsed Word Expr c} {i : Nat} (h : Gives (chainTail n k left i) e c')
    (hi : i ≤ left.next.depth) :
    ∃ ts, left.next.rest = ts ++ c'.rest ∧ left.next.depth - i = c'.depth ∧
      RestIn (maxDepth - left.next.depth) k left.value ts e := by
  rw [chainTail] at h
  split at h
  · obtain ⟨rfl, rfl⟩ := gives_ok.1 h
    exact ⟨[], rfl, rfl, .done⟩
  · rename_i op hop
    obtain ⟨t, hrt, hdt, ht⟩ := Cursor.of_take? hop
    obtain ⟨op', hop', h⟩ := gives_bind.1 h
    obtain ⟨hv, hro, hdo, hlevels⟩ := of_descend hop'
    have := op.shorter
    have := op'.shorter
    have := k.rank_le
    obtain ⟨right, hright, h⟩ := gives_bind.1 h
    have := right.shorter
    obtain ⟨ts, hr, hd, hts⟩ := operand_sound hright
    obtain ⟨us, hr', hd', hus⟩ := chainTail_sound h
      (show i + 1 ≤ right.next.depth by omega)
    change right.next.rest = _ at hr'
    change right.next.depth - (i + 1) = _ at hd'
    change RestIn (maxDepth - right.next.depth) _ _ _ _ at hus
    refine ⟨t :: (ts ++ us), ?_, by omega, ?_⟩
    · rw [hrt, ← hro, hr, hr', List.cons_append, List.append_assoc]
    · rw [hdt, hlevels]
      exact .more (ht.trans (congrArg _ hv.symm)) hts (hd ▸ hus)
termination_by 16 * left.next.rest.length + 13

theorem operand_sound {n : Nat} {c c' : Cursor Word} {e : Expr} {k : Chain}
    (h : Gives (operand n k c) e c') :
    ∃ ts, c.rest = ts ++ c'.rest ∧ c.depth = c'.depth ∧
      DerivesIn (maxDepth - c.depth) k.operands ts e := by
  cases k with
  | disjunction =>
    rw [operand] at h
    exact chain_sound h
  | conjunction =>
    rw [operand] at h
    exact negation_sound h
  | sum =>
    rw [operand] at h
    exact chain_sound h
  | product =>
    rw [operand] at h
    exact unary_sound h
termination_by 16 * c.rest.length + k.rank

theorem negation_sound {n : Nat} {c c' : Cursor Word} {e : Expr} (h : Gives (negation n c) e c') :
    ∃ ts, c.rest = ts ++ c'.rest ∧ c.depth = c'.depth ∧
      DerivesIn (maxDepth - c.depth) .negation ts e := by
  rw [negation] at h
  split at h
  · obtain ⟨ts, hr, hd, hts⟩ := comparison_sound h
    exact ⟨ts, hr, hd, .compared hts⟩
  · rename_i op hop
    obtain ⟨hk, hrt, hdt⟩ := Cursor.of_eat? hop
    obtain ⟨op', hop', h⟩ := gives_bind.1 h
    obtain ⟨hv, hro, hdo, hlevels⟩ := of_descend hop'
    have := op'.shorter
    obtain ⟨q, hq, h⟩ := gives_bind.1 h
    obtain ⟨rfl, rfl⟩ := gives_ok.1 h
    obtain ⟨ts, hr, hd, hts⟩ := negation_sound hq
    refine ⟨op.value :: ts, ?_, ?_, ?_⟩
    · rw [hrt, ← hro, hr]
      rfl
    · show c.depth = q.next.depth - 1
      omega
    · rw [hdt, hlevels]
      exact .compl hk hts
termination_by 16 * c.rest.length + 10

theorem comparison_sound {n : Nat} {c c' : Cursor Word} {e : Expr}
    (h : Gives (comparison n c) e c') :
    ∃ ts, c.rest = ts ++ c'.rest ∧ c.depth = c'.depth ∧
      DerivesIn (maxDepth - c.depth) .comparison ts e := by
  rw [comparison] at h
  obtain ⟨first, hfirst, h⟩ := gives_bind.1 h
  have := first.shorter
  obtain ⟨ts, hr, hd, hts⟩ := chain_sound hfirst
  obtain ⟨ls, hls, h⟩ := gives_bind.1 h
  obtain ⟨us, hr', hd', hus⟩ := links_sound hls
  split at h
  · rename_i hnil
    rw [hnil] at hus
    cases hus
    obtain ⟨rfl, rfl⟩ := gives_ok.1 h
    exact ⟨ts, hr, hd, .single hts⟩
  · rename_i op e' rest hcons
    rw [hcons] at hus
    obtain ⟨rfl, rfl⟩ := gives_ok.1 h
    exact ⟨ts ++ us, by rw [hr, hr', List.append_assoc]; rfl, hd.trans hd',
      .compare hts (hd ▸ hus)⟩
termination_by 16 * c.rest.length + 9

theorem links_sound {α : Type} {n : Nat} {c c' : Cursor Word} {left : Parsed Word α c} {ls : Links}
    (h : Gives (links n left) ls c') :
    ∃ ts, left.next.rest = ts ++ c'.rest ∧ left.next.depth = c'.depth ∧
      LinksIn (maxDepth - left.next.depth) ts ls := by
  rw [links] at h
  split at h
  · obtain ⟨rfl, rfl⟩ := gives_ok.1 h
    exact ⟨[], rfl, rfl, .nil⟩
  · rename_i op hop
    obtain ⟨t, hrt, hdt, ht⟩ := Cursor.of_take? hop
    have := op.shorter
    obtain ⟨q, hq, h⟩ := gives_bind.1 h
    have := q.shorter
    obtain ⟨ts, hr, hd, hts⟩ := chain_sound hq
    obtain ⟨rest, hrest, rfl⟩ := gives_map.1 h
    obtain ⟨us, hr', hd', hus⟩ := links_sound hrest
    change q.next.rest = _ at hr'
    change q.next.depth = _ at hd'
    change LinksIn (maxDepth - q.next.depth) _ _ at hus
    rw [← hd, ← hdt] at hus
    refine ⟨t :: (ts ++ us), ?_, by omega, .cons ht (hdt ▸ hts) hus⟩
    rw [hrt, hr, hr', List.cons_append, List.append_assoc]
termination_by 16 * left.next.rest.length + 8

theorem unary_sound {n : Nat} {c c' : Cursor Word} {e : Expr} (h : Gives (unary n c) e c') :
    ∃ ts, c.rest = ts ++ c'.rest ∧ c.depth = c'.depth ∧
      DerivesIn (maxDepth - c.depth) .unary ts e := by
  rw [unary] at h
  split at h
  · obtain ⟨ts, hr, hd, hts⟩ := power_sound h
    exact ⟨ts, hr, hd, .unsigned hts⟩
  · rename_i sign hsign
    obtain ⟨t, hrt, hdt, ht⟩ := Cursor.of_take? hsign
    obtain ⟨sign', hsign', h⟩ := gives_bind.1 h
    obtain ⟨hv, hro, hdo, hlevels⟩ := of_descend hsign'
    have := sign'.shorter
    obtain ⟨q, hq, h⟩ := gives_bind.1 h
    obtain ⟨rfl, rfl⟩ := gives_ok.1 h
    obtain ⟨ts, hr, hd, hts⟩ := unary_sound hq
    refine ⟨t :: ts, ?_, ?_, ?_⟩
    · rw [hrt, ← hro, hr]
      rfl
    · show c.depth = q.next.depth - 1
      omega
    · rw [hdt, hlevels]
      exact of_sign? (ht.trans (congrArg _ hv.symm)) hts
termination_by 16 * c.rest.length + 4

theorem power_sound {n : Nat} {c c' : Cursor Word} {e : Expr} (h : Gives (power n c) e c') :
    ∃ ts, c.rest = ts ++ c'.rest ∧ c.depth = c'.depth ∧
      DerivesIn (maxDepth - c.depth) .power ts e := by
  rw [power] at h
  obtain ⟨base, hbase, h⟩ := gives_bind.1 h
  have := base.shorter
  obtain ⟨ts, hr, hd, hts⟩ := atom_sound hbase
  split at h
  · obtain ⟨rfl, rfl⟩ := gives_ok.1 h
    exact ⟨ts, hr, hd, .base hts⟩
  · rename_i op hop
    obtain ⟨hk, hrt, hdt⟩ := Cursor.of_eat? hop
    obtain ⟨op', hop', h⟩ := gives_bind.1 h
    obtain ⟨hv, hro, hdo, hlevels⟩ := of_descend hop'
    have := op'.shorter
    obtain ⟨q, hq, h⟩ := gives_bind.1 h
    obtain ⟨rfl, rfl⟩ := gives_ok.1 h
    obtain ⟨us, hr', hd', hus⟩ := unary_sound hq
    refine ⟨ts ++ op.value :: us, ?_, ?_, ?_⟩
    · rw [hr, hrt, ← hro, hr', List.append_assoc]
      rfl
    · show c.depth = q.next.depth - 1
      omega
    · rw [hd, hdt, hlevels] at hts ⊢
      exact .power hts hk hus
termination_by 16 * c.rest.length + 3

theorem atom_sound {n : Nat} {c c' : Cursor Word} {e : Expr} (h : Gives (atom n c) e c') :
    ∃ ts, c.rest = ts ++ c'.rest ∧ c.depth = c'.depth ∧
      DerivesIn (maxDepth - c.depth) .atom ts e := by
  rw [atom] at h
  split at h
  · rename_i p hp
    obtain ⟨rfl, rfl⟩ := gives_ok.1 h
    obtain ⟨t, hrt, hdt, ht⟩ := Cursor.of_take? hp
    exact ⟨[t], hrt, hdt, .literal (leaf?_of_literal? ht)⟩
  · split at h
    · rename_i paren hparen
      obtain ⟨hk, hrt, hdt⟩ := Cursor.of_eat? hparen
      obtain ⟨m, ts, cl, hr, hd, hm, hts, hcl⟩ := group_sound h
      refine ⟨paren.value :: (ts ++ [cl]), by rw [hrt, hr]; simp, hdt.trans hd, ?_⟩
      rw [hdt, hm]
      exact .parens hk hts hcl
    · split at h
      · rename_i hk
        obtain ⟨ts, hr, hd, hts⟩ := name_sound h
        exact ⟨ts, hr, hd, hts hk⟩
      · exact absurd h not_gives_error
termination_by 16 * c.rest.length + 2

theorem name_sound {n : Nat} {c c' : Cursor Word} {e : Expr} (h : Gives (name n c) e c') :
    ∃ ts, c.rest = ts ++ c'.rest ∧ c.depth = c'.depth ∧
      (c.kind? = some .identifier → DerivesIn (maxDepth - c.depth) .atom ts e) := by
  have hkind {t : Token Word} {ts : Tokens} (hr : c.rest = t :: ts)
      (hk : c.kind? = some .identifier) : t.kind = .identifier :=
    Option.some.inj ((Cursor.kind?_of_rest hr).symm.trans hk)
  rw [name] at h
  split at h
  · rename_i p hp
    obtain ⟨rfl, rfl⟩ := gives_ok.1 h
    obtain ⟨t, hrt, hdt, ht⟩ := Cursor.of_take? hp
    exact ⟨[t], hrt, hdt, fun hk => .literal ((leaf?_of_identifier (hkind hrt hk)).trans ht)⟩
  · split at h
    · exact absurd h not_gives_error
    · rename_i f hf
      obtain ⟨t, hrt, hdt, ht⟩ := Cursor.of_take? hf
      split at h
      · exact absurd h not_gives_error
      · rename_i paren hparen
        obtain ⟨hk, hro, hdo⟩ := Cursor.of_eat? hparen
        have := f.shorter
        have := paren.shorter
        obtain ⟨e', he', rfl⟩ := gives_map.1 h
        obtain ⟨m, ts, cl, hr, hd, hm, hts, hcl⟩ := group_sound he'
        change paren.next.rest = _ at hr
        change maxDepth - paren.next.depth = _ at hm
        refine ⟨t :: paren.value :: (ts ++ [cl]), ?_, hdt.trans (hdo.trans hd), fun hident => ?_⟩
        · rw [hrt, hro, hr]
          simp
        · rw [hdt, hdo, hm]
          exact .call ((function?_of_identifier (hkind hrt hident)).trans ht) hk hts hcl
termination_by 16 * c.rest.length + 1

theorem group_sound {n : Nat} {c c' : Cursor Word} {e : Expr}
    {paren : Parsed Word (Token Word) c} (h : Gives (group n paren) e c') :
    ∃ n ts close, paren.next.rest = ts ++ close :: c'.rest ∧ paren.next.depth = c'.depth ∧
      maxDepth - paren.next.depth = n + 1 ∧ DerivesIn n (.chain .disjunction) ts e ∧
      close.kind = .closeParen := by
  rw [group] at h
  obtain ⟨inner, hinner, h⟩ := gives_bind.1 h
  obtain ⟨hv, hro, hdo, hlevels⟩ := of_descend hinner
  have := inner.shorter
  obtain ⟨q, hq, h⟩ := gives_bind.1 h
  obtain ⟨ts, hr, hd, hts⟩ := chain_sound hq
  obtain ⟨close, hclose, h⟩ := gives_bind.1 h
  obtain ⟨hk, hcr, hcd⟩ := Cursor.gives_expect.1 hclose
  obtain ⟨rfl, rfl⟩ := gives_ok.1 h
  refine ⟨_, ts, close.value, ?_, ?_, hlevels, hts, hk⟩
  · rw [← hro, hr, hcr]
    rfl
  · show paren.next.depth = close.next.depth - 1
    omega
termination_by 16 * c.rest.length

end

end Predicate

end Subdomain
