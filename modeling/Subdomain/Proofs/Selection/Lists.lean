import Subdomain.Proofs.Lexical.Cursor
import Subdomain.Proofs.Selection.Grammar

/-!
# Reading names, integers and lists

The readers of the parts of a leaf read the forms of these parts. Lists go on as
long as they can, so that neither an item nor a comma may follow a list.
-/

namespace Subdomain

namespace Selection

variable {s : Source}

/-- The integer, without a sign, is at most the greatest one of 64 bits. -/
def Fits (t : Token Word) : Prop := Decimal.natOfDigits t.chars ≤ maxInteger

theorem reads_reference (cause : SyntaxCause) :
    Reads (reference s cause) (fun t : Terminal .reference => [t.val]) Anything
      (fun t n => referenceName t.val = n) where
  sound h := by
    obtain ⟨t, ht, rfl⟩ := gives_map.1 h
    obtain ⟨hk, hr, hd⟩ := Cursor.gives_expect.1 ht
    exact ⟨⟨t, hk⟩, hr, hd, rfl⟩
  complete t hr hd _ hm :=
    gives_map.2 ⟨t.val, Cursor.gives_expect.2 ⟨t.property, hr, hd⟩, hm⟩

theorem reads_name :
    Reads (name s) (fun t : NameForm => [t.val]) Anything (fun t n => t.val.text = n) where
  sound {c c' n} h := by
    unfold name at h
    split at h
    · rename_i p hp
      obtain ⟨rfl, rfl⟩ := gives_ok.1 h
      obtain ⟨t, hr, hd, ht⟩ := Cursor.of_take? hp
      split at ht
      · rename_i hk
        exact ⟨⟨t, hk⟩, hr, hd, Option.some.inj ht⟩
      · cases ht
    · exact absurd h not_gives_error
  complete t hr hd _ hm := by
    obtain ⟨p, hp, hv, hpr, hpd⟩ := Cursor.exists_take? (f := fun t : Token Word =>
      if t.kind.isName then some t.text else none) hr (if_pos t.property)
    unfold name
    rw [hp]
    exact gives_ok.2 ⟨hv.trans hm, Cursor.eq_of_rest hpr (hpd.trans hd)⟩

theorem reads_integer :
    Reads (integer s) (fun t : Terminal .integer => [t.val]) Anything
      (fun t n => Fits t.val ∧ intOf t.val = n) where
  sound h := by
    obtain ⟨p, hp, h⟩ := gives_bind.1 h
    obtain ⟨hk, hr, hd⟩ := Cursor.gives_expect.1 hp
    dsimp only at h
    split at h
    · rename_i hfits
      obtain ⟨hv, hn⟩ := gives_ok.1 h
      subst hn
      exact ⟨⟨p.value, hk⟩, hr, hd, hfits, hv⟩
    · exact absurd h not_gives_error
  complete t hr hd _ hm := by
    refine (Cursor.gives_expect.2 ⟨t.property, hr, hd⟩).bind fun p hv hn => ?_
    dsimp only
    rw [hv, if_pos (show Decimal.natOfDigits t.val.chars ≤ maxInteger from hm.1)]
    exact gives_ok.2 ⟨hm.2, hn⟩

theorem reads_signedInteger :
    Reads (signedInteger s) SignedForm.tokens Anything
      (fun d n => Fits d.digits.val ∧ d.value = n) where
  sound h := by
    unfold signedInteger at h
    split at h
    · obtain ⟨t, hr, hd, hfits, hv⟩ := reads_integer.sound h
      exact ⟨⟨none, t⟩, hr, hd, hfits, hv⟩
    · rename_i sign hsign
      obtain ⟨hk, hr, hd⟩ := Cursor.of_eat? hsign
      obtain ⟨n, hn, rfl⟩ := gives_skip_map.1 h
      obtain ⟨t, hr', hd', hfits, rfl⟩ := reads_integer.sound hn
      refine ⟨⟨some ⟨sign.value, hk⟩, t⟩, ?_, hd.trans hd', hfits, rfl⟩
      rw [hr, hr']
      rfl
  complete d hr hd _ hm := by
    obtain ⟨minus, t⟩ := d
    unfold signedInteger
    cases minus with
    | none =>
      have hnone : Cursor.eat? Word.minus _ = none := Cursor.eat?_eq_none_iff.2 (by
        rw [Cursor.kind?_of_rest hr, t.property]
        simp)
      rw [hnone]
      exact reads_integer.complete t hr hd trivial hm
    | some m =>
      obtain ⟨p, hp, -, hpr, hpd⟩ := Cursor.exists_eat? hr m.property
      rw [hp]
      exact gives_skip_map.2 ⟨_, reads_integer.complete t hpr (hpd.trans hd) trivial
        ⟨hm.1, rfl⟩, hm.2⟩

theorem reads_pair :
    Reads (pair s) PairForm.tokens Anything
      (fun d v => (∀ t ∈ d.integers, Fits t) ∧ d.value = v) where
  sound h := by
    obtain ⟨o, ho, h⟩ := gives_bind.1 h
    obtain ⟨hok, hor, hod⟩ := Cursor.gives_expect.1 ho
    obtain ⟨g, hg, h⟩ := gives_bind.1 h
    obtain ⟨group, hgr, hgd, hgf, hgv⟩ := reads_integer.sound hg
    obtain ⟨m, hm, h⟩ := gives_bind.1 h
    obtain ⟨hmk, hmr, hmd⟩ := Cursor.gives_expect.1 hm
    obtain ⟨i, hi, h⟩ := gives_bind.1 h
    obtain ⟨cell, hir, hid, hif, hiv⟩ := reads_integer.sound hi
    obtain ⟨e, he, h⟩ := gives_bind.1 h
    obtain ⟨hek, her, hed⟩ := Cursor.gives_expect.1 he
    obtain ⟨hv, hn⟩ := gives_ok.1 h
    subst hn
    refine ⟨⟨⟨o.value, hok⟩, group, ⟨m.value, hmk⟩, cell, ⟨e.value, hek⟩⟩, ?_, ?_, ?_, ?_⟩
    · rw [hor, hgr, hmr, hir, her]
      rfl
    · exact hod.trans (hgd.trans (hmd.trans (hid.trans hed)))
    · simp [PairForm.integers, hgf, hif]
    · rw [PairForm.value, hgv, hiv]
      exact hv
  complete {c c' v} d hr hd _ hm := by
    simp only [PairForm.integers, List.mem_cons, List.not_mem_nil, or_false,
      forall_eq_or_imp, forall_eq] at hm
    unfold pair
    refine (Cursor.gives_expect.2 ⟨d.openParen.property, hr, rfl⟩ :
      Gives _ _ ⟨_, c.depth⟩).bind fun o _ ho => ?_
    refine (reads_integer.complete (e := ⟨_, c.depth⟩) d.group (by rw [ho]; rfl) (by rw [ho])
      trivial ⟨hm.1.1, rfl⟩).bind fun g hgv hg => ?_
    refine (Cursor.gives_expect.2 ⟨d.comma.property, by rw [hg], by rw [hg]⟩ :
      Gives _ _ ⟨_, c.depth⟩).bind fun m _ hmn => ?_
    refine (reads_integer.complete (e := ⟨_, c.depth⟩) d.cell (by rw [hmn]; rfl) (by rw [hmn])
      trivial ⟨hm.1.2, rfl⟩).bind fun i hiv hi => ?_
    refine (Cursor.gives_expect.2 ⟨d.closeParen.property, by rw [hi], by rw [hi]⟩ :
      Gives _ _ ⟨_, c.depth⟩).bind fun e _ he => ?_
    refine gives_ok.2 ⟨?_, he.trans ?_⟩
    · exact Eq.trans (by rw [hgv, hiv]; rfl) hm.2
    · exact Cursor.eq_of_rest rfl hd

/-! ## Lists -/

section

variable {α φ : Type} {k : Word}

theorem skipComma_sound (k : Word) (c : Cursor Word) :
    (∃ comma : Option (Terminal .comma),
      c.rest = (comma.map (·.val)).toList ++ (skipComma k c).rest) ∧
      c.depth = (skipComma k c).depth := by
  unfold skipComma
  split
  · rename_i t u ts hc
    split
    · rename_i hk
      exact ⟨⟨some ⟨t, hk.1⟩, by rw [hc]; rfl⟩, rfl⟩
    · exact ⟨⟨none, rfl⟩, rfl⟩
  · exact ⟨⟨none, rfl⟩, rfl⟩

theorem skipComma_of_item (hk : k ≠ .comma) {c : Cursor Word} (comma : Option (Terminal .comma))
    {t : Token Word} {ts : Tokens} (h : c.rest = (comma.map (·.val)).toList ++ t :: ts)
    (ht : t.kind = k) : skipComma k c = ⟨t :: ts, c.depth⟩ := by
  obtain ⟨rest, depth⟩ := c
  subst h
  cases comma with
  | none =>
    cases ts with
    | nil => rfl
    | cons u ts => exact if_neg fun h => hk (ht.symm.trans h.1)
  | some m => exact if_pos ⟨m.property, ht⟩

/-- Neither an item nor a comma is next. -/
def Ended (k : Word) : Tokens → Prop := Heads fun t => t.kind ≠ k ∧ t.kind ≠ .comma

theorem skipComma_of_ended {c : Cursor Word} (h : Ended k c.rest) : skipComma k c = c := by
  unfold skipComma
  split
  · rename_i t u ts hc
    exact if_neg fun hk => (h t (by rw [hc]; rfl)).2 hk.1
  · rfl

theorem kind?_ne_of_ended {c : Cursor Word} (h : Ended k c.rest) : c.kind? ≠ some k := by
  intro hk
  obtain ⟨t, ts, hc, ht⟩ := Cursor.exists_of_kind? hk
  exact (h t (by rw [hc]; rfl)).1 ht

variable {item : (c : Cursor Word) → Reading α c} {f : φ → Tokens} {ok : φ → Prop} {value : φ → α}
  (reads : Reads item f Anything fun d a => ok d ∧ value d = a)

include reads in
theorem itemsTail_sound {c c' : Cursor Word} {left : Parsed Word α c} {as : List α}
    (h : Gives (itemsTail k item left) as c') :
    ∃ tail, left.next.rest = ItemsForm.tailTokens f tail ++ c'.rest ∧
      left.next.depth = c'.depth ∧ (∀ e ∈ tail, ok e.2) ∧
      left.value :: tail.map (value ·.2) = as := by
  induction hl : left.next.rest.length using Nat.strongRecOn generalizing left as with
  | ind n ih =>
    rw [itemsTail] at h
    dsimp only at h
    split at h
    · obtain ⟨e, he, h⟩ := gives_bind.1 h
      obtain ⟨d, hr, hd, hok, hv⟩ := reads.sound he
      obtain ⟨bs, hbs, rfl⟩ := gives_map.1 h
      have hshort : e.next.rest.length < n :=
        hl ▸ Nat.lt_of_lt_of_le e.shorter (length_skipComma k left.next)
      obtain ⟨tail, hr', hd', hok', hv'⟩ := ih _ hshort hbs rfl
      obtain ⟨⟨comma, hcomma⟩, hdepth⟩ := skipComma_sound k left.next
      refine ⟨(comma, d) :: tail, ?_, hdepth.trans (hd.trans hd'), ?_, ?_⟩
      · rw [hcomma, hr, hr', ItemsForm.tailTokens]
        simp
      · exact List.forall_mem_cons.2 ⟨hok, hok'⟩
      · rw [← hv', List.map_cons, hv]
    · obtain ⟨hv, hn⟩ := gives_ok.1 h
      exact ⟨[], by rw [← hn]; rfl, by rw [← hn]; rfl, by simp, hv⟩

include reads in
theorem itemsTail_complete (hk : k ≠ .comma) (hf : ∀ d, ∃ t ts, f d = t :: ts ∧ t.kind = k)
    (tail : List (Option (Terminal .comma) × φ)) {c c' : Cursor Word} {left : Parsed Word α c}
    (hr : left.next.rest = ItemsForm.tailTokens f tail ++ c'.rest)
    (hd : left.next.depth = c'.depth) (hend : Ended k c'.rest) (hok : ∀ e ∈ tail, ok e.2) :
    Gives (itemsTail k item left) (left.value :: tail.map (value ·.2)) c' := by
  induction tail generalizing left with
  | nil =>
    have hrest : left.next.rest = c'.rest := hr
    have hnext : skipComma k left.next = left.next := skipComma_of_ended (hrest ▸ hend)
    rw [itemsTail]
    dsimp only
    rw [if_neg (hnext.symm ▸ kind?_ne_of_ended (hrest ▸ hend))]
    exact gives_ok.2 ⟨rfl, Cursor.eq_of_rest hrest hd⟩
  | cons e tail ih =>
    obtain ⟨comma, d⟩ := e
    obtain ⟨hokd, hok⟩ := List.forall_mem_cons.1 hok
    obtain ⟨t, ts, ht, hkind⟩ := hf d
    have hnext : skipComma k left.next =
        ⟨t :: (ts ++ (ItemsForm.tailTokens f tail ++ c'.rest)), left.next.depth⟩ := by
      refine skipComma_of_item hk comma ?_ hkind
      rw [hr, ItemsForm.tailTokens, ht]
      simp
    rw [itemsTail]
    dsimp only
    rw [if_pos (by rw [hnext]; exact congrArg some hkind)]
    refine (reads.complete (e := ⟨ItemsForm.tailTokens f tail ++ c'.rest, c'.depth⟩) d
      (by rw [hnext, ht]; rfl) (by rw [hnext]; exact hd) trivial ⟨hokd, rfl⟩).bind
      fun p hv hn => ?_
    refine gives_map.2 ⟨_, ih (by rw [hn]) (by rw [hn]) hok, ?_⟩
    rw [hv]
    rfl

include reads in
theorem reads_items (hk : k ≠ .comma) (hf : ∀ d, ∃ t ts, f d = t :: ts ∧ t.kind = k) :
    Reads (items k item) (ItemsForm.tokens f) (Ended k)
      (fun l as => (∀ d ∈ l.items, ok d) ∧ l.items.map value = as) where
  sound h := by
    obtain ⟨p, hp, h⟩ := gives_bind.1 h
    obtain ⟨d, hr, hd, hok, hv⟩ := reads.sound hp
    obtain ⟨tail, hr', hd', hok', hv'⟩ := itemsTail_sound reads h
    refine ⟨⟨d, tail⟩, ?_, hd.trans hd', ?_, ?_⟩
    · rw [hr, hr', ItemsForm.tokens, List.append_assoc]
    · simpa [ItemsForm.items] using ⟨hok, fun a x h => hok' (x, a) h⟩
    · rw [ItemsForm.items, List.map_cons, List.map_map, hv]
      exact hv'
  complete {c c' as} l hr hd hend hm := by
    obtain ⟨hok, rfl⟩ := hm
    rw [ItemsForm.items, List.forall_mem_cons] at hok
    refine (reads.complete (e := ⟨ItemsForm.tailTokens f l.tail ++ c'.rest, c'.depth⟩) l.head
      (by rw [hr, ItemsForm.tokens, List.append_assoc]) hd trivial ⟨hok.1, rfl⟩).bind
      fun p hv hn => ?_
    have hrest : p.next.rest = ItemsForm.tailTokens f l.tail ++ c'.rest := by rw [hn]
    have htail := itemsTail_complete reads hk hf l.tail hrest (by rw [hn]) hend fun e he =>
      hok.2 e.2 (List.mem_map_of_mem he)
    rw [hv] at htail
    rw [ItemsForm.items, List.map_cons, List.map_map]
    exact htail

end

theorem reads_integers :
    Reads (integers s) IntegersForm.tokens (Ended .integer)
      (fun l as => (∀ t ∈ l.integers, Fits t) ∧ l.values = as) := by
  refine (reads_items reads_integer (by decide) fun t => ⟨t.val, [], rfl, t.property⟩).of_iff
    fun l as => ?_
  simp [IntegersForm.integers, IntegersForm.values]

theorem reads_pairs :
    Reads (items .openParen (pair s)) (ItemsForm.tokens PairForm.tokens) (Ended .openParen)
      (fun l as => (∀ t ∈ l.items.flatMap PairForm.integers, Fits t) ∧
        l.items.map PairForm.value = as) := by
  refine (reads_items reads_pair (by decide) fun d => ⟨_, _, rfl, d.openParen.property⟩).of_iff
    fun l as => ?_
  simp only [List.mem_flatMap]
  refine and_congr_left' ⟨?_, ?_⟩
  · rintro h t ⟨d, hd, ht⟩
    exact h d hd t ht
  · exact fun h d hd t ht => h t ⟨d, hd, ht⟩

end Selection

end Subdomain
