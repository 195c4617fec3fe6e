import Subdomain.Proofs.Selection.Clauses
import Subdomain.Proofs.Selection.Lists

/-!
# Reading leaves

The readers of leaves read the forms of leaves whose integers fit and whose
predicates can be read. Behind a leaf there is a set operator, a closing
parenthesis or nothing, and none of these goes on with a list or a predicate.
-/

namespace Subdomain

namespace Selection

variable {s : Source}

/-- A set operator, a closing parenthesis or nothing is next. -/
def Ends : Tokens → Prop := Heads fun t => t.kind.isSign = true ∨ t.kind = .closeParen

theorem Ends.ended {ts : Tokens} (h : Ends ts) {k : Word} (hk : k = .integer ∨ k = .openParen) :
    Ended k ts := by
  refine h.mono fun t ht => ⟨fun e => ?_, fun e => ?_⟩
  · rcases hk with rfl | rfl <;> simp [e, Word.isSign] at ht
  · simp [e, Word.isSign] at ht

theorem Ends.unjoined {ts : Tokens} (h : Ends ts) : Unjoined ts := by
  refine h.mono fun t ht => if_neg ?_
  rintro (e | e | e | e)
  · simp [e, Word.isSign] at ht
  · simp [e, Word.isSign] at ht
  all_goals
    simp only [isWord, Bool.and_eq_true, decide_eq_true_eq] at e
    simp [e.1, Word.isSign] at ht

theorem ended_of_closeBracket {t : Token Word} (ht : t.kind = .closeBracket) {ts : Tokens} :
    Ended .integer (t :: ts) :=
  heads_cons (by simp [ht])

/-! ## Groups and sets -/

theorem exists_owner_head (d : OwnerForm) : ∃ t ts, d.tokens = t :: ts ∧
    (t.kind = .group ∨ t.kind = .set) := by
  cases d with
  | group w i => exact ⟨w.val, _, rfl, .inl w.property⟩
  | set w n => exact ⟨w.val, _, rfl, .inr w.property⟩

theorem reads_owner (ofGroup : Int → Leaf) (ofSet : String → Leaf) (cause : SyntaxCause) :
    Reads (owner s ofGroup ofSet cause) OwnerForm.tokens Anything
      (fun d l => (∀ t ∈ d.integers, Fits t) ∧ d.leaf ofGroup ofSet = l) where
  sound {c c' l} h := by
    unfold owner at h
    split at h
    · rename_i group hgroup
      obtain ⟨hgk, hgr, hgd⟩ := Cursor.of_eat? hgroup
      obtain ⟨n, hn, rfl⟩ := gives_skip_map.1 h
      obtain ⟨id, hr, hd, hfits, rfl⟩ := reads_signedInteger.sound hn
      exact ⟨.group ⟨_, hgk⟩ id, by rw [hgr, hr]; rfl, hgd.trans hd,
        by simpa [OwnerForm.integers] using hfits, rfl⟩
    · split at h
      · rename_i set hset
        obtain ⟨hsk, hsr, hsd⟩ := Cursor.of_eat? hset
        obtain ⟨n, hn, rfl⟩ := gives_skip_map.1 h
        obtain ⟨name, hr, hd, rfl⟩ := reads_name.sound hn
        exact ⟨.set ⟨_, hsk⟩ name, by rw [hsr, hr]; rfl, hsd.trans hd,
          by simp [OwnerForm.integers], rfl⟩
      · exact absurd h not_gives_error
  complete {c c' l} d hr hd _ hm := by
    obtain ⟨hfits, rfl⟩ := hm
    unfold owner
    cases d with
    | group w i =>
      simp only [OwnerForm.tokens, List.cons_append] at hr
      obtain ⟨p, hp, -, hpr, hpd⟩ := Cursor.exists_eat? hr w.property
      rw [hp]
      exact gives_skip_map.2 ⟨_, reads_signedInteger.complete i hpr (hpd.trans hd)
        trivial ⟨hfits _ (by simp [OwnerForm.integers]), rfl⟩, rfl⟩
    | set w n =>
      obtain ⟨p, hp, -, hpr, hpd⟩ := Cursor.exists_eat? hr w.property
      rw [Cursor.eat?_of_ne hr (by simp [w.property]), hp]
      exact gives_skip_map.2 ⟨_, reads_name.complete n hpr (hpd.trans hd)
        trivial rfl, rfl⟩

/-! ## Vertices -/

theorem reads_vertexSource {singular : Bool} :
    Reads (vertexSource s singular) (fun d : SourceForm singular => d.tokens) Ends
      (fun d l => (∀ t ∈ d.integers, Fits t) ∧ d.leaf? s.chars = some l) where
  sound {c c' l} h := by
    unfold vertexSource at h
    split at h
    · rename_i bracket hbracket
      obtain ⟨hbk, hbr, hbd⟩ := Cursor.of_eat? hbracket
      obtain ⟨list, hlist, h⟩ := gives_bind.1 h
      obtain ⟨d, hlr, hld, hfits, hlv⟩ := reads_integers.sound hlist
      obtain ⟨close, hclose, h⟩ := gives_bind.1 h
      obtain ⟨hck, hcr, hcd⟩ := Cursor.gives_expect.1 hclose
      obtain ⟨rfl, rfl⟩ := gives_ok.1 h
      refine ⟨.list ⟨_, hbk⟩ d ⟨_, hck⟩, ?_, hbd.trans (hld.trans hcd), hfits, ?_⟩
      · rw [hbr, hlr, hcr]
        simp [SourceForm.tokens]
      · rw [SourceForm.leaf?, hlv]
        rfl
    · split at h
      · rename_i hregion
        obtain ⟨rfl, -⟩ := hregion
        obtain ⟨n, hn, rfl⟩ := gives_map.1 h
        obtain ⟨r, hr, hd, rfl⟩ := (reads_reference _).sound hn
        exact ⟨.region r, hr, hd, by simp [SourceForm.integers], rfl⟩
      · split at h
        · obtain ⟨p, hp, rfl⟩ := gives_map.1 h
          obtain ⟨d, hr, hd, hv⟩ := reads_predicate.sound hp
          exact ⟨.predicate d, hr, hd, by simp [SourceForm.integers],
            congrArg (Option.map _) hv⟩
        · exact absurd h not_gives_error
  complete {c c' l} d hr hd hend hm := by
    obtain ⟨hfits, hleaf⟩ := hm
    unfold vertexSource
    cases d with
    | list o list e =>
      simp only [SourceForm.tokens, List.cons_append, List.append_assoc, List.nil_append] at hr
      obtain ⟨p, hp, -, hpr, hpd⟩ := Cursor.exists_eat? hr o.property
      rw [hp]
      refine (reads_integers.complete (e := ⟨e.val :: c'.rest, c'.depth⟩) list hpr
        (hpd.trans hd) (ended_of_closeBracket e.property) ⟨hfits, rfl⟩).bind fun u hu hun => ?_
      refine (Cursor.gives_expect.2 ⟨e.property, by rw [hun], by rw [hun]⟩).bind fun v _ hvn => ?_
      refine gives_ok.2 ⟨?_, hvn⟩
      show Leaf.verticesInList u.value = l
      rw [hu]
      exact Option.some.inj hleaf
    | predicate p =>
      obtain ⟨v, hv, rfl⟩ := Option.map_eq_some_iff.1 hleaf
      obtain ⟨t, ts, ht, hhead⟩ := exists_predicate_head p
      have hcr : c.rest = t :: (ts ++ c'.rest) := by
        rw [hr, SourceForm.tokens, ht]
        rfl
      -- A predicate begins with a negation or a parenthesis, which no other source does.
      have hbracket : t.kind ≠ .openBracket := by
        intro e
        simp [e, isWord] at hhead
      have hregion : ¬ (singular = true ∧ c.kind? = some .reference) := by
        rintro ⟨-, e⟩
        rw [Cursor.kind?_of_rest hcr, Option.some.injEq] at e
        simp [e, isWord] at hhead
      rw [Cursor.eat?_of_ne hcr hbracket]
      dsimp only
      rw [if_neg hregion, if_pos]
      · exact gives_map.2 ⟨v, reads_predicate.complete p hr hd hend.unjoined hv, rfl⟩
      · rw [Cursor.kind?_of_rest hcr, hcr]
        rcases hhead with h | h | h <;> simp [h]
    | region r =>
      rw [Cursor.eat?_of_ne hr (by simp [r.property])]
      dsimp only
      rw [if_pos ⟨rfl, by rw [Cursor.kind?_of_rest hr, r.property]⟩]
      exact gives_map.2 ⟨_, (reads_reference _).complete r hr hd trivial rfl,
        Option.some.inj hleaf⟩

/-- All integers fit, and the form stands for the leaf. -/
def VertexForm.Means (s : Source) {singular : Bool} (d : VertexForm singular) (l : Leaf) : Prop :=
  (∀ t ∈ d.integers, Fits t) ∧ d.leaf? s.chars = some l

/-- What stands behind `of` is the surface, a group or a set. -/
theorem vertexOwner_sound {c c' : Cursor Word} {word : Parsed Word (Token Word) c} {l : Leaf}
    (hword : c.eat? .ofWord = some word) (h : Gives (vertexOwner s word.next) l c')
    (singular : Bool) :
    ∃ d : VertexForm singular, c.rest = d.tokens ++ c'.rest ∧ c.depth = c'.depth ∧
      d.Means s l := by
  obtain ⟨hwk, hwr, hwd⟩ := Cursor.of_eat? hword
  unfold vertexOwner at h
  split at h
  · rename_i surface hsurface
    obtain ⟨hsk, hsr, hsd⟩ := Cursor.of_eat? hsurface
    obtain ⟨rfl, rfl⟩ := gives_ok.1 h
    exact ⟨.surface ⟨_, hwk⟩ ⟨_, hsk⟩, by rw [hwr, hsr]; rfl, hwd.trans hsd,
      by simp [VertexForm.integers], rfl⟩
  · obtain ⟨d, hr, hd, hfits, rfl⟩ := (reads_owner ..).sound h
    exact ⟨.owner ⟨_, hwk⟩ d, by rw [hwr, hr]; rfl, hwd.trans hd, hfits, rfl⟩

theorem reads_vertexLeaf {singular : Bool} :
    Reads (vertexLeaf s singular) (fun d : VertexForm singular => d.tokens) Ends
      (fun d l => d.Means s l) where
  sound {c c' l} h := by
    unfold vertexLeaf at h
    split at h
    · rename_i word hword
      obtain ⟨hwk, hwr, hwd⟩ := Cursor.of_eat? hword
      obtain ⟨d, hr, hd, hm⟩ := reads_vertexSource.sound (gives_skip.1 h)
      exact ⟨.source ⟨_, hwk⟩ d, by rw [hwr, hr]; rfl, hwd.trans hd, hm⟩
    · split at h
      · rename_i word hword
        exact vertexOwner_sound hword (gives_skip.1 h) singular
      · split at h
        · rename_i word hword
          obtain ⟨hwk, hwr, hwd⟩ := Cursor.of_eat? hword
          obtain ⟨n, hn, rfl⟩ := gives_skip_map.1 h
          obtain ⟨name, hr, hd, rfl⟩ := reads_name.sound hn
          exact ⟨.function ⟨_, hwk⟩ name, by rw [hwr, hr]; rfl, hwd.trans hd,
            by simp [VertexForm.integers], rfl⟩
        · split at h
          · obtain ⟨n, hn, rfl⟩ := gives_map.1 h
            obtain ⟨list, hr, hd, hfits, rfl⟩ := reads_integers.sound hn
            exact ⟨.list list, hr, hd, hfits, rfl⟩
          · exact absurd h not_gives_error
  complete {c c' l} d hr hd hend hm := by
    unfold vertexLeaf
    cases d with
    | source w d =>
      obtain ⟨p, hp, -, hpr, hpd⟩ := Cursor.exists_eat? hr w.property
      rw [hp]
      exact gives_skip.2 (reads_vertexSource.complete d hpr (hpd.trans hd) hend hm)
    | surface w t =>
      obtain ⟨p, hp, -, hpr, hpd⟩ := Cursor.exists_eat? hr w.property
      obtain ⟨q, hq, -, hqr, hqd⟩ := Cursor.exists_eat? hpr t.property
      rw [Cursor.eat?_of_ne hr (by simp [w.property]), hp]
      dsimp only
      rw [vertexOwner, hq]
      exact gives_skip.2 (gives_ok.2 ⟨Option.some.inj hm.2,
        Cursor.eq_of_rest hqr (hqd.trans (hpd.trans hd))⟩)
    | owner w d =>
      obtain ⟨p, hp, -, hpr, hpd⟩ := Cursor.exists_eat? hr w.property
      obtain ⟨t, ts, ht, hk⟩ := exists_owner_head d
      have hstart : p.next.rest = t :: (ts ++ c'.rest) := by
        rw [hpr, ht]
        rfl
      rw [Cursor.eat?_of_ne hr (by simp [w.property]), hp]
      dsimp only
      rw [vertexOwner, Cursor.eat?_of_ne hstart (by rcases hk with hk | hk <;> simp [hk])]
      exact gives_skip.2 ((reads_owner ..).complete d hpr (hpd.trans hd) trivial
        ⟨hm.1, Option.some.inj hm.2⟩)
    | function w n =>
      obtain ⟨p, hp, -, hpr, hpd⟩ := Cursor.exists_eat? hr w.property
      rw [Cursor.eat?_of_ne hr (by simp [w.property]), Cursor.eat?_of_ne hr (by simp [w.property]),
        hp]
      exact gives_skip_map.2 ⟨_, reads_name.complete n hpr (hpd.trans hd)
        trivial rfl, Option.some.inj hm.2⟩
    | list list =>
      have hkind : c.kind? = some .integer :=
        (Cursor.kind?_of_rest hr).trans (congrArg some list.head.property)
      rw [Cursor.eat?_eq_none_iff.2 (by simp [hkind]), Cursor.eat?_eq_none_iff.2 (by simp [hkind]),
        Cursor.eat?_eq_none_iff.2 (by simp [hkind])]
      dsimp only
      rw [if_pos hkind]
      exact gives_map.2 ⟨_, reads_integers.complete list hr hd (hend.ended (.inl rfl))
        ⟨hm.1, rfl⟩, Option.some.inj hm.2⟩

/-! ## Cells -/

theorem reads_cellLeaf :
    Reads (cellLeaf s) CellForm.tokens Ends
      (fun d l => (∀ t ∈ d.integers, Fits t) ∧ d.leaf = l) where
  sound {c c' l} h := by
    unfold cellLeaf at h
    split at h
    · rename_i word hword
      obtain ⟨hwk, hwr, hwd⟩ := Cursor.of_eat? hword
      obtain ⟨n, hn, rfl⟩ := gives_skip_map.1 h
      obtain ⟨name, hr, hd, rfl⟩ := reads_name.sound hn
      exact ⟨.function ⟨_, hwk⟩ name, by rw [hwr, hr]; rfl, hwd.trans hd,
        by simp [CellForm.integers], rfl⟩
    · split at h
      · rename_i word hword
        obtain ⟨hwk, hwr, hwd⟩ := Cursor.of_eat? hword
        obtain ⟨d, hr, hd, hfits, rfl⟩ := (reads_owner ..).sound (gives_skip.1 h)
        exact ⟨.owner ⟨_, hwk⟩ d, by rw [hwr, hr]; rfl, hwd.trans hd, hfits, rfl⟩
      · split at h
        · obtain ⟨n, hn, rfl⟩ := gives_map.1 h
          obtain ⟨list, hr, hd, hfits, rfl⟩ := reads_pairs.sound hn
          exact ⟨.pairs list, hr, hd, hfits, rfl⟩
        · split at h
          · obtain ⟨n, hn, rfl⟩ := gives_map.1 h
            obtain ⟨list, hr, hd, hfits, rfl⟩ := reads_integers.sound hn
            exact ⟨.list list, hr, hd, hfits, rfl⟩
          · exact absurd h not_gives_error
  complete {c c' l} d hr hd hend hm := by
    obtain ⟨hfits, rfl⟩ := hm
    unfold cellLeaf
    cases d with
    | owner w d =>
      obtain ⟨p, hp, -, hpr, hpd⟩ := Cursor.exists_eat? hr w.property
      rw [Cursor.eat?_of_ne hr (by simp [w.property]), hp]
      exact gives_skip.2 ((reads_owner ..).complete d hpr (hpd.trans hd) trivial
        ⟨hfits, rfl⟩)
    | function w n =>
      obtain ⟨p, hp, -, hpr, hpd⟩ := Cursor.exists_eat? hr w.property
      rw [hp]
      exact gives_skip_map.2 ⟨_, reads_name.complete n hpr (hpd.trans hd)
        trivial rfl, rfl⟩
    | pairs list =>
      have hkind : c.kind? = some .openParen :=
        (Cursor.kind?_of_rest hr).trans (congrArg some list.head.openParen.property)
      rw [Cursor.eat?_eq_none_iff.2 (by simp [hkind]), Cursor.eat?_eq_none_iff.2 (by simp [hkind])]
      dsimp only
      rw [if_pos hkind]
      exact gives_map.2 ⟨_, reads_pairs.complete list hr hd (hend.ended (.inr rfl)) ⟨hfits, rfl⟩,
        rfl⟩
    | list list =>
      have hkind : c.kind? = some .integer :=
        (Cursor.kind?_of_rest hr).trans (congrArg some list.head.property)
      rw [Cursor.eat?_eq_none_iff.2 (by simp [hkind]), Cursor.eat?_eq_none_iff.2 (by simp [hkind])]
      dsimp only
      rw [if_neg (by simp [hkind]), if_pos hkind]
      exact gives_map.2 ⟨_, reads_integers.complete list hr hd (hend.ended (.inl rfl))
        ⟨hfits, rfl⟩, rfl⟩

/-! ## Leaves -/

def LeafForm.Means (s : Source) (d : LeafForm) (l : Leaf) : Prop :=
  (∀ t ∈ d.integers, Fits t) ∧ d.leaf? s.chars = some l

theorem reads_leaf :
    Reads (leaf s) LeafForm.tokens Ends (fun d l => d.Means s l) where
  sound {c c' l} h := by
    unfold leaf at h
    split at h
    · exact absurd h not_gives_error
    · rename_i t ht
      obtain ⟨u, hr, hd, hu⟩ := Cursor.of_take? ht
      cases hu
      split at h
      · rename_i hk
        obtain ⟨rfl, rfl⟩ := gives_ok.1 h
        exact ⟨.all ⟨_, hk⟩, hr, hd, by simp [LeafForm.integers], rfl⟩
      · rename_i hk
        obtain ⟨rfl, rfl⟩ := gives_ok.1 h
        exact ⟨.region ⟨_, hk⟩, hr, hd, by simp [LeafForm.integers], rfl⟩
      · rename_i hk
        obtain ⟨n, hn, rfl⟩ := gives_skip_map.1 h
        obtain ⟨r, hr', hd', rfl⟩ := (reads_reference _).sound hn
        exact ⟨.copy ⟨_, hk⟩ r, by rw [hr, hr']; rfl, hd.trans hd', by
          simp [LeafForm.integers], rfl⟩
      · rename_i hk
        obtain ⟨d, hr', hd', hm⟩ := reads_vertexLeaf.sound (gives_skip.1 h)
        exact ⟨.vertex ⟨_, hk⟩ d, by rw [hr, hr']; rfl, hd.trans hd', hm⟩
      · rename_i hk
        obtain ⟨d, hr', hd', hm⟩ := reads_vertexLeaf.sound (gives_skip.1 h)
        exact ⟨.vertices ⟨_, hk⟩ d, by rw [hr, hr']; rfl, hd.trans hd', hm⟩
      · rename_i hk
        obtain ⟨d, hr', hd', hfits, rfl⟩ := reads_cellLeaf.sound (gives_skip.1 h)
        exact ⟨.cells ⟨_, .inl hk⟩ d, by rw [hr, hr']; rfl, hd.trans hd', hfits, rfl⟩
      · rename_i hk
        obtain ⟨d, hr', hd', hfits, rfl⟩ := reads_cellLeaf.sound (gives_skip.1 h)
        exact ⟨.cells ⟨_, .inr hk⟩ d, by rw [hr, hr']; rfl, hd.trans hd', hfits, rfl⟩
      · exact absurd h not_gives_error
  complete {c c' l} d hr hd hend hm := by
    unfold leaf
    cases d with
    | all w =>
      obtain ⟨p, hp, hpv, hpr, hpd⟩ := Cursor.exists_take? (f := some) hr rfl
      rw [hp]
      dsimp only
      rw [hpv, w.property]
      exact gives_ok.2 ⟨Option.some.inj hm.2, Cursor.eq_of_rest hpr (hpd.trans hd)⟩
    | region r =>
      obtain ⟨p, hp, hpv, hpr, hpd⟩ := Cursor.exists_take? (f := some) hr rfl
      rw [hp]
      dsimp only
      rw [hpv, r.property]
      refine gives_ok.2 ⟨?_, Cursor.eq_of_rest hpr (hpd.trans hd)⟩
      show Leaf.region (referenceName p.value) = l
      rw [hpv]
      exact Option.some.inj hm.2
    | copy w r =>
      obtain ⟨p, hp, hpv, hpr, hpd⟩ := Cursor.exists_take? (f := some) hr rfl
      rw [hp]
      dsimp only
      rw [hpv, w.property]
      exact gives_skip_map.2 ⟨_, (reads_reference _).complete r hpr (hpd.trans hd)
        trivial rfl, Option.some.inj hm.2⟩
    | vertex w d =>
      obtain ⟨p, hp, hpv, hpr, hpd⟩ := Cursor.exists_take? (f := some) hr rfl
      rw [hp]
      dsimp only
      rw [hpv, w.property]
      exact gives_skip.2 (reads_vertexLeaf.complete d hpr (hpd.trans hd) hend hm)
    | vertices w d =>
      obtain ⟨p, hp, hpv, hpr, hpd⟩ := Cursor.exists_take? (f := some) hr rfl
      rw [hp]
      dsimp only
      rw [hpv, w.property]
      exact gives_skip.2 (reads_vertexLeaf.complete d hpr (hpd.trans hd) hend hm)
    | cells w d =>
      obtain ⟨p, hp, hpv, hpr, hpd⟩ := Cursor.exists_take? (f := some) hr rfl
      have hcells : Gives (cellLeaf s p.next) l c' := reads_cellLeaf.complete d
        hpr (hpd.trans hd) hend ⟨hm.1, Option.some.inj hm.2⟩
      rw [hp]
      dsimp only
      rcases w.property with hw | hw <;> rw [hpv, hw] <;> exact gives_skip.2 hcells

end Selection

end Subdomain
