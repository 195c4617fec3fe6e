import Subdomain.Proofs.Selection.Pieces
import Subdomain.Proofs.Selection.Texts

/-!
# Written leaves

A leaf is sound if its names are names, its integers can be read, its lists have
items and its predicate is that of its own text. The leaves that are read are
sound (`LeafForm.sound`), and a sound leaf is read from its own text wherever that
stands (`Leaf.Sound.leafText`).
-/

namespace Subdomain

namespace Selection

open Lexical Pattern

/-! ## Sound leaves -/

/-- A keyword or an identifier. -/
def IsName (n : List Char) : Prop := ∃ k : Word, k.isName = true ∧ Takes rules n [] k

def IsReference (n : List Char) : Prop := Takes rules ("r.".toList ++ n) [] .reference

def Leaf.Sound : Leaf → Prop
  | all | surface => True
  | region n | copy n | vertexOfRegion n => IsReference n.toList
  | verticesBy n | cellsBy n | cellsOfSet n | verticesOfSet n => IsName n.toList
  | verticesIn p => IsPredicate p.text ∧ Predicate.parse p.text = .ok p
  | verticesInList l | vertices l | cells l => l ≠ [] ∧ ∀ i ∈ l, IsIndex i
  | cellsOfGroup i | verticesOfGroup i => IsIndex i ∨ IsIndex (-i)
  | groupCells ps => ps ≠ [] ∧ ∀ p ∈ ps, IsIndex p.1 ∧ IsIndex p.2

/-- What the tokens, integers and predicates of a form fulfil that is read from the text. -/
structure Parts (text : List Char) (tokens integers : Tokens) (predicates : List PredicateForm) :
    Prop where
  takes : ∀ t ∈ tokens, Takes rules t.chars [] t.kind
  fits : ∀ t ∈ integers, Fits t
  predicates : ∀ q ∈ predicates, IsPredicate (q.slice text)

section

variable {text : List Char} {ts us is js : Tokens} {ps qs : List PredicateForm}

theorem Parts.mono (h : Parts text ts is ps) (ht : us ⊆ ts) (hi : js ⊆ is) (hp : qs ⊆ ps) :
    Parts text us js qs where
  takes t hmem := h.takes t (ht hmem)
  fits t hmem := h.fits t (hi hmem)
  predicates q hmem := h.predicates q (hp hmem)

theorem Parts.tail {t : Token Word} (h : Parts text (t :: ts) is ps) : Parts text ts is ps :=
  h.mono (List.subset_cons_self t ts) (List.Subset.refl is) (List.Subset.refl ps)

/-! ## Leaves that are read -/

theorem NameForm.isName (n : NameForm) (h : Takes rules n.val.chars [] n.val.kind) :
    IsName n.val.text.toList := by
  rw [Token.text, String.toList_ofList]
  exact ⟨_, n.property, h⟩

theorem isReference_of_takes {t : Token Word} (h : Takes rules t.chars [] .reference) :
    IsReference (referenceName t).toList := by
  obtain ⟨p, hp, hm⟩ := h.first.exists_mem
  obtain rfl : p = referencePattern := by simpa [rules, referencePattern] using hp
  obtain ⟨a, b, hchars, ha, -⟩ := matches_seq_iff.1 hm
  cases matches_word_iff.1 ha
  have hname : (referenceName t).toList = b := by
    rw [referenceName, String.toList_ofList, hchars]
    rfl
  rwa [IsReference, hname, ← hchars]

theorem Terminal.isReference (t : Terminal .reference)
    (h : Takes rules t.val.chars [] t.val.kind) : IsReference (referenceName t.val).toList := by
  rw [t.property] at h
  exact isReference_of_takes h

theorem IntegersForm.sound (l : IntegersForm) (h : ∀ t ∈ l.integers, Fits t) :
    l.values ≠ [] ∧ ∀ i ∈ l.values, IsIndex i := by
  refine ⟨by simp [values, ItemsForm.items], fun i hi => ?_⟩
  obtain ⟨t, ht, rfl⟩ := List.mem_map.1 hi
  exact isIndex_of_fits (h t.val (List.mem_map_of_mem ht))

theorem SignedForm.sound (d : SignedForm) (h : Fits d.digits.val) :
    IsIndex d.value ∨ IsIndex (-d.value) := by
  have hindex := isIndex_of_fits h
  rw [value]
  split
  · exact .inr (by rwa [Int.neg_neg])
  · exact .inl hindex

theorem trim_of_solid {u : List Char} (h : Solid u) : Predicate.trim u = u := by
  have hdrop : ∀ v : List Char, (∀ c, v.head? = some c → isBlank c = false) →
      v.dropWhile isBlank = v := fun v hv => by
    cases v with
    | nil => rfl
    | cons c v => rw [List.dropWhile_cons, hv c rfl, if_neg Bool.false_ne_true]
  rw [Predicate.trim, hdrop u h.head, hdrop, List.reverse_reverse]
  exact fun c hc => h.last c (by rwa [List.head?_reverse] at hc)

theorem PredicateForm.sound (q : PredicateForm) (hq : IsPredicate (q.slice text)) {p : Predicate}
    (h : q.predicate? text = some p) : IsPredicate p.text ∧ Predicate.parse p.text = .ok p := by
  unfold predicate? at h
  cases hp : Predicate.parse (q.slice text) with
  | error e =>
    rw [hp] at h
    cases h
  | ok p' =>
    rw [hp] at h
    cases h
    obtain ⟨ts, -, -, htext⟩ := Predicate.of_parse hp
    rw [trim_of_solid hq.solid] at htext
    rw [htext]
    exact ⟨hq, hp⟩

theorem OwnerForm.sound (d : OwnerForm) (h : Parts text d.tokens d.integers [])
    {ofGroup : Int → Leaf} {ofSet : String → Leaf}
    (hgroup : ∀ i, IsIndex i ∨ IsIndex (-i) → (ofGroup i).Sound)
    (hset : ∀ n, IsName n.toList → (ofSet n).Sound) : (d.leaf ofGroup ofSet).Sound := by
  cases d with
  | group w i => exact hgroup _ (i.sound (h.fits _ (.head _)))
  | set w n => exact hset _ (n.isName (h.takes _ (by simp [tokens])))

theorem SourceForm.sound {singular : Bool} (d : SourceForm singular)
    (h : Parts text d.tokens d.integers d.predicates) {l : Leaf} (hl : d.leaf? text = some l) :
    l.Sound := by
  cases d with
  | list o is c =>
    cases hl
    exact is.sound h.fits
  | predicate q =>
    obtain ⟨p, hp, rfl⟩ := Option.map_eq_some_iff.1 hl
    exact q.sound (h.predicates q (.head _)) hp
  | region r =>
    cases hl
    exact r.isReference (h.takes _ (.head _))

theorem VertexForm.sound {singular : Bool} (d : VertexForm singular)
    (h : Parts text d.tokens d.integers d.predicates) {l : Leaf} (hl : d.leaf? text = some l) :
    l.Sound := by
  cases d with
  | source w d => exact d.sound h.tail hl
  | surface =>
    cases hl
    trivial
  | owner w d =>
    cases hl
    exact d.sound h.tail (fun _ => id) fun _ => id
  | function w n =>
    cases hl
    exact n.isName (h.takes _ (by simp [tokens]))
  | list is =>
    cases hl
    exact is.sound h.fits

theorem CellForm.sound (d : CellForm) (h : Parts text d.tokens d.integers []) : d.leaf.Sound := by
  cases d with
  | owner w d => exact d.sound h.tail (fun _ => id) fun _ => id
  | function w n => exact n.isName (h.takes _ (by simp [tokens]))
  | pairs l =>
    refine ⟨by simp [ItemsForm.items], fun p hp => ?_⟩
    obtain ⟨d, hd, rfl⟩ := List.mem_map.1 hp
    have hfits := fun t ht => h.fits t (List.mem_flatMap.2 ⟨d, hd, ht⟩)
    exact ⟨isIndex_of_fits (hfits _ (.head _)), isIndex_of_fits (hfits _ (.tail _ (.head _)))⟩
  | list is => exact is.sound h.fits

/-- A leaf that is read is sound. -/
theorem LeafForm.sound (d : LeafForm) (h : Parts text d.tokens d.integers d.predicates) {l : Leaf}
    (hl : d.leaf? text = some l) : l.Sound := by
  cases d with
  | all =>
    cases hl
    trivial
  | region r =>
    cases hl
    exact r.isReference (h.takes _ (.head _))
  | copy w r =>
    cases hl
    exact r.isReference (h.takes _ (by simp [tokens]))
  | vertex w d | vertices w d => exact d.sound h.tail hl
  | cells w d =>
    cases hl
    exact d.sound h.tail

end

/-! ## Texts of words -/

section

variable {φ ψ : Type} {f : φ → Tokens} {P : φ → Prop} {w u : List Char} {k : Word}

theorem spelled_terminal (hw : Takes rules w [] k) :
    Spelled (fun t : Terminal k => [t.val]) (fun t => t.val.chars = w) w := fun n =>
  ⟨⟨⟨k, w, n⟩, rfl⟩, scans_takes hw, rfl⟩

/-- A word in front of a form makes a form of what takes it there. -/
theorem Spelled.word (h : Spelled f P u) (hw : Takes rules w [] k) {g : ψ → Tokens} {Q : ψ → Prop}
    (form : Terminal k → φ → ψ) (htokens : ∀ t d, g (form t d) = t.val :: f d)
    (hQ : ∀ t d, P d → Q (form t d)) : Spelled g Q (w ++ ' ' :: u) := fun n => by
  obtain ⟨d, hd, hP⟩ := h (n + byteLength (w ++ [' ']))
  exact ⟨form ⟨⟨k, w, n⟩, rfl⟩ d, htokens _ d ▸ scans_word hw hd, hQ _ d hP⟩

theorem spelled_name {n : String} (h : IsName n.toList) :
    Spelled (fun t : NameForm => [t.val]) (fun t => t.val.text = n) n.toList := fun m => by
  obtain ⟨k, hk, hn⟩ := h
  exact ⟨⟨⟨k, n.toList, m⟩, hk⟩, scans_takes hn, String.ofList_toList⟩

theorem spelled_reference {n : String} (h : IsReference n.toList) :
    Spelled (fun t : Terminal .reference => [t.val]) (fun t => referenceName t.val = n)
      ("r.".toList ++ n.toList) :=
  (spelled_terminal h).mono fun t ht => by
    rw [referenceName, ht]
    exact String.ofList_toList

end

theorem takes_inWord : Takes rules "in".toList [] .inWord := takes_of_best_eq (by decide) rfl

theorem takes_ofWord : Takes rules "of".toList [] .ofWord := takes_of_best_eq (by decide) rfl

theorem takes_byWord : Takes rules "by".toList [] .byWord := takes_of_best_eq (by decide) rfl

/-! ## Parts of leaves -/

theorem spelled_group {i : Int} (h : IsIndex i ∨ IsIndex (-i)) :
    Spelled OwnerForm.tokens
      (fun d => (∀ t ∈ d.integers, Fits t) ∧ ∀ ofGroup ofSet, d.leaf ofGroup ofSet = ofGroup i)
      ("group ".toList ++ Decimal.charsOfInt i) :=
  (spelled_signed h).word (w := "group".toList) (takes_of_best_eq (by decide) rfl) .group
    (fun _ _ => rfl) fun t d h => ⟨by simpa [OwnerForm.integers] using h.1,
      fun ofGroup _ => congrArg ofGroup h.2⟩

theorem spelled_set {n : String} (h : IsName n.toList) :
    Spelled OwnerForm.tokens
      (fun d => (∀ t ∈ d.integers, Fits t) ∧ ∀ ofGroup ofSet, d.leaf ofGroup ofSet = ofSet n)
      ("set ".toList ++ n.toList) :=
  (spelled_name h).word (w := "set".toList) (takes_of_best_eq (by decide) rfl) .set
    (fun _ _ => rfl) fun _ _ h => ⟨nofun, fun _ ofSet => congrArg ofSet h⟩

/-- The form stands for the leaf in every text. -/
def SourceForm.Denotes {singular : Bool} (l : Leaf) (d : SourceForm singular) : Prop :=
  (∀ t ∈ d.integers, Fits t) ∧ ∀ text, d.leaf? text = some l

def VertexForm.Denotes {singular : Bool} (l : Leaf) (d : VertexForm singular) : Prop :=
  (∀ t ∈ d.integers, Fits t) ∧ ∀ text, d.leaf? text = some l

def CellForm.Denotes (l : Leaf) (d : CellForm) : Prop :=
  (∀ t ∈ d.integers, Fits t) ∧ d.leaf = l

def LeafForm.Denotes (l : Leaf) (d : LeafForm) : Prop :=
  (∀ t ∈ d.integers, Fits t) ∧ ∀ text, d.leaf? text = some l

theorem spelled_brackets {singular : Bool} {l : List Int} (hne : l ≠ [])
    (hl : ∀ i ∈ l, IsIndex i) :
    Spelled SourceForm.tokens (fun d : SourceForm singular => d.Denotes (.verticesInList l))
      ('[' :: (Leaf.listChars l ++ [']'])) := fun n => by
  obtain ⟨is, his, hfits, rfl⟩ := spelled_integers hne hl (n + 1)
  let m := n + 1 + byteLength (Leaf.listChars is.values)
  refine ⟨.list ⟨⟨.openBracket, ['['], n⟩, rfl⟩ is ⟨⟨.closeBracket, [']'], m⟩, rfl⟩, ?_, hfits,
    fun _ => rfl⟩
  refine .alone (alone_of_all (by decide +kernel)) (by decide)
    (takes_of_best_eq (by decide) rfl).first (his.append (alone_of_all (by decide +kernel)) ?_)
  exact scans_takes (takes_of_best_eq (by decide) rfl)

/-! ## Texts of leaves -/

theorem Spelled.leafText {u : List Char} {l : Leaf}
    (h : Spelled LeafForm.tokens (LeafForm.Denotes l) u) : LeafText u (some l) :=
  fun before after => by
    obtain ⟨d, hd, hfits, hl⟩ := h (byteLength before)
    exact ⟨d, hd, hfits, hl _⟩

theorem Spelled.vertices {u : List Char} {l : Leaf}
    (h : Spelled VertexForm.tokens (fun d : VertexForm false => d.Denotes l) u) :
    LeafText ("vertices ".toList ++ u) (some l) :=
  (h.word (w := "vertices".toList) (takes_of_best_eq (by decide) rfl)
    LeafForm.vertices (fun _ _ => rfl) fun _ _ => id).leafText

theorem Spelled.vertex {u : List Char} {l : Leaf}
    (h : Spelled VertexForm.tokens (fun d : VertexForm true => d.Denotes l) u) :
    LeafText ("vertex ".toList ++ u) (some l) :=
  (h.word (w := "vertex".toList) (takes_of_best_eq (by decide) rfl)
    LeafForm.vertex (fun _ _ => rfl) fun _ _ => id).leafText

theorem Spelled.cells {u : List Char} {l : Leaf}
    (h : Spelled CellForm.tokens (CellForm.Denotes l) u) :
    LeafText ("cells ".toList ++ u) (some l) :=
  (h.word (w := "cells".toList) (k := .cells) (takes_of_best_eq (by decide) rfl)
    (fun t d => LeafForm.cells ⟨t.val, .inr t.property⟩ d) (fun _ _ => rfl)
    fun _ _ hd => ⟨hd.1, fun _ => congrArg some hd.2⟩).leafText

/-- A sound leaf is read from its own text. -/
theorem Leaf.Sound.leafText {l : Leaf} (h : l.Sound) : LeafText l.chars (some l) := by
  cases l with
  | all =>
    exact Spelled.leafText fun n => ⟨.all ⟨⟨.all, "all".toList, n⟩, rfl⟩,
      scans_takes (takes_of_best_eq (by decide) rfl), nofun, fun _ => rfl⟩
  | region n =>
    refine Spelled.leafText ((spelled_reference h).map LeafForm.region (fun _ => rfl) ?_)
    exact fun r hr => ⟨nofun, fun _ => congrArg (some ∘ Leaf.region) hr⟩
  | copy n =>
    refine ((spelled_reference h).word (w := "copy".toList) (takes_of_best_eq (by decide) rfl)
      LeafForm.copy (fun _ _ => rfl) ?_).leafText
    exact fun _ r hr => ⟨nofun, fun _ => congrArg (some ∘ Leaf.copy) hr⟩
  | surface =>
    refine Spelled.vertices ((spelled_terminal (w := "surface".toList) (k := .surface)
      (takes_of_best_eq (by decide) rfl)).word takes_ofWord VertexForm.surface (fun _ _ => rfl) ?_)
    exact fun _ _ _ => ⟨nofun, fun _ => rfl⟩
  | verticesIn p =>
    have htext := leafText_verticesIn h.1
    rwa [h.2] at htext
  | verticesInList l =>
    refine Spelled.vertices ((spelled_brackets h.1 h.2).word takes_inWord VertexForm.source
      (fun _ _ => rfl) ?_)
    exact fun _ d => id
  | verticesBy n =>
    refine Spelled.vertices ((spelled_name h).word takes_byWord VertexForm.function
      (fun _ _ => rfl) ?_)
    exact fun _ d hd => ⟨nofun, fun _ => congrArg (some ∘ Leaf.verticesBy) hd⟩
  | cellsBy n =>
    refine Spelled.cells ((spelled_name h).word takes_byWord CellForm.function
      (fun _ _ => rfl) ?_)
    exact fun _ d hd => ⟨nofun, congrArg Leaf.cellsBy hd⟩
  | cellsOfGroup i =>
    refine Spelled.cells ((spelled_group h).word takes_ofWord CellForm.owner
      (fun _ _ => rfl) ?_)
    exact fun _ d hd => ⟨hd.1, hd.2 _ _⟩
  | cellsOfSet n =>
    refine Spelled.cells ((spelled_set h).word takes_ofWord CellForm.owner
      (fun _ _ => rfl) ?_)
    exact fun _ d hd => ⟨hd.1, hd.2 _ _⟩
  | verticesOfGroup i =>
    refine Spelled.vertices ((spelled_group h).word takes_ofWord VertexForm.owner
      (fun _ _ => rfl) ?_)
    exact fun _ d hd => ⟨hd.1, fun _ => congrArg some (hd.2 _ _)⟩
  | verticesOfSet n =>
    refine Spelled.vertices ((spelled_set h).word takes_ofWord VertexForm.owner
      (fun _ _ => rfl) ?_)
    exact fun _ d hd => ⟨hd.1, fun _ => congrArg some (hd.2 _ _)⟩
  | vertexOfRegion n =>
    have hsource : Spelled SourceForm.tokens (SourceForm.Denotes (vertexOfRegion n)) _ :=
      (spelled_reference h).map SourceForm.region (fun _ => rfl) fun r hr =>
        ⟨nofun, fun _ => congrArg (some ∘ Leaf.vertexOfRegion) hr⟩
    exact Spelled.vertex (hsource.word takes_inWord VertexForm.source (fun _ _ => rfl)
      fun _ _ => id)
  | vertices l =>
    refine Spelled.vertices ((spelled_integers h.1 h.2).map VertexForm.list (fun _ => rfl) ?_)
    exact fun is his => ⟨his.1, fun _ => congrArg (some ∘ Leaf.vertices) his.2⟩
  | cells l =>
    refine Spelled.cells ((spelled_integers h.1 h.2).map CellForm.list (fun _ => rfl) ?_)
    exact fun is his => ⟨his.1, congrArg Leaf.cells his.2⟩
  | groupCells ps =>
    refine Spelled.cells ((spelled_pairs h.1 h.2).map CellForm.pairs (fun _ => rfl) ?_)
    exact fun is his => ⟨his.1, congrArg Leaf.groupCells his.2⟩

end Selection

end Subdomain
