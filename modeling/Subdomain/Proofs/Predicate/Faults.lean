import Subdomain.Proofs.Lexical.Faults
import Subdomain.Proofs.Predicate.Shape

/-!
# Faults of predicates

A reader of predicates finds its faults at the tokens that it has not read, or
behind them. Behind the tokens there is no fault if they end with a closing
parenthesis and close all parentheses that they open: what ends an expression too
early is never a closing parenthesis, unless one more is missing (`chain_stays`
and the theorems around it).
-/

namespace Subdomain

namespace Predicate

open Lexical

/-- Tokens that end with a closing parenthesis, if there are any, and close the `n` parentheses that
are open in front. -/
structure Sealed (n : Nat) (ts : Tokens) : Prop where
  rise : tokenRise .openParen .closeParen n ts = some 0
  last : ∀ t, ts.getLast? = some t → t.kind = .closeParen

namespace Sealed

variable {n : Nat} {t : Token Word} {ts : Tokens}

theorem last_of_cons (h : Sealed n (t :: ts)) : ∀ u, ts.getLast? = some u → u.kind = .closeParen :=
  fun u hu => h.last u (by rw [List.getLast?_cons, hu]; rfl)

theorem ne_nil_of_cons (h : Sealed n (t :: ts)) (hc : t.kind ≠ .closeParen) : ts ≠ [] := by
  rintro rfl
  exact hc (h.last t rfl)

theorem other (h : Sealed n (t :: ts)) (ho : t.kind ≠ .openParen) (hc : t.kind ≠ .closeParen) :
    Sealed n ts :=
  ⟨by rw [← h.rise, tokenRise_other ho hc], h.last_of_cons⟩

theorem opened (h : Sealed n (t :: ts)) (ho : t.kind = .openParen) : Sealed (n + 1) ts :=
  ⟨by rw [← h.rise, tokenRise_open ho], h.last_of_cons⟩

theorem closed (h : Sealed (n + 1) (t :: ts)) (hc : t.kind = .closeParen) : Sealed n ts :=
  ⟨by rw [← h.rise, tokenRise_close (by simp [hc]) hc], h.last_of_cons⟩

theorem ne_nil (h : Sealed (n + 1) ts) : ts ≠ [] := by
  rintro rfl
  cases h.rise

end Sealed

section

variable {all : Tokens} {S : Prop} {P : Fault → Prop} {n : Nat}

/-- The tokens `ts` of `all` are left with `h` parentheses open. They are sealed if `S`. -/
structure Left (all : Tokens) (S : Prop) (h : Nat) (ts : Tokens) : Prop where
  suffix : ts <:+ all
  isSealed : S → Sealed h ts

/-- There are more tokens to come, if `S`. -/
structure Ready (all : Tokens) (S : Prop) (h : Nat) (ts : Tokens) : Prop extends
    Left all S h ts where
  ne_nil : S → ts ≠ []

theorem Left.other {h : Nat} {t : Token Word} {ts : Tokens} (hl : Left all S h (t :: ts))
    (ho : t.kind ≠ .openParen) (hc : t.kind ≠ .closeParen) : Ready all S h ts where
  suffix := (List.suffix_cons t ts).trans hl.suffix
  isSealed hs := (hl.isSealed hs).other ho hc
  ne_nil hs := (hl.isSealed hs).ne_nil_of_cons hc

theorem Left.opened {h : Nat} {t : Token Word} {ts : Tokens} (hl : Left all S h (t :: ts))
    (ho : t.kind = .openParen) : Ready all S (h + 1) ts where
  suffix := (List.suffix_cons t ts).trans hl.suffix
  isSealed hs := (hl.isSealed hs).opened ho
  ne_nil hs := ((hl.isSealed hs).opened ho).ne_nil

theorem Left.closed {h : Nat} {t : Token Word} {ts : Tokens} (hl : Left all S (h + 1) (t :: ts))
    (hc : t.kind = .closeParen) : Left all S h ts where
  suffix := (List.suffix_cons t ts).trans hl.suffix
  isSealed hs := (hl.isSealed hs).closed hc

theorem Left.ready {h : Nat} {ts : Tokens} (hl : Left all S (h + 1) ts) :
    Ready all S (h + 1) ts where
  toLeft := hl
  ne_nil hs := (hl.isSealed hs).ne_nil

/-- An operator is left behind, which closes nothing. -/
theorem Left.operator {h : Nat} {t : Token Word} {ts : Tokens} (hl : Left all S h (t :: ts))
    (hr : 0 < t.kind.rank) : Ready all S h ts := by
  refine hl.other (fun hk => ?_) fun hk => ?_
  all_goals simp [hk, Word.rank] at hr

theorem Left.literal {h : Nat} {t : Token Word} {ts : Tokens} {e : Expr}
    (hl : Left all S h (t :: ts)) (ht : leaf? t = some e) : Ready all S h ts := by
  refine hl.other ?_ ?_
  all_goals rcases kind_of_leaf? ht with hk | hk | hk | hk <;> simp [hk]

theorem rank_of_sign? {t : Token Word} {f : Expr → Expr} (h : sign? t = some f) :
    0 < t.kind.rank := by
  unfold sign? at h
  split at h
  · simp [*, Word.rank]
  · simp [*, Word.rank]
  · cases h

/-! ## Readers -/

/-- The faults at the tokens that are left, and with no tokens left the one behind them. -/
def Reports (all : Tokens) (S : Prop) (n : Nat) (P : Fault → Prop) : Prop :=
  ∀ (h : Nat) (c : Cursor Word) cause, Ready all S h c.rest → P (c.fault n cause)

theorem stays_descend (hP : Reports all S n P) {α : Type} {c : Cursor Word} {h : Nat}
    {p : Parsed Word α c} (hp : Ready all S h p.next.rest) :
    Stays (fun d => Ready all S h d.rest) P (descend n p) := by
  unfold descend
  dsimp only
  split
  · exact stays_error (hP h _ _ hp)
  · exact stays_ok hp

theorem stays_expect (hP : Reports all S n P) {c : Cursor Word} {h : Nat} {cause : SyntaxCause}
    (hc : Ready all S (h + 1) c.rest) :
    Stays (fun d => Left all S h d.rest) P (c.expect n .closeParen cause) := by
  unfold Cursor.expect
  split
  · rename_i p hp
    obtain ⟨hk, hr, -⟩ := Cursor.of_eat? hp
    exact stays_ok ((hr ▸ hc.toLeft).closed hk)
  · exact stays_error (hP _ _ _ hc)

mutual

theorem chain_stays (hP : Reports all S n P) {k : Chain} {c : Cursor Word} {h : Nat}
    (hc : Ready all S h c.rest) :
    Stays (fun d => Left all S h d.rest) P (chain n k c) := by
  rw [chain]
  refine (operand_stays hP hc).bind fun left hl => ?_
  have := left.shorter
  exact chainTail_stays hP hl
termination_by 16 * c.rest.length + k.rank + 1

theorem chainTail_stays (hP : Reports all S n P) {k : Chain} {c : Cursor Word}
    {left : Parsed Word Expr c} {i h : Nat} (hl : Left all S h left.next.rest) :
    Stays (fun d => Left all S h d.rest) P (chainTail n k left i) := by
  rw [chainTail]
  split
  · exact stays_ok hl
  · rename_i op hop
    obtain ⟨t, hr, -, ht⟩ := Cursor.of_take? hop
    have hready := (hr ▸ hl).operator (by rw [rank_of_node? ht]; cases k <;> decide)
    refine (stays_descend hP hready).bind fun op' hop' => ?_
    have := op'.shorter
    have := k.rank_le
    refine (operand_stays hP hop').bind fun right hright => ?_
    have := right.shorter
    exact chainTail_stays hP hright
termination_by 16 * left.next.rest.length + 13

theorem operand_stays (hP : Reports all S n P) {k : Chain} {c : Cursor Word} {h : Nat}
    (hc : Ready all S h c.rest) :
    Stays (fun d => Left all S h d.rest) P (operand n k c) := by
  cases k with
  | disjunction =>
    rw [operand]
    exact chain_stays hP hc
  | conjunction =>
    rw [operand]
    exact negation_stays hP hc
  | sum =>
    rw [operand]
    exact chain_stays hP hc
  | product =>
    rw [operand]
    exact unary_stays hP hc
termination_by 16 * c.rest.length + k.rank

theorem negation_stays (hP : Reports all S n P) {c : Cursor Word} {h : Nat}
    (hc : Ready all S h c.rest) :
    Stays (fun d => Left all S h d.rest) P (negation n c) := by
  rw [negation]
  split
  · exact comparison_stays hP hc
  · rename_i op hop
    obtain ⟨hk, hr, -⟩ := Cursor.of_eat? hop
    have hready := (hr ▸ hc.toLeft).other (by simp [hk]) (by simp [hk])
    refine (stays_descend hP hready).bind fun op' hop' => ?_
    have := op'.shorter
    exact (negation_stays hP hop').bind fun e he => stays_ok he
termination_by 16 * c.rest.length + 10

theorem comparison_stays (hP : Reports all S n P) {c : Cursor Word} {h : Nat}
    (hc : Ready all S h c.rest) :
    Stays (fun d => Left all S h d.rest) P (comparison n c) := by
  rw [comparison]
  refine (chain_stays hP hc).bind fun first hfirst => ?_
  have := first.shorter
  refine (links_stays hP hfirst).bind fun ls hls => ?_
  split
  · exact stays_ok hfirst
  · exact stays_ok hls
termination_by 16 * c.rest.length + 9

theorem links_stays (hP : Reports all S n P) {α : Type} {c : Cursor Word} {p : Parsed Word α c}
    {h : Nat}
    (hl : Left all S h p.next.rest) :
    Stays (fun d => Left all S h d.rest) P (links n p) := by
  rw [links]
  split
  · exact stays_ok hl
  · rename_i op hop
    obtain ⟨t, hr, -, ht⟩ := Cursor.of_take? hop
    have := op.shorter
    refine (chain_stays hP ((hr ▸ hl).operator (by simp [rank_of_comparison? ht]))).bind
      fun e he => ?_
    have := e.shorter
    exact (links_stays hP (p := p.skipTo (op.skipTo e)) he).bind fun rest hrest =>
      stays_ok (p := rest.map (Links.cons op.value e.value)) hrest
termination_by 16 * p.next.rest.length + 8

theorem unary_stays (hP : Reports all S n P) {c : Cursor Word} {h : Nat}
    (hc : Ready all S h c.rest) :
    Stays (fun d => Left all S h d.rest) P (unary n c) := by
  rw [unary]
  split
  · exact power_stays hP hc
  · rename_i sign hsign
    obtain ⟨t, hr, -, ht⟩ := Cursor.of_take? hsign
    have hready := (hr ▸ hc.toLeft).operator (rank_of_sign? ht)
    refine (stays_descend hP hready).bind fun sign' hsign' => ?_
    have := sign'.shorter
    exact (unary_stays hP hsign').bind fun e he => stays_ok he
termination_by 16 * c.rest.length + 4

theorem power_stays (hP : Reports all S n P) {c : Cursor Word} {h : Nat}
    (hc : Ready all S h c.rest) :
    Stays (fun d => Left all S h d.rest) P (power n c) := by
  rw [power]
  refine (atom_stays hP hc).bind fun base hbase => ?_
  have := base.shorter
  split
  · exact stays_ok hbase
  · rename_i op hop
    obtain ⟨hk, hr, -⟩ := Cursor.of_eat? hop
    have hready := (hr ▸ hbase).operator (by simp [hk, Word.rank])
    refine (stays_descend hP hready).bind fun op' hop' => ?_
    have := op'.shorter
    exact (unary_stays hP hop').bind fun e he => stays_ok he
termination_by 16 * c.rest.length + 3

theorem atom_stays (hP : Reports all S n P) {c : Cursor Word} {h : Nat}
    (hc : Ready all S h c.rest) :
    Stays (fun d => Left all S h d.rest) P (atom n c) := by
  rw [atom]
  split
  · rename_i p hp
    obtain ⟨t, hr, -, ht⟩ := Cursor.of_take? hp
    exact stays_ok ((hr ▸ hc.toLeft).literal (leaf?_of_literal? ht)).toLeft
  · split
    · rename_i paren hparen
      obtain ⟨hk, hr, -⟩ := Cursor.of_eat? hparen
      exact group_stays hP ((hr ▸ hc.toLeft).opened hk)
    · split
      · exact name_stays hP hc ‹_›
      · exact stays_error (hP _ _ _ hc)
termination_by 16 * c.rest.length + 2

theorem name_stays (hP : Reports all S n P) {c : Cursor Word} {h : Nat}
    (hc : Ready all S h c.rest) (hk : c.kind? = some .identifier) :
    Stays (fun d => Left all S h d.rest) P (name n c) := by
  rw [name]
  split
  · rename_i p hp
    obtain ⟨t, hr, -, ht⟩ := Cursor.of_take? hp
    have hident := Option.some.inj ((Cursor.kind?_of_rest hr).symm.trans hk)
    exact stays_ok ((hr ▸ hc.toLeft).literal ((leaf?_of_identifier hident).trans ht)).toLeft
  · split
    · exact stays_error (hP _ _ _ hc)
    · rename_i f hf
      obtain ⟨t, hr, -, ht⟩ := Cursor.of_take? hf
      have hident := Option.some.inj ((Cursor.kind?_of_rest hr).symm.trans hk)
      have hready := (hr ▸ hc.toLeft).other (by simp [hident]) (by simp [hident])
      split
      · exact stays_error (hP _ _ _ hready)
      · rename_i paren hparen
        obtain ⟨hk, hr, -⟩ := Cursor.of_eat? hparen
        have := f.shorter
        have := paren.shorter
        exact (group_stays hP (p := f.skipTo paren)
          ((hr ▸ hready.toLeft).opened hk)).bind fun e he => stays_ok he
termination_by 16 * c.rest.length + 1

theorem group_stays (hP : Reports all S n P) {c : Cursor Word}
    {p : Parsed Word (Token Word) c} {h : Nat}
    (hp : Ready all S (h + 1) p.next.rest) :
    Stays (fun d => Left all S h d.rest) P (group n p) := by
  rw [group]
  refine (stays_descend hP hp).bind fun inner hinner => ?_
  have := inner.shorter
  refine (chain_stays hP hinner).bind fun e he => ?_
  exact (stays_expect hP he.ready).bind fun close hclose => stays_ok hclose
termination_by 16 * c.rest.length

end

end

/-! ## Whole texts -/

theorem alone_blank : Alone rules ' ' := alone_of_all (by decide +kernel)

theorem reports_text {text : List Char} {ts : Tokens} {S : Prop} (hts : Scans rules 0 text ts) :
    Reports ts S (byteLength text) fun f => f.InText text ∨ ¬ S ∧ f.IsAtEnd text := by
  rintro h ⟨rest, depth⟩ cause hready
  cases rest with
  | nil => exact .inr ⟨fun hs => hready.ne_nil hs rfl, rfl, rfl⟩
  | cons t rest => exact .inl (hts.inText alone_blank (hready.suffix.subset (.head _)) cause)

/-- A text that is no predicate has its fault in the text, or behind it if its tokens are not
sealed. -/
theorem parse_fault {text : List Char} {f : Fault} (h : parse text = .error f) (S : Prop)
    (hS : S → ∀ ts, Scans rules 0 text ts → Sealed 0 ts ∧ ts ≠ []) :
    f.InText text ∨ ¬ S ∧ f.IsAtEnd text := by
  unfold parse at h
  cases hts : tokens text with
  | error e =>
    rw [hts] at h
    cases h
    exact .inl (inText_of_scan hts)
  | ok ts =>
    rw [hts] at h
    have hscans := scan_eq_ok_iff.1 hts
    have hstays := chain_stays (k := .disjunction) (c := ⟨ts, 0⟩) (h := 0)
      (reports_text (S := S) hscans) ⟨⟨List.suffix_refl ts, fun hs => (hS hs ts hscans).1⟩,
        fun hs => (hS hs ts hscans).2⟩
    change chain _ _ _ >>= _ = _ at h
    cases he : chain (byteLength text) .disjunction ⟨ts, 0⟩ with
    | error e =>
      rw [he] at h
      cases h
      exact hstays.fault f he
    | ok e =>
      rw [he] at h
      change (if e.next.rest.isEmpty then _ else _) = _ at h
      split at h
      · cases h
      · rename_i hne
        cases h
        obtain ⟨t, us, hr⟩ := List.exists_cons_of_ne_nil (mt List.isEmpty_iff.2 hne)
        rw [Cursor.fault, hr]
        exact .inl (hscans.inText alone_blank ((hstays.next e he).suffix.subset (hr ▸ .head us)) _)

theorem sealed_of_scans {s : List Char} {ts : Tokens} (hrise : textRise 0 (s ++ [')']) = some 0)
    (h : Scans rules 0 (s ++ [')']) ts) : Sealed 0 ts ∧ ts ≠ [] := by
  have hlast : ∀ c, (s ++ [')']).getLast? = some c → isBlank c = false := fun c hc => by
    rw [List.getLast?_concat] at hc
    cases hc
    decide
  refine ⟨⟨by rw [← h.rise_eq parenthesized, hrise], fun t ht => ?_⟩, ?_⟩
  · obtain ⟨u, -, hc, hfirst⟩ := h.exists_append_of_stop ht (h.stop_eq hlast ht)
    rw [List.getLast?_concat] at hc
    have hmem : ')' ∈ t.chars := List.mem_of_getLast? hc
    by_cases ho : t.kind = .openParen
    · rw [ho] at hfirst
      rw [parenthesized.chars_opening hfirst] at hc
      cases hc
    · refine Classical.byContradiction fun hc => ?_
      exact (parenthesized.not_mem hfirst ho hc).2 hmem
  · rintro rfl
    cases h.nil_inv ')' (by simp)

/-- A text that closes all its parentheses and ends with one has no fault behind it. -/
theorem inText_of_parse {s : List Char} {f : Fault} (hrise : textRise 0 (s ++ [')']) = some 0)
    (h : parse (s ++ [')']) = .error f) : f.InText (s ++ [')']) :=
  (parse_fault h True fun _ _ hts => sealed_of_scans hrise hts).resolve_right fun hn =>
    hn.1 trivial

/-- The fault of a text that is no predicate stands in the text, or is the end of it. -/
theorem ofText_fault {text : List Char} {e : SyntaxError} (h : ofText text = .error e) :
    e.text = text ∧ (e.toFault.InText text ∨ e.toFault.IsAtEnd text) := by
  unfold ofText at h
  cases hp : parse text with
  | ok p =>
    rw [hp] at h
    cases h
  | error f =>
    rw [hp] at h
    cases h
    exact ⟨rfl, (parse_fault hp False nofun).imp_right (·.2)⟩

end Predicate

end Subdomain
