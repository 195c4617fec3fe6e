import Subdomain.Proofs.Lexical.Cursor
import Subdomain.Proofs.Lexical.Cuts

/-!
# Where faults are

A fault is in a text if its fragment stands there at its position (`Fault.InText`),
and at the end of it if its fragment says so. `Stays I P r` says that the reading
`r` goes on at a cursor as `I` says or has a fault as `P` says. It passes through
sequencing, so that where a reader finds its faults is read off from where its
parts do.
-/

namespace Subdomain

/-! ## Places -/

/-- The fragment of the fault stands at its position, between two characters. -/
structure Fault.InText (text : List Char) (f : Fault) : Prop where
  stands : ∃ before after, text = before ++ (f.fragment ++ after) ∧ f.position = byteLength before
  fragment_ne : f.fragment ≠ endFragment

/-- The fault is behind the text. -/
structure Fault.IsAtEnd (text : List Char) (f : Fault) : Prop where
  fragment_eq : f.fragment = endFragment
  position_eq : f.position = byteLength text

/-- A fault in a part of a text is in the text, as far behind as the part. -/
theorem Fault.InText.shift {part : List Char} {f : Fault} (h : f.InText part)
    (before after : List Char) :
    (f.shift (byteLength before)).InText (before ++ (part ++ after)) where
  stands := by
    obtain ⟨b, a, rfl, hp⟩ := h.stands
    exact ⟨before ++ b, a ++ after, by simp [Fault.shift], by simp [Fault.shift, hp]⟩
  fragment_ne := h.fragment_ne

namespace Lexical

variable {κ : Type} {rules : List (κ × Pattern)} {s : List Char}

theorem ne_endFragment_of_takes (h : Alone rules ' ') {w r : List Char} {k : κ}
    (hw : Takes rules w r k) : w ≠ Fault.endFragment := by
  rintro rfl
  obtain ⟨p, hp, hm⟩ := hw.first.exists_mem
  cases h _ hp _ hm (by decide)

/-- A fault at a token of a text is in the text. -/
theorem Scans.inText {ts : List (Token κ)} (h : Scans rules 0 s ts) (ha : Alone rules ' ')
    {t : Token κ} (ht : t ∈ ts) (cause : SyntaxCause) :
    Fault.InText s ⟨cause, t.chars, t.offset⟩ := by
  obtain ⟨before, after, rfl, ho, htakes⟩ := h.exists_of_mem ht
  exact ⟨⟨before, after, rfl, ho.trans (Nat.zero_add _)⟩, ne_endFragment_of_takes ha htakes⟩

/-- A character at which no token begins is in the text. -/
theorem inText_of_scan {f : Fault} (h : scan rules s = .error f) : f.InText s := by
  obtain ⟨before, c, after, -, rfl, rfl, -⟩ := (scanFrom_spec rules 0 s).2 f h
  refine ⟨⟨before, after, rfl, Nat.zero_add _⟩, fun he => ?_⟩
  cases (List.cons.inj he).2

end Lexical

/-! ## Readings -/

variable {κ α β : Type} {c c₁ : Cursor κ} {I J : Cursor κ → Prop} {P : Fault → Prop}

/-- The reading goes on at a cursor as `I` says, or has a fault as `P` says. -/
structure Stays (I : Cursor κ → Prop) (P : Fault → Prop) (r : Except Fault (Parsed κ α c)) :
    Prop where
  next : ∀ p, r = .ok p → I p.next
  fault : ∀ f, r = .error f → P f

theorem stays_ok {p : Parsed κ α c} (h : I p.next) : Stays I P (.ok p) where
  next q hq := by
    cases hq
    exact h
  fault := nofun

theorem stays_error {f : Fault} (h : P f) : Stays I P (.error f : Except Fault (Parsed κ α c)) where
  next := nofun
  fault g hg := by
    cases hg
    exact h

theorem Stays.bind {r : Except Fault (Parsed κ β c₁)} (h : Stays I P r)
    {f : Parsed κ β c₁ → Except Fault (Parsed κ α c)} (hf : ∀ p, I p.next → Stays J P (f p)) :
    Stays J P (r >>= f) := by
  cases r with
  | error e => exact stays_error (h.fault e rfl)
  | ok p => exact hf p (h.next p rfl)

end Subdomain
