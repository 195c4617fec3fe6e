import Subdomain.Lexical.Cursor

/-!
# Readers and forms

`Gives r a c'` says that the reading `r` has given `a` and goes on at the cursor
`c'`. A reader reads the forms of a type if it accepts exactly the tokens of such
forms (`Reads`): what it has read are the tokens of a form, and in front of what
may follow it reads all tokens of any form. `Unambiguous` says that in front of
what may follow the tokens determine the form.
-/

namespace Subdomain

variable {κ α β γ φ : Type}

/-- The reading has given `a` and goes on at `c'`. -/
def Gives {c : Cursor κ} (r : Except Fault (Parsed κ α c)) (a : α) (c' : Cursor κ) : Prop :=
  ∃ p, r = .ok p ∧ p.value = a ∧ p.next = c'

section

variable {c c₁ c₂ c' : Cursor κ} {a : α} {b : β}

theorem gives_ok {p : Parsed κ α c} : Gives (.ok p) a c' ↔ p.value = a ∧ p.next = c' := by
  simp [Gives]

theorem not_gives_error {e : Fault} : ¬ Gives (.error e : Except Fault (Parsed κ α c)) a c' :=
  fun ⟨_, h, _⟩ => nomatch h

theorem gives_bind {r : Except Fault (Parsed κ β c₁)}
    {f : Parsed κ β c₁ → Except Fault (Parsed κ α c)} :
    Gives (r >>= f) a c' ↔ ∃ p, Gives r p.value p.next ∧ Gives (f p) a c' := by
  cases r with
  | error e =>
    constructor
    · exact fun h => absurd h not_gives_error
    · rintro ⟨p, h, -⟩
      exact absurd h not_gives_error
  | ok q =>
    constructor
    · exact fun h => ⟨q, gives_ok.2 ⟨rfl, rfl⟩, h⟩
    · rintro ⟨p, ⟨_, h, hv, hn⟩, hf⟩
      cases h
      obtain ⟨v, n, s⟩ := p
      cases hv
      cases hn
      exact hf

/-- A reading that has succeeded is gone on with at a known cursor. -/
theorem Gives.bind {r : Except Fault (Parsed κ β c₁)} (h : Gives r b c₂)
    {f : Parsed κ β c₁ → Except Fault (Parsed κ α c)}
    (hf : ∀ p, p.value = b → p.next = c₂ → Gives (f p) a c') : Gives (r >>= f) a c' := by
  obtain ⟨p, rfl, hv, hn⟩ := h
  exact hf p hv hn

/-- The last reading decides where it goes on, and on what the value is made from. -/
theorem gives_bind_pure {r : Except Fault (Parsed κ β c₁)} {f : Parsed κ β c₁ → Parsed κ α c}
    {g : β → α} (hv : ∀ p, (f p).value = g p.value) (hn : ∀ p, (f p).next = p.next) :
    Gives (r >>= fun p => pure (f p)) a c' ↔ ∃ b, Gives r b c' ∧ g b = a := by
  rw [gives_bind]
  constructor
  · rintro ⟨p, hr, hf⟩
    obtain ⟨hfv, hfn⟩ := gives_ok.1 hf
    rw [hv] at hfv
    rw [hn] at hfn
    exact ⟨p.value, hfn ▸ hr, hfv⟩
  · rintro ⟨b, ⟨p, rfl, rfl, rfl⟩, hg⟩
    exact ⟨p, gives_ok.2 ⟨rfl, rfl⟩, gives_ok.2 ⟨(hv p).trans hg, hn p⟩⟩

theorem gives_map {r : Except Fault (Parsed κ β c)} {g : β → α} :
    Gives (r >>= fun p => pure (p.map g)) a c' ↔ ∃ b, Gives r b c' ∧ g b = a :=
  gives_bind_pure (f := fun p => p.map g) (fun _ => rfl) fun _ => rfl

theorem gives_skip {w : Parsed κ γ c} {r : Except Fault (Parsed κ α w.next)} :
    Gives (r >>= fun p => pure (w.skipTo p)) a c' ↔ Gives r a c' := by
  rw [gives_bind_pure (f := fun p => w.skipTo p) (g := id) (fun _ => rfl) fun _ => rfl]
  simp

theorem gives_skip_map {w : Parsed κ γ c} {r : Except Fault (Parsed κ β w.next)} {g : β → α} :
    Gives (r >>= fun p => pure ((w.skipTo p).map g)) a c' ↔ ∃ b, Gives r b c' ∧ g b = a :=
  gives_bind_pure (f := fun p => (w.skipTo p).map g) (fun _ => rfl) fun _ => rfl

end

/-! ## Single tokens -/

namespace Cursor

variable {c e : Cursor κ} {t : Token κ} {ts : List (Token κ)}

theorem eq_of_rest (hr : c.rest = e.rest) (hd : c.depth = e.depth) : c = e := by
  obtain ⟨rest, depth⟩ := c
  cases hr
  cases hd
  rfl

theorem kind?_of_rest (h : c.rest = t :: ts) : c.kind? = some t.kind := by
  rw [kind?, h]
  rfl

theorem exists_of_kind? {k : κ} (h : c.kind? = some k) :
    ∃ t ts, c.rest = t :: ts ∧ t.kind = k := by
  unfold kind? at h
  cases hc : c.rest with
  | nil => simp [hc] at h
  | cons t ts => exact ⟨t, ts, rfl, by simpa [hc] using h⟩

theorem of_take? {f : Token κ → Option α} {p : Parsed κ α c} (h : c.take? f = some p) :
    ∃ t, c.rest = t :: p.next.rest ∧ c.depth = p.next.depth ∧ f t = some p.value := by
  unfold take? at h
  split at h
  · cases h
  · rename_i t ts hc
    obtain ⟨a, ha, rfl⟩ := Option.map_eq_some_iff.1 h
    exact ⟨t, hc, rfl, ha⟩

theorem exists_take? {f : Token κ → Option α} {a : α} (h : c.rest = t :: ts) (hf : f t = some a) :
    ∃ p, c.take? f = some p ∧ p.value = a ∧ p.next.rest = ts ∧ p.next.depth = c.depth := by
  unfold take?
  split
  · rename_i hc
    cases h.symm.trans hc
  · rename_i u us hc
    cases h.symm.trans hc
    rw [hf]
    exact ⟨_, rfl, rfl, rfl, rfl⟩

theorem take?_eq_none_iff {f : Token κ → Option α} :
    c.take? f = none ↔ ∀ t, c.rest.head? = some t → f t = none := by
  unfold take?
  split
  · rename_i hc
    simp [hc]
  · rename_i t ts hc
    simp [hc]

variable [DecidableEq κ] {k : κ}

theorem of_eat? {p : Parsed κ (Token κ) c} (h : c.eat? k = some p) :
    p.value.kind = k ∧ c.rest = p.value :: p.next.rest ∧ c.depth = p.next.depth := by
  obtain ⟨t, hr, hd, ht⟩ := of_take? h
  split at ht
  · rename_i hk
    cases ht
    exact ⟨hk, hr, hd⟩
  · cases ht

theorem exists_eat? (h : c.rest = t :: ts) (hk : t.kind = k) :
    ∃ p, c.eat? k = some p ∧ p.value = t ∧ p.next.rest = ts ∧ p.next.depth = c.depth :=
  exists_take? h (if_pos hk)

theorem eat?_eq_none_iff : c.eat? k = none ↔ c.kind? ≠ some k := by
  rw [eat?, take?_eq_none_iff, kind?]
  cases c.rest.head? <;> simp

theorem eat?_of_ne (h : c.rest = t :: ts) (hk : t.kind ≠ k) : c.eat? k = none :=
  eat?_eq_none_iff.2 (by simpa [kind?_of_rest h] using hk)

theorem gives_expect {n : Nat} {cause : SyntaxCause} :
    Gives (c.expect n k cause) t e ↔
      t.kind = k ∧ c.rest = t :: e.rest ∧ c.depth = e.depth := by
  unfold expect
  constructor
  · intro h
    split at h
    · rename_i p hp
      obtain ⟨rfl, rfl⟩ := gives_ok.1 h
      exact of_eat? hp
    · exact absurd h not_gives_error
  · rintro ⟨hk, hr, hd⟩
    obtain ⟨p, hp, hv, hpr, hpd⟩ := exists_eat? hr hk
    rw [hp]
    exact gives_ok.2 ⟨hv, eq_of_rest hpr (hpd.trans hd)⟩

end Cursor

/-! ## Forms -/

/-- The next token, if there is any, is as `P` says. -/
def Heads (P : Token κ → Prop) (ts : List (Token κ)) : Prop := ∀ t, ts.head? = some t → P t

theorem heads_nil {P : Token κ → Prop} : Heads P [] := fun _ h => nomatch h

theorem heads_cons {P : Token κ → Prop} {t : Token κ} {ts : List (Token κ)} (h : P t) :
    Heads P (t :: ts) := by
  intro u hu
  cases hu
  exact h

theorem Heads.mono {P Q : Token κ → Prop} {ts : List (Token κ)} (h : Heads P ts)
    (hPQ : ∀ t, P t → Q t) : Heads Q ts := fun t ht => hPQ t (h t ht)

/-- Anything may follow. -/
def Anything (_ : List (Token κ)) : Prop := True

/-- The reader accepts the tokens of forms, where `means d a` says that it reads the form `d`
as `a`. It leaves the depth as it was. -/
structure Reads (p : (c : Cursor κ) → Except Fault (Parsed κ α c)) (tokens : φ → List (Token κ))
    (follow : List (Token κ) → Prop) (means : φ → α → Prop) : Prop where
  sound : ∀ {c c' a}, Gives (p c) a c' →
    ∃ d, c.rest = tokens d ++ c'.rest ∧ c.depth = c'.depth ∧ means d a
  complete : ∀ {c e a} d, c.rest = tokens d ++ e.rest → c.depth = e.depth → follow e.rest →
    means d a → Gives (p c) a e

theorem Reads.of_iff {p : (c : Cursor κ) → Except Fault (Parsed κ α c)}
    {tokens : φ → List (Token κ)} {follow : List (Token κ) → Prop} {m m' : φ → α → Prop}
    (h : Reads p tokens follow m) (hm : ∀ d a, m d a ↔ m' d a) : Reads p tokens follow m' := by
  have : m = m' := funext fun d => funext fun a => propext (hm d a)
  exact this ▸ h

/-- In front of what may follow, tokens are those of one form at most. -/
def Unambiguous (tokens : φ → List (Token κ)) (follow : List (Token κ) → Prop) : Prop :=
  ∀ d d' r r', tokens d ++ r = tokens d' ++ r' → follow r → follow r' → d = d' ∧ r = r'

section

variable {P : Token κ → Prop}

theorem unambiguous_token :
    Unambiguous (fun t : { t : Token κ // P t } => [t.val]) Anything := by
  intro d d' r r' h _ _
  obtain ⟨ht, hr⟩ := List.cons.inj h
  exact ⟨Subtype.ext ht, hr⟩

/-- A token in front changes nothing. -/
theorem Unambiguous.cons {f : φ → List (Token κ)} {follow : List (Token κ) → Prop}
    (hf : Unambiguous f follow) :
    Unambiguous (fun d : { t : Token κ // P t } × φ => d.1.val :: f d.2) follow := by
  rintro ⟨t, d⟩ ⟨t', d'⟩ r r' h hr hr'
  obtain ⟨ht, hd⟩ := List.cons.inj h
  obtain ⟨rfl, hrest⟩ := hf d d' r r' hd hr hr'
  cases Subtype.ext ht
  exact ⟨rfl, hrest⟩

end

end Subdomain
