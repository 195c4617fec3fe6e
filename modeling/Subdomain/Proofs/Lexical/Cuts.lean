import Subdomain.Proofs.Lexical.Scan

/-!
# Cutting and joining texts

A text is cut between any two of its tokens, and each part has the tokens on its
side (`Scans.cut`). At another byte a text has the same tokens, moved
(`Scans.move`). Two texts are joined in front of a character that stands alone,
which no token but itself contains (`Scans.append`).
-/

namespace Subdomain

/-- The same token, `n` bytes further on. -/
def Token.shift {κ : Type} (n : Nat) (t : Token κ) : Token κ := { t with offset := n + t.offset }

/-- What a token is, wherever it stands. -/
def Token.spelling {κ : Type} (t : Token κ) : κ × List Char := (t.kind, t.chars)

/-- The text of tokens with one blank between any two of them. -/
def Token.spaced {κ : Type} (ts : List (Token κ)) : List Char :=
  [' '].intercalate (ts.map (·.chars))

namespace Lexical

variable {κ : Type} {rules : List (κ × Pattern)} {n : Nat} {s : List Char} {ts us : List (Token κ)}

/-! ## Cutting -/

/-- The byte behind the last token, or `n` without tokens. -/
def behind (n : Nat) : List (Token κ) → Nat
  | [] => n
  | t :: ts => behind t.stop ts

theorem behind_of_getLast? {t : Token κ} (h : ts.getLast? = some t) : behind n ts = t.stop := by
  induction ts generalizing n with
  | nil => cases h
  | cons u ts ih =>
    cases ts with
    | nil =>
      cases h
      rfl
    | cons v ts => exact ih (n := u.stop) h

theorem Munches.blanks {rest b : List Char} (hb : ∀ c ∈ b, isBlank c = true)
    (h : Munches rules rest (n + byteLength b) s ts) : Munches rules rest n (b ++ s) ts := by
  induction b generalizing n with
  | nil => exact h
  | cons c b ih =>
    obtain ⟨hc, hb⟩ := List.forall_mem_cons.1 hb
    exact .blank hc (ih hb (by rwa [Nat.add_assoc]))

theorem Scans.blanks {b : List Char} (hb : ∀ c ∈ b, isBlank c = true)
    (h : Scans rules (n + byteLength b) s ts) : Scans rules n (b ++ s) ts :=
  (h.munches.blanks hb).scans

/-- A text that has tokens begins with blanks and the first of them. -/
theorem Scans.cons_inv {t : Token κ} (h : Scans rules n s (t :: ts)) :
    ∃ b r, s = b ++ (t.chars ++ r) ∧ (∀ c ∈ b, isBlank c = true) ∧ t.offset = n + byteLength b ∧
      Takes rules t.chars r t.kind ∧ Scans rules t.stop r ts := by
  generalize hus : t :: ts = us at h
  induction h with
  | done => cases hus
  | @blank n c s us hc _ ih =>
    obtain ⟨b, r, rfl, hb, ho, htakes, hrest⟩ := ih hus
    exact ⟨c :: b, r, rfl, List.forall_mem_cons.2 ⟨hc, hb⟩, by rw [ho, byteLength, Nat.add_assoc],
      htakes, hrest⟩
  | @token n w s k us htakes hrest =>
    cases hus
    exact ⟨[], s, rfl, List.forall_mem_nil _, rfl, htakes, hrest⟩

/-- The first part of a text that is cut ends with its last token. -/
theorem Scans.cut (h : Scans rules n s (ts ++ us)) : ∃ u v, s = u ++ v ∧ Scans rules n u ts ∧
    Scans rules (n + byteLength u) v us ∧ behind n ts = n + byteLength u := by
  induction ts generalizing n s with
  | nil => exact ⟨[], s, rfl, .done n, h, rfl⟩
  | cons t ts ih =>
    obtain ⟨b, r, rfl, hb, ho, htakes, hrest⟩ := h.cons_inv
    obtain ⟨u, v, rfl, hu, hv, hend⟩ := ih hrest
    have hstop : t.stop + byteLength u = n + byteLength (b ++ (t.chars ++ u)) := by
      simp only [Token.stop, ho, byteLength_append, Nat.add_assoc]
    rw [hstop] at hv hend
    refine ⟨b ++ (t.chars ++ u), v, by simp, .blanks hb ?_, hv, hend⟩
    rw [← ho]
    exact .token htakes.of_append hu

/-- The tokens of a cut stand in a part of the text that begins and ends with them. -/
theorem Scans.part {pre post : List (Token κ)} {t : Token κ}
    (h : Scans rules n s (pre ++ (t :: ts ++ post))) : ∃ before part after,
      s = before ++ (part ++ after) ∧ t.offset = n + byteLength before ∧
      behind n (t :: ts) = t.offset + byteLength part ∧ Scans rules t.offset part (t :: ts) := by
  obtain ⟨u, v, rfl, -, hv, -⟩ := h.cut
  obtain ⟨w, x, rfl, hw, -, hend⟩ := hv.cut
  obtain ⟨b, r, rfl, -, ho, htakes, hrest⟩ := hw.cons_inv
  have hbefore : t.offset = n + byteLength (u ++ b) := by
    rw [ho, byteLength_append, Nat.add_assoc]
  refine ⟨u ++ b, t.chars ++ r, x, by simp, hbefore, ?_, .token htakes hrest⟩
  change behind t.stop ts = _
  change behind t.stop ts = _ at hend
  rw [hend, byteLength_append (s := b), hbefore, byteLength_append (s := u)]
  omega

/-- A text without tokens is blank. -/
theorem Scans.nil_inv (h : Scans rules n s []) : ∀ c ∈ s, isBlank c = true := by
  generalize hts : [] = ts at h
  induction h with
  | done => exact nofun
  | blank hc _ ih => exact List.forall_mem_cons.2 ⟨hc, ih hts⟩
  | token _ _ _ => cases hts

/-- There are no blanks at the ends of the text. -/
structure Solid (s : List Char) : Prop where
  head : ∀ c, s.head? = some c → isBlank c = false
  last : ∀ c, s.getLast? = some c → isBlank c = false

theorem Solid.cons {c : Char} {s : List Char} (hc : isBlank c = false) (hne : s ≠ [])
    (hs : Solid s) : Solid (c :: s) where
  head d h := by
    cases h
    exact hc
  last d h := by
    obtain ⟨e, s, rfl⟩ := List.exists_cons_of_ne_nil hne
    exact hs.last d h

theorem Solid.around {s t : List Char} (hs : Solid s) (ht : Solid t) (hne : s ≠ [])
    (hne' : t ≠ []) (m : List Char) : Solid (s ++ (m ++ t)) where
  head c h := by
    obtain ⟨d, s, rfl⟩ := List.exists_cons_of_ne_nil hne
    exact hs.head c h
  last c h := by
    refine ht.last c ?_
    rw [← List.append_assoc, List.getLast?_append] at h
    obtain ⟨d, hd⟩ := Option.ne_none_iff_exists'.1 (mt List.getLast?_eq_none_iff.1 hne')
    rwa [hd] at h ⊢

theorem solid_parens {s : List Char} : Solid ('(' :: (s ++ [')'])) where
  head c h := by
    cases h
    decide
  last c h := by
    rw [← List.cons_append, List.getLast?_concat] at h
    cases h
    decide

theorem Scans.offset_eq {t : Token κ} (h : Scans rules n s (t :: ts)) (hs : Solid s) :
    t.offset = n := by
  obtain ⟨b, r, rfl, hb, ho, -⟩ := h.cons_inv
  cases b with
  | nil => exact ho
  | cons c b => cases (hs.head c rfl).symm.trans (hb c (.head _))

theorem Scans.stop_eq {t : Token κ} (h : Scans rules n s ts) (hs : ∀ c, s.getLast? = some c →
    isBlank c = false) (ht : ts.getLast? = some t) : t.stop = n + byteLength s := by
  induction h with
  | done => cases ht
  | @blank n c s ts _ _ ih =>
    rw [ih (fun d hd => hs d (by rw [List.getLast?_cons, hd]; rfl)) ht, byteLength, Nat.add_assoc]
  | @token n w s k ts hw h ih =>
    have hs' : ∀ d, s.getLast? = some d → isBlank d = false := fun d hd =>
      hs d (by rw [List.getLast?_append, hd]; rfl)
    cases ts with
    | nil =>
      cases ht
      cases hd : s.getLast? with
      | none =>
        rw [List.getLast?_eq_none_iff.1 hd, List.append_nil]
        rfl
      | some d => cases (hs' d hd).symm.trans (h.nil_inv d (List.mem_of_getLast? hd))
    | cons u us =>
      rw [ih hs' ht, byteLength_append, Nat.add_assoc]

/-- A token stands in the text at its place. -/
theorem Scans.exists_of_mem {t : Token κ} (h : Scans rules n s ts) (ht : t ∈ ts) :
    ∃ before after, s = before ++ (t.chars ++ after) ∧ t.offset = n + byteLength before ∧
      Takes rules t.chars after t.kind := by
  obtain ⟨a, b, rfl⟩ := List.append_of_mem ht
  obtain ⟨u, v, rfl, -, hv, -⟩ := h.cut
  obtain ⟨w, r, rfl, -, ho, htakes, -⟩ := hv.cons_inv
  exact ⟨u ++ w, r, by simp, by rw [ho, byteLength_append, Nat.add_assoc], htakes⟩

theorem eq_nil_of_byteLength {s : List Char} (h : byteLength s = 0) : s = [] := by
  cases s with
  | nil => rfl
  | cons c s =>
    have := c.utf8Size_pos
    rw [byteLength] at h
    omega

/-- A text whose last token ends it ends with the characters of that token. -/
theorem Scans.exists_append_of_stop {t : Token κ} (h : Scans rules n s ts)
    (ht : ts.getLast? = some t) (hstop : t.stop = n + byteLength s) :
    ∃ u, s = u ++ t.chars ∧ t.chars.getLast? = s.getLast? ∧ First t.chars rules t.kind := by
  obtain ⟨before, after, rfl, ho, htakes⟩ := h.exists_of_mem (List.mem_of_getLast? ht)
  rw [Token.stop, ho, byteLength_append, byteLength_append] at hstop
  obtain ⟨c, w, hw, -⟩ := htakes.solid
  rw [eq_nil_of_byteLength (s := after) (by omega), List.append_nil]
  refine ⟨before, rfl, ?_, htakes.first⟩
  rw [List.getLast?_append, hw, List.getLast?_cons]
  rfl

/-! ## Moving -/

theorem Scans.move (h : Scans rules n s ts) (m : Nat) :
    Scans rules (m + n) s (ts.map (Token.shift m)) := by
  induction h with
  | done => exact .done _
  | blank hc _ ih => exact .blank hc (Nat.add_assoc .. ▸ ih)
  | token hw _ ih => exact .token hw (Nat.add_assoc .. ▸ ih)

/-- The tokens of a text at byte `m + n` are those at byte `n`, moved. -/
theorem Scans.exists_unmoved {m : Nat} (h : Scans rules (m + n) s ts) :
    ∃ us, Scans rules n s us ∧ ts = us.map (Token.shift m) := by
  generalize hk : m + n = k at h
  induction h generalizing n with
  | done => exact ⟨[], .done n, rfl⟩
  | blank hc _ ih =>
    obtain ⟨us, hus, rfl⟩ := ih (by rw [← hk, Nat.add_assoc])
    exact ⟨us, .blank hc hus, rfl⟩
  | token hw _ ih =>
    obtain ⟨us, hus, rfl⟩ := ih (by rw [← hk, Nat.add_assoc])
    exact ⟨_, .token hw hus, by rw [List.map_cons, Token.shift, hk]⟩

/-! ## Joining -/

/-- No token but itself contains the character. -/
def Alone (rules : List (κ × Pattern)) (c : Char) : Prop :=
  ∀ r ∈ rules, ∀ w, r.2.Matches w → c ∈ w → w = [c]

variable {c : Char}

theorem alone_of_all (h : (rules.all fun r => r.2.isolates c) = true) : Alone rules c :=
  fun r hr _ hw hc => Pattern.eq_singleton_of_isolates (List.all_eq_true.1 h r hr) hw hc

theorem Takes.append {w r : List Char} {k : κ} (h : Takes rules w r k) (hc : Alone rules c)
    (s : List Char) : Takes rules w (r ++ c :: s) k := by
  refine ⟨h.solid, h.first, fun e he v hv hev => ?_⟩
  by_cases hlen : v.length ≤ (w ++ r).length
  · refine h.bounded e he v (List.prefix_of_prefix_length_le hv ?_ hlen) hev
    rw [← List.append_assoc]
    exact List.prefix_append ..
  · -- Longer texts contain `c`, which only stands alone.
    have hmem : c ∈ v := by
      have hpre : w ++ r ++ [c] <+: v := by
        refine List.prefix_of_prefix_length_le ?_ hv (by simp at hlen ⊢; omega)
        exact ⟨s, by simp⟩
      exact hpre.subset (by simp)
    obtain ⟨d, cs, rfl, -⟩ := h.solid
    rw [hc e he v hev hmem]
    simp

theorem Scans.append {v : List Char} (h : Scans rules n s ts) (hc : Alone rules c)
    (hv : Scans rules (n + byteLength s) (c :: v) us) : Scans rules n (s ++ c :: v) (ts ++ us) := by
  induction h with
  | done => exact hv
  | blank hb _ ih =>
    rw [byteLength, ← Nat.add_assoc] at hv
    exact .blank hb (ih hv)
  | token hw _ ih =>
    rw [byteLength_append, ← Nat.add_assoc] at hv
    rw [List.append_assoc]
    exact .token (hw.append hc v) (ih hv)

/-- A character that stands alone is a token in front of any text. -/
theorem Scans.alone {k : κ} (hc : Alone rules c) (hb : isBlank c = false) (hk : First [c] rules k)
    (h : Scans rules (n + c.utf8Size) s ts) : Scans rules n (c :: s) (⟨k, [c], n⟩ :: ts) := by
  refine .token (w := [c]) ⟨⟨c, [], rfl, hb⟩, hk, fun r hr w hw hrw => ?_⟩ h
  rcases List.prefix_cons_iff.1 hw with rfl | ⟨v, rfl, -⟩
  · exact Nat.zero_le _
  · exact Nat.le_of_eq (congrArg _ (hc r hr _ hrw (.head _)))

/-- In front of a blank a text ends. -/
theorem Scans.append_blank {v : List Char} (h : Scans rules n s ts) (hc : Alone rules c)
    (hb : isBlank c = true) (hv : Scans rules (n + byteLength (s ++ [c])) v us) :
    Scans rules n (s ++ c :: v) (ts ++ us) :=
  h.append hc (.blank hb (by rwa [byteLength_append, ← Nat.add_assoc] at hv))

/-- Tokens stay what they are when a blank is put between any two of them. -/
theorem exists_scans_intercalate (hc : Alone rules c) (hb : isBlank c = true)
    {ws : List (κ × List Char)} (h : ∀ w ∈ ws, Takes rules w.2 [] w.1) (n : Nat) :
    ∃ ts, Scans rules n ([c].intercalate (ws.map (·.2))) ts ∧ ts.map Token.spelling = ws := by
  induction ws generalizing n with
  | nil => exact ⟨[], .done n, rfl⟩
  | cons w ws ih =>
    obtain ⟨hw, hws⟩ := List.forall_mem_cons.1 h
    cases ws with
    | nil =>
      refine ⟨[⟨w.1, w.2, n⟩], ?_, rfl⟩
      have hscans := Scans.token (n := n) hw (.done _)
      rw [List.append_nil] at hscans
      rwa [List.map_singleton, List.intercalate_singleton]
    | cons w' ws =>
      obtain ⟨ts, hts, hmap⟩ := ih hws (n + byteLength w.2 + c.utf8Size)
      refine ⟨⟨w.1, w.2, n⟩ :: ts, ?_, congrArg (w :: ·) hmap⟩
      rw [List.map_cons, List.map_cons, List.intercalate_cons_cons, ← List.map_cons,
        List.append_assoc]
      exact .token (hw.append hc _) (.blank hb hts)

/-- Tokens that are each taken alone are scanned again, with blanks between them. -/
theorem exists_scan_spaced (hc : Alone rules ' ') (h : ∀ t ∈ ts, Takes rules t.chars [] t.kind) :
    ∃ us, scan rules (Token.spaced ts) = .ok us ∧
      us.map Token.spelling = ts.map Token.spelling := by
  have htakes : ∀ w ∈ ts.map Token.spelling, Takes rules w.2 [] w.1 := List.forall_mem_map.2 h
  obtain ⟨us, hus, hmap⟩ := exists_scans_intercalate hc (by decide) htakes 0
  rw [List.map_map] at hus
  exact ⟨us, scan_eq_ok_iff.2 hus, hmap⟩

end Lexical

end Subdomain
