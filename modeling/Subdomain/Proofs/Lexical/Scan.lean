import Subdomain.Lexical.Cursor
import Subdomain.Proofs.Lexical.Pattern

/-!
# Scanning texts

`Scans rules n s ts` says that the text `s` from byte `n` on has the tokens `ts`:
between them are blanks, and each token is the longest text at its place that a
rule matches (`Takes`). Scanning gives these tokens (`scanFrom_eq_ok_iff`). It
fails in front of a character at which no token begins (`Stuck`), behind a text whose
tokens it has taken with all of the text in sight (`Munches`).
-/

namespace Subdomain

namespace Lexical

variable {κ : Type} {rules : List (κ × Pattern)}

/-! ## Single tokens -/

/-- The first of the rules that match a text is one of kind `k`. -/
inductive First (w : List Char) : List (κ × Pattern) → κ → Prop where
  | here {k : κ} {p : Pattern} {rules : List (κ × Pattern)} : p.Matches w →
      First w ((k, p) :: rules) k
  | there {k k' : κ} {p : Pattern} {rules : List (κ × Pattern)} : ¬ p.Matches w → First w rules k →
      First w ((k', p) :: rules) k

/-- At the front of a text no rule matches more than `n` characters. -/
def Bounded (rules : List (κ × Pattern)) (s : List Char) (n : Nat) : Prop :=
  ∀ r ∈ rules, ∀ w, w <+: s → r.2.Matches w → w.length ≤ n

theorem First.exists_mem {w : List Char} {k : κ} (h : First w rules k) :
    ∃ p, (k, p) ∈ rules ∧ p.Matches w := by
  induction h with
  | here hp => exact ⟨_, .head _, hp⟩
  | there _ _ ih =>
    obtain ⟨p, hmem, hp⟩ := ih
    exact ⟨p, .tail _ hmem, hp⟩

theorem First.unique {w : List Char} {k k' : κ} (h : First w rules k) (h' : First w rules k') :
    k = k' := by
  induction h with
  | here hp =>
    cases h' with
    | here => rfl
    | there hn => exact absurd hp hn
  | there hn _ ih =>
    cases h' with
    | here hp => exact absurd hp hn
    | there _ h' => exact ih h'

theorem first_append {w : List Char} {k : κ} {p : Pattern} (post : List (κ × Pattern))
    (hrules : ∀ r ∈ rules, ¬ r.2.Matches w) (hp : p.Matches w) :
    First w (rules ++ (k, p) :: post) k := by
  induction rules with
  | nil => exact .here hp
  | cons r rules ih =>
    obtain ⟨hr, hrules⟩ := List.forall_mem_cons.1 hrules
    exact .there hr (ih hrules)

theorem bounded_cons {r : κ × Pattern} {s : List Char} {n : Nat} :
    Bounded (r :: rules) s n ↔ (∀ w, w <+: s → r.2.Matches w → w.length ≤ n) ∧ Bounded rules s n :=
  List.forall_mem_cons

theorem prefix_eq_of_length {s v w : List Char} (hv : v <+: s) (hw : w <+: s)
    (h : v.length = w.length) : v = w :=
  (List.prefix_of_prefix_length_le hv hw (Nat.le_of_eq h)).eq_of_length h

theorem best_spec (rules : List (κ × Pattern)) (s : List Char) :
    (best rules s = none → ∀ r ∈ rules, ∀ w, w <+: s → ¬ r.2.Matches w) ∧
      ∀ k n, best rules s = some (k, n) →
        Bounded rules s n ∧ ∃ w, w <+: s ∧ w.length = n ∧ First w rules k := by
  induction rules with
  | nil => exact ⟨fun _ => nofun, nofun⟩
  | cons r rules ih =>
    obtain ⟨k', p⟩ := r
    obtain ⟨hnone, hsome⟩ := ih
    rw [best]
    split
    · rename_i m k'' m' hp hb
      obtain ⟨⟨w, hw, rfl, hpw⟩, hmax⟩ := Pattern.longest_eq_some_iff.1 hp
      obtain ⟨hbound, v, hv, rfl, hfirst⟩ := hsome _ _ hb
      split
      · rename_i hlt
        refine ⟨nofun, fun k n h => ?_⟩
        cases h
        refine ⟨bounded_cons.2 ⟨fun u hu hpu => ?_, hbound⟩, v, hv, rfl,
          .there (fun hpv => ?_) hfirst⟩
        · exact Nat.le_trans (hmax u hu hpu) (Nat.le_of_lt hlt)
        · exact Nat.not_lt.2 (hmax v hv hpv) hlt
      · rename_i hlt
        refine ⟨nofun, fun k n h => ?_⟩
        cases h
        refine ⟨bounded_cons.2 ⟨hmax, fun r hr u hu hru => ?_⟩, w, hw, rfl, .here hpw⟩
        exact Nat.le_trans (hbound r hr u hu hru) (Nat.not_lt.1 hlt)
    · rename_i m hp hb
      obtain ⟨⟨w, hw, rfl, hpw⟩, hmax⟩ := Pattern.longest_eq_some_iff.1 hp
      refine ⟨nofun, fun k n h => ?_⟩
      cases h
      refine ⟨bounded_cons.2 ⟨hmax, fun r hr u hu hru => ?_⟩, w, hw, rfl, .here hpw⟩
      exact absurd hru (hnone hb r hr u hu)
    · rename_i hp
      rw [Pattern.longest_eq_none_iff] at hp
      refine ⟨fun hb => List.forall_mem_cons.2 ⟨hp, hnone hb⟩, fun k n h => ?_⟩
      obtain ⟨hbound, w, hw, hl, hfirst⟩ := hsome k n h
      exact ⟨bounded_cons.2 ⟨fun u hu hpu => absurd hpu (hp u hu), hbound⟩,
        w, hw, hl, .there (hp w hw) hfirst⟩

theorem best_eq_none_iff {s : List Char} :
    best rules s = none ↔ ∀ r ∈ rules, ∀ w, w <+: s → ¬ r.2.Matches w := by
  refine ⟨(best_spec rules s).1, fun h => ?_⟩
  cases hb : best rules s with
  | none => rfl
  | some e =>
    obtain ⟨-, w, hw, -, hfirst⟩ := (best_spec rules s).2 e.1 e.2 hb
    obtain ⟨p, hp, hpw⟩ := hfirst.exists_mem
    exact absurd hpw (h _ hp w hw)

theorem best_eq_some_iff {s : List Char} {k : κ} {n : Nat} : best rules s = some (k, n) ↔
    Bounded rules s n ∧ ∃ w, w <+: s ∧ w.length = n ∧ First w rules k := by
  refine ⟨(best_spec rules s).2 k n, ?_⟩
  rintro ⟨hbound, w, hw, rfl, hfirst⟩
  obtain ⟨p, hp, hpw⟩ := hfirst.exists_mem
  cases hb : best rules s with
  | none => exact absurd hpw ((best_spec rules s).1 hb _ hp w hw)
  | some e =>
    obtain ⟨k', n⟩ := e
    obtain ⟨hbound', v, hv, rfl, hfirst'⟩ := (best_spec rules s).2 k' n hb
    obtain ⟨q, hq, hqv⟩ := hfirst'.exists_mem
    have hlen : w.length = v.length :=
      Nat.le_antisymm (hbound' _ hp w hw hpw) (hbound _ hq v hv hqv)
    cases prefix_eq_of_length hw hv hlen
    rw [hfirst.unique hfirst']

theorem bounded_zero_of_best {s : List Char} (h : ∀ k m, best rules s ≠ some (k, m + 1)) :
    Bounded rules s 0 := by
  cases hb : best rules s with
  | none => exact fun r hr w hw hrw => absurd hrw (best_eq_none_iff.1 hb r hr w hw)
  | some e =>
    obtain ⟨k, n⟩ := e
    cases n with
    | zero => exact (best_eq_some_iff.1 hb).1
    | succ m => exact absurd hb (h k m)

/-- In front of `rest` the rules take the text `w` as a token of kind `k`. -/
structure Takes (rules : List (κ × Pattern)) (w rest : List Char) (k : κ) : Prop where
  solid : ∃ c cs, w = c :: cs ∧ isBlank c = false
  first : First w rules k
  bounded : Bounded rules (w ++ rest) w.length

theorem Takes.best_eq {w rest : List Char} {k : κ} (h : Takes rules w rest k) :
    best rules (w ++ rest) = some (k, w.length) :=
  best_eq_some_iff.2 ⟨h.bounded, w, List.prefix_append .., rfl, h.first⟩

/-- Less behind a token changes nothing. -/
theorem Takes.of_append {w r r' : List Char} {k : κ} (h : Takes rules w (r ++ r') k) :
    Takes rules w r k := by
  refine ⟨h.solid, h.first, fun e he v hv hev => h.bounded e he v ?_ hev⟩
  rw [← List.append_assoc]
  exact hv.trans (List.prefix_append ..)

theorem takes_of_best {s : List Char} {c : Char} {k : κ} {n : Nat} (hc : isBlank c = false)
    (h : best rules (c :: s) = some (k, n + 1)) :
    ∃ w rest, c :: s = c :: w ++ rest ∧ w.length = n ∧ Takes rules (c :: w) rest k := by
  obtain ⟨hbound, w, ⟨rest, hw⟩, hl, hfirst⟩ := best_eq_some_iff.1 h
  cases w with
  | nil => cases hl
  | cons d w =>
    cases hw
    exact ⟨w, rest, rfl, Nat.succ.inj hl, ⟨_, _, rfl, hc⟩, hfirst, hl ▸ hbound⟩

/-- A text that is matched to its end is a token. -/
theorem takes_of_best_eq {w : List Char} {c : Char} {k : κ} (hc : isBlank c = false)
    (h : best rules (c :: w) = some (k, w.length + 1)) : Takes rules (c :: w) [] k := by
  obtain ⟨v, rest, hv, hl, htakes⟩ := takes_of_best hc h
  obtain ⟨rfl, rfl⟩ : w = v ∧ [] = rest :=
    List.append_inj (by simpa using hv) hl.symm
  exact htakes

/-! ## Whole texts -/

inductive Scans (rules : List (κ × Pattern)) : Nat → List Char → List (Token κ) → Prop where
  | done (n : Nat) : Scans rules n [] []
  | blank {n : Nat} {c : Char} {s : List Char} {ts : List (Token κ)} : isBlank c = true →
      Scans rules (n + c.utf8Size) s ts → Scans rules n (c :: s) ts
  | token {n : Nat} {w s : List Char} {k : κ} {ts : List (Token κ)} : Takes rules w s k →
      Scans rules (n + byteLength w) s ts → Scans rules n (w ++ s) (⟨k, w, n⟩ :: ts)

/-- The text `s` in front of `rest` has the tokens `ts`, each the longest text at its place in both
together that a rule matches. -/
inductive Munches (rules : List (κ × Pattern)) (rest : List Char) :
    Nat → List Char → List (Token κ) → Prop where
  | done (n : Nat) : Munches rules rest n [] []
  | blank {n : Nat} {c : Char} {s : List Char} {ts : List (Token κ)} : isBlank c = true →
      Munches rules rest (n + c.utf8Size) s ts → Munches rules rest n (c :: s) ts
  | token {n : Nat} {w s : List Char} {k : κ} {ts : List (Token κ)} : Takes rules w (s ++ rest) k →
      Munches rules rest (n + byteLength w) s ts → Munches rules rest n (w ++ s) (⟨k, w, n⟩ :: ts)

theorem Munches.scans {rest : List Char} {n : Nat} {s : List Char} {ts : List (Token κ)}
    (h : Munches rules rest n s ts) : Scans rules n s ts := by
  induction h with
  | done n => exact .done n
  | blank hc _ ih => exact .blank hc ih
  | token hw _ ih => exact .token hw.of_append ih

theorem Scans.munches {n : Nat} {s : List Char} {ts : List (Token κ)} (h : Scans rules n s ts) :
    Munches rules [] n s ts := by
  induction h with
  | done n => exact .done n
  | blank hc _ ih => exact .blank hc ih
  | @token n w s k ts hw _ ih => exact .token (by rwa [List.append_nil]) ih

/-- Neither a blank nor a token is at the front of the text. -/
structure Stuck (rules : List (κ × Pattern)) (c : Char) (after : List Char) : Prop where
  solid : isBlank c = false
  bounded : Bounded rules (c :: after) 0

/-- What is no blank begins a token. -/
theorem Scans.solid_inv {n : Nat} {c : Char} {s : List Char} {ts : List (Token κ)}
    (h : Scans rules n (c :: s) ts) (hc : isBlank c = false) : ∃ w k r us, s = w ++ r ∧
      ts = ⟨k, c :: w, n⟩ :: us ∧ Takes rules (c :: w) r k ∧
      Scans rules (n + byteLength (c :: w)) r us := by
  generalize hcs : c :: s = cs at h
  cases h with
  | done => cases hcs
  | blank hb _ =>
    cases hcs
    cases hc.symm.trans hb
  | token hw hr =>
    obtain ⟨d, w, rfl, -⟩ := hw.solid
    obtain ⟨rfl, hs⟩ := List.cons.inj hcs
    exact ⟨w, _, _, _, hs, rfl, hw, hr⟩

theorem scanFrom_skip {n : Nat} {w s : List Char} :
    scanFrom rules n w.length (w ++ s) = scanFrom rules (n + byteLength w) 0 s := by
  induction w generalizing n with
  | nil => rfl
  | cons c w ih =>
    rw [List.length_cons, List.cons_append, scanFrom, ih, byteLength, Nat.add_assoc]

theorem scanFrom_blank {n : Nat} {c : Char} {s : List Char} (h : isBlank c = true) :
    scanFrom rules n 0 (c :: s) = scanFrom rules (n + c.utf8Size) 0 s := by
  rw [scanFrom, if_pos h]

theorem scanFrom_fault {n : Nat} {c : Char} {s : List Char} (hc : isBlank c = false)
    (h : ∀ k m, best rules (c :: s) ≠ some (k, m + 1)) :
    scanFrom rules n 0 (c :: s) = .error ⟨.unexpectedCharacter, [c], n⟩ := by
  rw [scanFrom, hc, if_neg Bool.false_ne_true]
  split
  · rename_i k m hb
    exact absurd hb (h k m)
  · rfl

theorem scanFrom_token {n : Nat} {w s : List Char} {k : κ} (h : Takes rules w s k) :
    scanFrom rules n 0 (w ++ s) =
      scanFrom rules (n + byteLength w) 0 s >>= fun ts => pure (⟨k, w, n⟩ :: ts) := by
  obtain ⟨c, cs, rfl, hc⟩ := h.solid
  have hbest := h.best_eq
  rw [List.cons_append] at hbest ⊢
  rw [scanFrom, hc, hbest, if_neg Bool.false_ne_true]
  dsimp only [List.length_cons]
  rw [scanFrom_skip, byteLength, Nat.add_assoc, ← List.cons_append, ← List.length_cons,
    List.take_left]

theorem Scans.scanFrom_eq {n : Nat} {s : List Char} {ts : List (Token κ)}
    (h : Scans rules n s ts) : scanFrom rules n 0 s = .ok ts := by
  induction h with
  | done n => rfl
  | blank hc _ ih => rw [scanFrom_blank hc, ih]
  | token hw _ ih =>
    rw [scanFrom_token hw, ih]
    rfl

/-- What scanning finds: the tokens of the text, or its first character at which no rule matches. -/
theorem scanFrom_spec (rules : List (κ × Pattern)) (n : Nat) (s : List Char) :
    (∀ ts, scanFrom rules n 0 s = .ok ts → Scans rules n s ts) ∧
      ∀ f, scanFrom rules n 0 s = .error f → ∃ before c after ts, s = before ++ c :: after ∧
        f = ⟨.unexpectedCharacter, [c], n + byteLength before⟩ ∧
          Munches rules (c :: after) n before ts ∧ Stuck rules c after := by
  induction hl : s.length using Nat.strongRecOn generalizing n s with
  | ind l ih =>
    subst hl
    cases s with
    | nil =>
      refine ⟨fun ts h => ?_, fun f h => ?_⟩ <;> cases h
      exact .done n
    | cons c s =>
      cases hc : isBlank c with
      | true =>
        obtain ⟨hok, herror⟩ := ih s.length (Nat.lt_succ_self _) (n + c.utf8Size) s rfl
        rw [scanFrom_blank hc]
        refine ⟨fun ts h => .blank hc (hok ts h), fun f h => ?_⟩
        obtain ⟨before, d, after, ts, rfl, rfl, hbefore, hstuck⟩ := herror f h
        exact ⟨c :: before, d, after, ts, rfl, by rw [byteLength, Nat.add_assoc],
          .blank hc hbefore, hstuck⟩
      | false =>
        by_cases hb : ∃ k m, best rules (c :: s) = some (k, m + 1)
        · obtain ⟨k, m, hb⟩ := hb
          obtain ⟨w, rest, hs, -, hw⟩ := takes_of_best hc hb
          have hshort : rest.length < (c :: s).length := by
            rw [hs, List.length_append, List.length_cons]
            omega
          obtain ⟨hok, herror⟩ := ih _ hshort (n + byteLength (c :: w)) rest rfl
          rw [hs, scanFrom_token hw]
          cases hr : scanFrom rules (n + byteLength (c :: w)) 0 rest with
          | ok ts =>
            refine ⟨fun us h => ?_, fun f h => ?_⟩ <;> cases h
            exact .token hw (hok ts hr)
          | error e =>
            refine ⟨fun us h => ?_, fun f h => ?_⟩ <;> cases h
            obtain ⟨before, d, after, ts, rfl, rfl, hbefore, hstuck⟩ := herror e hr
            exact ⟨c :: w ++ before, d, after, _, by simp, by
              rw [byteLength_append, Nat.add_assoc], .token hw hbefore, hstuck⟩
        · have hnone : ∀ k m, best rules (c :: s) ≠ some (k, m + 1) := fun k m h => hb ⟨k, m, h⟩
          rw [scanFrom_fault hc hnone]
          refine ⟨fun us h => ?_, fun f h => ?_⟩ <;> cases h
          exact ⟨[], c, s, [], rfl, rfl, .done n, hc, bounded_zero_of_best hnone⟩

theorem scanFrom_eq_ok_iff {n : Nat} {s : List Char} {ts : List (Token κ)} :
    scanFrom rules n 0 s = .ok ts ↔ Scans rules n s ts :=
  ⟨(scanFrom_spec rules n s).1 ts, Scans.scanFrom_eq⟩

theorem scan_eq_ok_iff {s : List Char} {ts : List (Token κ)} :
    scan rules s = .ok ts ↔ Scans rules 0 s ts :=
  scanFrom_eq_ok_iff

theorem Scans.unique {n : Nat} {s : List Char} {ts us : List (Token κ)} (h : Scans rules n s ts)
    (h' : Scans rules n s us) : ts = us :=
  Except.ok.inj (h.scanFrom_eq.symm.trans h'.scanFrom_eq)

end Lexical

end Subdomain
