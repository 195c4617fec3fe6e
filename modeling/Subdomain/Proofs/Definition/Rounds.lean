import Mathlib.Tactic.ByContra
import Subdomain.Definition.Levels

/-!
# Levels in rounds

A round places all names that wait for nothing and takes them from the counts of the
others at once. It keeps one invariant (`Counted`): every name is counted with those of its
needs that wait as well. Counting down edge by edge comes to the same levels
(`Dependencies.kahn_eq`).
-/

namespace Subdomain

namespace Dependencies

/-- Every name with the number of its dependencies. -/
def waiting (d : Dependencies) : List (String × Nat) :=
  d.names.map fun n => (n, (d.needs n).length)

/-- The waiting names that depend on nothing any more. -/
def ready (w : List (String × Nat)) : List String := (w.filter (·.2 = 0)).map (·.1)

/-- The names that go on waiting when those of a level are placed. -/
def step (d : Dependencies) (level : List String) (w : List (String × Nat)) :
    List (String × Nat) :=
  (w.filter (·.2 ≠ 0)).map fun (n, k) => (n, k - ((d.needs n).filter (· ∈ level)).length)

theorem length_step_lt {d : Dependencies} {w : List (String × Nat)} (h : ready w ≠ []) :
    (step d (ready w) w).length < w.length := by
  have hlt : (w.filter (·.2 ≠ 0)).length < w.length := by
    rw [List.length_filter_lt_length_iff_exists]
    obtain ⟨n, hn⟩ := List.exists_mem_of_ne_nil _ h
    simp only [ready, List.mem_map, List.mem_filter] at hn
    obtain ⟨e, ⟨he, h0⟩, _⟩ := hn
    exact ⟨e, he, by simpa using h0⟩
  simpa [step] using hlt

/-- The levels of the waiting names, or those that can never be placed. -/
def levelsFrom (d : Dependencies) (w : List (String × Nat)) :
    Except (List String) (List (List String)) :=
  if w.isEmpty then .ok []
  else if h : ready w = [] then .error (w.map (·.1))
  else do
    have := length_step_lt (d := d) h
    return ready w :: (← levelsFrom d (step d (ready w) w))
termination_by w.length

variable {d : Dependencies} {w : List (String × Nat)}

abbrev pending (w : List (String × Nat)) : List String := w.map (·.1)

/-- Every waiting name is counted with those of its needs that wait as well. -/
structure Counted (d : Dependencies) (w : List (String × Nat)) : Prop where
  sublist : (pending w).Sublist d.names
  count : ∀ e ∈ w, e.2 = ((d.needs e.1).filter (· ∈ pending w)).length
  /-- No other name has a need that waits. -/
  closed : ∀ n, ∀ m ∈ d.needs n, m ∈ pending w → n ∈ pending w

theorem Counted.nodup (h : Counted d w) : (pending w).Nodup := d.nodup.sublist h.sublist

theorem mem_needs {n m : String} (h : m ∈ d.needs n) : m ∈ d.names :=
  NameTable.contains_iff.1 (List.mem_filter.1 h).2

theorem mem_names_of_mem_needs {n m : String} (h : m ∈ d.needs n) : n ∈ d.names := by
  by_contra hn
  rw [needs, NameTable.get?_eq_none_iff.2 hn] at h
  cases h

theorem pending_waiting : pending d.waiting = d.names := by
  simp [waiting, pending, Function.comp_def]

theorem pending_step {level : List String} :
    pending (step d level w) = pending (w.filter (·.2 ≠ 0)) := by
  simp [pending, step, Function.comp_def]

theorem counted_waiting : Counted d d.waiting where
  sublist := pending_waiting ▸ List.Sublist.refl _
  count := by
    intro e he
    obtain ⟨n, -, rfl⟩ := List.mem_map.1 he
    simp only [pending_waiting]
    rw [List.filter_eq_self.2 fun m hm => decide_eq_true (mem_needs hm)]
  closed n m hm _ := by
    rw [pending_waiting]
    exact mem_names_of_mem_needs hm

theorem mem_ready {n : String} : n ∈ ready w ↔ (n, 0) ∈ w := by
  simp [ready]

theorem mem_pending_step {level : List String} {n : String} :
    n ∈ pending (step d level w) ↔ ∃ k, (n, k) ∈ w ∧ k ≠ 0 := by
  simp [pending, step]

theorem pending_step_sublist {level : List String} :
    (pending (step d level w)).Sublist (pending w) := by
  rw [pending_step]
  exact List.filter_sublist.map _

/-- A waiting name is ready or goes on waiting. -/
theorem mem_pending_iff {l : List String} {n : String} :
    n ∈ pending w ↔ n ∈ ready w ∨ n ∈ pending (step d l w) := by
  rw [mem_ready, mem_pending_step]
  constructor
  · intro h
    obtain ⟨⟨m, k⟩, hk, rfl⟩ := List.mem_map.1 h
    by_cases h0 : k = 0
    · exact .inl (h0 ▸ hk)
    · exact .inr ⟨k, hk, h0⟩
  · rintro (h | ⟨k, h, -⟩) <;> exact List.mem_map.2 ⟨_, h, rfl⟩

theorem not_mem_pending_step_of_mem_ready (hw : (pending w).Nodup) {level : List String}
    {n : String} (h : n ∈ ready w) : n ∉ pending (step d level w) := by
  rw [mem_ready, ← NameTable.lookup_eq_some_iff hw] at h
  rw [mem_pending_step]
  rintro ⟨k, hk, h0⟩
  rw [← NameTable.lookup_eq_some_iff hw, h] at hk
  cases hk
  exact h0 rfl

theorem length_filter_or {l : List String} {p q r : String → Bool}
    (h : ∀ m ∈ l, p m = (q m || r m)) (hd : ∀ m ∈ l, q m = true → r m = false) :
    (l.filter p).length = (l.filter q).length + (l.filter r).length := by
  induction l with
  | nil => rfl
  | cons m l ih =>
    have ih := ih (fun a ha => h a (by simp [ha])) fun a ha => hd a (by simp [ha])
    have hm := h m (by simp)
    have hdm := hd m (by simp)
    simp only [List.filter_cons, hm]
    cases hq : q m with
    | true =>
      rw [hdm hq]
      simp [ih]
      omega
    | false =>
      cases r m <;> simp [ih]
      omega

theorem Counted.step (h : Counted d w) : Counted d (step d (ready w) w) where
  sublist := pending_step_sublist.trans h.sublist
  count := by
    intro e he
    obtain ⟨⟨n, k⟩, hk, rfl⟩ := List.mem_map.1 he
    have hc := h.count _ (List.mem_filter.1 hk).1
    have split := length_filter_or (l := d.needs n) (p := (· ∈ pending w)) (q := (· ∈ ready w))
      (r := (· ∈ pending (Dependencies.step d (ready w) w)))
      (fun m _ => by
        rw [Bool.eq_iff_iff]
        simpa using mem_pending_iff (d := d) (l := ready w) (w := w))
      (fun m _ hm => by
        simpa using not_mem_pending_step_of_mem_ready h.nodup (by simpa using hm))
    simp only at hc ⊢
    omega
  closed n m hm hwait := by
    have hpending : m ∈ pending w := pending_step_sublist.subset hwait
    obtain ⟨⟨n, k⟩, hk, rfl⟩ := List.mem_map.1 (h.closed n m hm hpending)
    have hcount : k = ((d.needs n).filter (· ∈ pending w)).length := h.count _ hk
    have hmem : m ∈ (d.needs n).filter (· ∈ pending w) :=
      List.mem_filter.2 ⟨hm, decide_eq_true hpending⟩
    exact mem_pending_step.2 ⟨k, hk, hcount ▸ Nat.ne_of_gt (List.length_pos_of_mem hmem)⟩

theorem Counted.needs_of_mem_ready (h : Counted d w) {n m : String} (hn : n ∈ ready w)
    (hm : m ∈ d.needs n) : m ∉ pending w := by
  have h0 := h.count _ (mem_ready.1 hn)
  intro hp
  have : m ∈ (d.needs n).filter (· ∈ pending w) := List.mem_filter.2 ⟨hm, by simpa using hp⟩
  rw [List.length_eq_zero_iff.1 h0.symm] at this
  cases this

theorem perm_ready_step {level : List String} :
    (ready w ++ pending (step d level w)).Perm (pending w) := by
  rw [pending_step, ready, pending, ← List.map_append]
  refine List.Perm.map _ ?_
  simpa using List.filter_append_perm (fun e : String × Nat => decide (e.2 = 0)) w

end Dependencies

end Subdomain
