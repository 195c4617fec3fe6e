import Mathlib.Data.List.Chain
import Mathlib.Logic.Relation
import Subdomain.Proofs.Definition.Order

/-!
# Levels are layers

After `k` levels just those names wait at which a chain of `k` dependencies starts
(`mem_pending_after_iff`). So a name is placed in the level whose number is the
length of its longest chain. The names that are never placed have chains of every
length, and as there are finitely many names they meet a cycle (`levels_layers`).
-/

namespace Subdomain

namespace Dependencies

variable {d : Dependencies} {n m : String} {j k : Nat}

/-! ## Chains -/

/-- The name `n` depends on the name `m` of the table. -/
def DependsOn (d : Dependencies) (n m : String) : Prop :=
  m ∈ d.names ∧ ∃ l, d.get? n = some l ∧ m ∈ l

/-- Some chain of `k` dependencies starts at `n`. -/
def Chain (d : Dependencies) (n : String) (k : Nat) : Prop :=
  ∃ l, (n :: l).IsChain d.DependsOn ∧ l.length = k

/-- The longest chain that starts at `n` has `k` dependencies. -/
def Height (d : Dependencies) (n : String) (k : Nat) : Prop :=
  d.Chain n k ∧ ∀ j, d.Chain n j → j ≤ k

def Acyclic (d : Dependencies) : Prop := ∀ n, ¬ Relation.TransGen d.DependsOn n n

/-- A cycle can be reached from `n` along dependencies. -/
def MeetsCycle (d : Dependencies) (n : String) : Prop :=
  ∃ m, Relation.ReflTransGen d.DependsOn n m ∧ Relation.TransGen d.DependsOn m m

theorem mem_needs_iff : m ∈ d.needs n ↔ d.DependsOn n m := by
  rw [needs, List.mem_filter, NameTable.contains_iff, List.mem_eraseDups, DependsOn, and_comm]
  cases d.get? n <;> simp

theorem chain_zero : d.Chain n 0 := ⟨[], .singleton n, rfl⟩

theorem chain_succ_iff : d.Chain n (k + 1) ↔ ∃ m, d.DependsOn n m ∧ d.Chain m k := by
  constructor
  · rintro ⟨_ | ⟨m, l⟩, hl, hlen⟩
    · cases hlen
    · obtain ⟨hnm, hl⟩ := List.isChain_cons_cons.1 hl
      exact ⟨m, hnm, l, hl, Nat.succ.inj hlen⟩
  · rintro ⟨m, hnm, l, hl, rfl⟩
    exact ⟨m :: l, List.isChain_cons_cons.2 ⟨hnm, hl⟩, rfl⟩

theorem Chain.of_succ (h : d.Chain n (k + 1)) : d.Chain n k := by
  induction k generalizing n with
  | zero => exact chain_zero
  | succ k ih =>
    obtain ⟨m, hnm, hm⟩ := chain_succ_iff.1 h
    exact chain_succ_iff.2 ⟨m, hnm, ih hm⟩

theorem Chain.mono (h : d.Chain n k) (hjk : j ≤ k) : d.Chain n j := by
  induction hjk with
  | refl => exact h
  | step _ ih => exact ih h.of_succ

theorem height_iff : d.Height n k ↔ d.Chain n k ∧ ¬ d.Chain n (k + 1) := by
  refine and_congr_right fun _ => ⟨fun h hk => ?_, fun h j hj => ?_⟩
  · exact absurd (h _ hk) (Nat.not_succ_le_self k)
  · by_contra hjk
    exact h (hj.mono (Nat.lt_of_not_le hjk))

/-! ## Cycles -/

theorem Chain.of_transGen (h : Relation.TransGen d.DependsOn n m) (hm : d.Chain m k) :
    d.Chain n (k + 1) := by
  induction h using Relation.TransGen.head_induction_on with
  | single hnm => exact chain_succ_iff.2 ⟨m, hnm, hm⟩
  | head hnl _ ih => exact chain_succ_iff.2 ⟨_, hnl, ih.of_succ⟩

theorem MeetsCycle.chain (h : d.MeetsCycle n) (k : Nat) : d.Chain n k := by
  obtain ⟨m, hreach, hcycle⟩ := h
  have hm : d.Chain m k := by
    induction k with
    | zero => exact chain_zero
    | succ k ih => exact ih.of_transGen hcycle
  obtain rfl | hreach := Relation.reflTransGen_iff_eq_or_transGen.1 hreach
  · exact hm
  · exact (hm.of_transGen hreach).of_succ

/-- A chain as long as there are names has a name twice. -/
theorem meetsCycle_of_chain (hn : n ∈ d.names) (h : d.Chain n d.names.length) :
    d.MeetsCycle n := by
  obtain ⟨l, hl, hlen⟩ := h
  by_contra hnot
  have hpairs : (n :: l).Pairwise (Relation.TransGen d.DependsOn) :=
    (hl.imp fun _ _ => Relation.TransGen.single).pairwise
  have hreach : ∀ m ∈ n :: l, Relation.ReflTransGen d.DependsOn n m := by
    intro m hm
    obtain rfl | hm := List.mem_cons.1 hm
    · exact .refl
    · exact ((List.pairwise_cons.1 hpairs).1 m hm).to_reflTransGen
  have hnodup : (n :: l).Nodup := by
    refine hpairs.imp_of_mem fun {a b} ha _ hab hne => ?_
    subst hne
    exact hnot ⟨a, hreach a ha, hab⟩
  have hsub : n :: l ⊆ d.names := by
    intro m hm
    obtain rfl | hreach := Relation.ReflTransGen.cases_tail (hreach m hm)
    · exact hn
    · obtain ⟨_, -, hlast⟩ := hreach
      exact hlast.1
  have hle := hnodup.length_le_of_subset hsub
  rw [List.length_cons, hlen] at hle
  exact Nat.not_succ_le_self _ hle

/-! ## The names that wait -/

/-- The waiting names when the first levels are placed. -/
def after (d : Dependencies) : Nat → List (String × Nat)
  | 0 => d.waiting
  | k + 1 => step d (ready (d.after k)) (d.after k)

theorem counted_after (k : Nat) : Counted d (d.after k) := by
  induction k with
  | zero => exact counted_waiting
  | succ k ih => exact ih.step

/-- A waiting name goes on waiting if one of its needs waits as well. -/
theorem Counted.mem_pending_step_iff {w : List (String × Nat)} (h : Counted d w) :
    n ∈ pending (Dependencies.step d (ready w) w) ↔
      n ∈ pending w ∧ ∃ m ∈ d.needs n, m ∈ pending w := by
  have hcount {c : Nat} (hc : (n, c) ∈ w) : c ≠ 0 ↔ ∃ m ∈ d.needs n, m ∈ pending w := by
    have hn : c = ((d.needs n).filter (· ∈ pending w)).length := h.count _ hc
    rw [hn, ← Nat.pos_iff_ne_zero, List.length_filter_pos_iff]
    simp
  rw [mem_pending_step]
  constructor
  · rintro ⟨c, hc, h0⟩
    exact ⟨List.mem_map.2 ⟨_, hc, rfl⟩, (hcount hc).1 h0⟩
  · rintro ⟨hn, hneeds⟩
    obtain ⟨⟨_, c⟩, hc, rfl⟩ := List.mem_map.1 hn
    exact ⟨c, hc, (hcount hc).2 hneeds⟩

theorem mem_pending_after_iff : n ∈ pending (d.after k) ↔ n ∈ d.names ∧ d.Chain n k := by
  induction k generalizing n with
  | zero =>
    rw [after, pending_waiting]
    exact (and_iff_left chain_zero).symm
  | succ k ih =>
    rw [after, (counted_after k).mem_pending_step_iff, ih, chain_succ_iff]
    constructor
    · rintro ⟨⟨hn, -⟩, m, hm, hwait⟩
      exact ⟨hn, m, mem_needs_iff.1 hm, (ih.1 hwait).2⟩
    · rintro ⟨hn, m, hnm, hm⟩
      have hk : d.Chain n k := (chain_succ_iff.2 ⟨m, hnm, hm⟩).of_succ
      exact ⟨⟨hn, hk⟩, m, mem_needs_iff.2 hnm, ih.2 ⟨hnm.1, hm⟩⟩

theorem mem_ready_after_iff : n ∈ ready (d.after k) ↔ n ∈ d.names ∧ d.Height n k := by
  have hor := mem_pending_iff (d := d) (w := d.after k) (l := ready (d.after k)) (n := n)
  have hnot : n ∈ ready (d.after k) → n ∉ pending (d.after (k + 1)) :=
    not_mem_pending_step_of_mem_ready (counted_after k).nodup
  rw [← after, mem_pending_after_iff, mem_pending_after_iff] at hor
  rw [mem_pending_after_iff] at hnot
  rw [height_iff]
  tauto

theorem ready_after_sublist : (ready (d.after k)).Sublist d.names :=
  (List.filter_sublist.map _).trans (counted_after k).sublist

/-! ## The levels -/

/-- A level is what is ready when those before it are placed, and nothing waits at the end. -/
theorem levelsFrom_after_eq_ok {ls : List (List String)} (h : levelsFrom d (d.after k) = .ok ls) :
    (∀ i level, ls[i]? = some level → level = ready (d.after (k + i))) ∧
      d.after (k + ls.length) = [] := by
  obtain ⟨w, hw⟩ : ∃ w, d.after k = w := ⟨_, rfl⟩
  rw [hw] at h
  induction w using levelsFrom.induct d generalizing k ls with
  | case1 w he =>
    rw [levelsFrom, if_pos he] at h
    cases h
    exact ⟨fun i level hi => by simp at hi, hw.trans (by simpa using he)⟩
  | case2 w he hr =>
    rw [levelsFrom, if_neg he, dif_pos hr] at h
    cases h
  | case3 w he hr _ ih =>
    rw [levelsFrom, if_neg he, dif_neg hr] at h
    cases hrest : levelsFrom d (step d (ready w) w) with
    | error e => rw [hrest] at h; cases h
    | ok rest =>
      rw [hrest] at h
      cases h
      have hnext : d.after (k + 1) = step d (ready w) w := by rw [after, hw]
      obtain ⟨hlevels, hend⟩ := ih hrest hnext
      refine ⟨fun i level hi => ?_, ?_⟩
      · cases i with
        | zero =>
          cases hi
          rw [Nat.add_zero, hw]
        | succ i =>
          rw [Nat.add_comm i, ← Nat.add_assoc]
          exact hlevels i level hi
      · rw [List.length_cons, Nat.add_comm _ 1, ← Nat.add_assoc]
        exact hend

/-- If there are no levels, some names wait of which none is ready. -/
theorem levelsFrom_after_eq_error {names : List String}
    (h : levelsFrom d (d.after k) = .error names) :
    ∃ j, names = pending (d.after j) ∧ names ≠ [] ∧ ready (d.after j) = [] := by
  obtain ⟨w, hw⟩ : ∃ w, d.after k = w := ⟨_, rfl⟩
  rw [hw] at h
  induction w using levelsFrom.induct d generalizing k with
  | case1 w he =>
    rw [levelsFrom, if_pos he] at h
    cases h
  | case2 w he hr =>
    rw [levelsFrom, if_neg he, dif_pos hr] at h
    cases h
    refine ⟨k, by rw [hw], fun hnil => he ?_, hw ▸ hr⟩
    simpa using hnil
  | case3 w he hr _ ih =>
    rw [levelsFrom, if_neg he, dif_neg hr] at h
    cases hrest : levelsFrom d (step d (ready w) w) with
    | ok rest => rw [hrest] at h; cases h
    | error e =>
      rw [hrest] at h
      cases h
      have hnext : d.after (k + 1) = step d (ready w) w := by rw [after, hw]
      exact ih hrest hnext

/-- If none of the waiting names is ready, those that wait have chains of every length. -/
theorem meetsCycle_iff_of_ready_eq_nil (h : ready (d.after k) = []) :
    n ∈ pending (d.after k) ↔ n ∈ d.names ∧ d.MeetsCycle n := by
  have hgrow : ∀ i, ∀ n ∈ d.names, d.Chain n k → d.Chain n (k + i) := by
    intro i
    induction i with
    | zero => exact fun _ _ hn => hn
    | succ i ih =>
      intro n hn hk
      have hnext : d.Chain n (k + 1) := by
        by_contra hlast
        have hready : n ∈ ready (d.after k) := mem_ready_after_iff.2 ⟨hn, height_iff.2 ⟨hk, hlast⟩⟩
        rw [h] at hready
        cases hready
      obtain ⟨m, hnm, hm⟩ := chain_succ_iff.1 hnext
      exact chain_succ_iff.2 ⟨m, hnm, ih m hnm.1 hm⟩
  rw [mem_pending_after_iff]
  refine and_congr_right fun hn => ⟨fun hk => ?_, fun hcycle => hcycle.chain k⟩
  have hlong := (hgrow d.names.length n hn hk).mono (Nat.le_add_left d.names.length k)
  exact meetsCycle_of_chain hn hlong

/-- What the levels of an acyclic table hold. -/
structure Layers (d : Dependencies) (ls : List (List String)) : Prop where
  /-- Every name is in just one level, and there once. -/
  perm : ls.flatten.Perm d.names
  height : ∀ i level, ls[i]? = some level → ∀ n ∈ level, d.Height n i
  behind : ∀ (i j : Nat) (level level' : List String), ls[i]? = some level →
    ls[j]? = some level' → ∀ n ∈ level, ∀ m ∈ level', d.DependsOn n m → j < i
  /-- Inside a level the names keep their order. -/
  sublist : ∀ level ∈ ls, level.Sublist d.names

theorem layers_of_levels {ls : List (List String)} (h : d.levels = .ok ls) : d.Layers ls := by
  obtain ⟨hlevels, -⟩ := levelsFrom_after_eq_ok (k := 0) (levels_eq.symm.trans h)
  have hheight : ∀ i level, ls[i]? = some level → ∀ n ∈ level, d.Height n i := by
    intro i level hi n hn
    rw [hlevels i level hi, mem_ready_after_iff, Nat.zero_add] at hn
    exact hn.2
  refine ⟨(levels_eq_ok h).1, hheight, ?_, fun level hl => ?_⟩
  · intro i j level level' hi hj n hn m hm hnm
    obtain ⟨hchain, -⟩ := hheight j level' hj m hm
    exact (hheight i level hi n hn).2 (j + 1) (chain_succ_iff.2 ⟨m, hnm, hchain⟩)
  · obtain ⟨i, hi⟩ := List.mem_iff_getElem?.1 hl
    rw [hlevels i level hi]
    exact ready_after_sublist

theorem acyclic_of_levels {ls : List (List String)} (h : d.levels = .ok ls) : d.Acyclic := by
  intro n hcycle
  obtain ⟨-, hend⟩ := levelsFrom_after_eq_ok (k := 0) (levels_eq.symm.trans h)
  have hn : n ∈ d.names := by
    obtain ⟨_, -, hlast⟩ := Relation.TransGen.tail'_iff.1 hcycle
    exact hlast.1
  have hchain : d.Chain n (0 + ls.length) := MeetsCycle.chain ⟨n, .refl, hcycle⟩ _
  have hwait : n ∈ pending (d.after (0 + ls.length)) := mem_pending_after_iff.2 ⟨hn, hchain⟩
  rw [hend] at hwait
  cases hwait

theorem levels_eq_error {names : List String} (h : d.levels = .error names) :
    ¬ d.Acyclic ∧ names.Sublist d.names ∧ ∀ n, n ∈ names ↔ n ∈ d.names ∧ d.MeetsCycle n := by
  obtain ⟨j, rfl, hne, hready⟩ := levelsFrom_after_eq_error (k := 0) (levels_eq.symm.trans h)
  have hmem := fun n => meetsCycle_iff_of_ready_eq_nil (n := n) hready
  obtain ⟨n, hn⟩ := List.exists_mem_of_ne_nil _ hne
  obtain ⟨-, m, -, hcycle⟩ := (hmem n).1 hn
  exact ⟨fun hacyclic => hacyclic m hcycle, (counted_after j).sublist, hmem⟩

/-- No level takes more from the count of a name than is left of it; a placed name counts zero. -/
theorem length_placed_le :
    ((d.needs n).filter (· ∈ ready (d.after k))).length ≤ ((d.after k).lookup n).getD 0 := by
  by_cases hwait : n ∈ pending (d.after k)
  · obtain ⟨⟨n, c⟩, hc, rfl⟩ := List.mem_map.1 hwait
    have hcount : c = ((d.needs n).filter (· ∈ pending (d.after k))).length :=
      (counted_after k).count _ hc
    rw [(NameTable.lookup_eq_some_iff (counted_after k).nodup).2 hc, Option.getD_some, hcount]
    refine (List.monotone_filter_right _ fun m hm => ?_).length_le
    have hready : m ∈ ready (d.after k) := of_decide_eq_true hm
    exact decide_eq_true ((mem_pending_iff (d := d) (l := [])).2 (.inl hready))
  · have hnone : (d.needs n).filter (· ∈ ready (d.after k)) = [] := by
      rw [List.filter_eq_nil_iff]
      intro m hm hready
      have hm' := (mem_pending_iff (d := d) (l := [])).2 (.inl (of_decide_eq_true hready))
      exact hwait ((counted_after k).closed n m hm hm')
    rw [hnone]
    exact Nat.zero_le _

/-- The levels of an acyclic table are layers: each name is in the level whose number is the
length of its longest chain of dependencies, in the order of the table. Otherwise the names that
meet a cycle are reported, in that order. Counting down never goes below zero: no count is zero
when it is to go down by one, and no level takes more from a count than is left of it. -/
theorem levels_layers (d : Dependencies) :
    ((d.Acyclic ∧ ∃ ls, d.levels = .ok ls ∧ d.Layers ls) ∨
      (¬ d.Acyclic ∧ ∃ names, d.levels = .error names ∧ names.Sublist d.names ∧
        ∀ n, n ∈ names ↔ n ∈ d.names ∧ d.MeetsCycle n)) ∧
    d.kahn = some d.levels ∧
    ∀ k, ∀ n ∈ d.names,
      ((d.needs n).filter (· ∈ ready (d.after k))).length ≤ ((d.after k).lookup n).getD 0 := by
  refine ⟨?_, d.kahn_eq.trans (congrArg some levels_eq.symm), fun _ _ _ => length_placed_le⟩
  cases hlevels : d.levels with
  | ok ls => exact .inl ⟨acyclic_of_levels hlevels, ls, rfl, layers_of_levels hlevels⟩
  | error names =>
    obtain ⟨hcyclic, hsub, hmem⟩ := levels_eq_error hlevels
    exact .inr ⟨hcyclic, names, rfl, hsub, hmem⟩

example : levels (.ofList [("c", ["a", "b", "a"]), ("d", []), ("a", []), ("b", ["a", "none"])]) =
    .ok [["d", "a"], ["b"], ["c"]] := by
  decide +kernel

end Dependencies

end Subdomain
