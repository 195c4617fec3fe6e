import Mathlib.Data.List.Nodup
import Subdomain.Proofs.Definition.Rounds

/-!
# Counting down edge by edge

While the names of a level are placed one by one, every count is the number of needs that
are not placed yet (`foldlM_place`). So a count is never zero when it is to go down, and the
names whose count comes to zero are those that are ready in the next round: counting down
edge by edge places the names in the levels of the rounds (`kahn_eq`).
-/

namespace Subdomain

theorem nodup_eraseDups : ∀ l : List String, l.eraseDups.Nodup
  | [] => by simp
  | a :: l => by
    have hlength : (l.filter fun b => !b == a).length < l.length + 1 :=
      Nat.lt_succ_of_le (List.length_filter_le _ _)
    rw [List.eraseDups_cons, List.nodup_cons]
    exact ⟨by simp, nodup_eraseDups _⟩
termination_by l => l.length

namespace Dependencies

variable {d : Dependencies} {w : List (String × Nat)} {c : String → Nat} {p : String → Bool}
  {l u : List String} {n m : String} {k : Nat}

theorem nodup_names : d.names.Nodup := d.nodup

theorem nodup_needs : (d.needs n).Nodup := (nodup_eraseDups _).filter _

/-! ## Tables of counts -/

/-- The table in which every name `n` has the count `c n`. -/
def tally (d : Dependencies) (c : String → Nat) : NameTable Nat := d.mapValues fun n _ => c n

theorem get?_tally (hn : n ∈ d.names) : (d.tally c).get? n = some (c n) := by
  obtain ⟨v, hv⟩ := NameTable.exists_get?_of_mem_names hn
  rw [tally, NameTable.get?_mapValues, hv]
  rfl

theorem put_map_entries {es : List (String × List String)} (hes : (es.map (·.1)).Nodup)
    (hn : n ∈ es.map (·.1)) : NameTable.put n k (es.map fun e => (e.1, c e.1)) =
      es.map fun e => (e.1, if e.1 = n then k else c e.1) := by
  induction es with
  | nil => cases hn
  | cons e es ih =>
    obtain ⟨hfresh, hes⟩ := List.nodup_cons.1 hes
    rw [List.map_cons, List.map_cons, NameTable.put]
    by_cases he : e.1 = n
    · have hrest : ∀ e' ∈ es, (e'.1, c e'.1) = (e'.1, if e'.1 = n then k else c e'.1) := by
        intro e' he'
        rw [if_neg fun hsame => hfresh (List.mem_map.2 ⟨e', he', hsame.trans he.symm⟩)]
      rw [if_pos he, if_pos he, List.map_congr_left hrest, he]
    · rw [if_neg he, if_neg he, ih hes ((List.mem_cons.1 hn).resolve_left (Ne.symm he))]

theorem insert_tally (hn : n ∈ d.names) :
    (d.tally c).insert n k = d.tally fun m => if m = n then k else c m := by
  rw [NameTable.insert, tally, NameTable.mk.injEq]
  exact put_map_entries d.nodup hn

theorem tick_tally (hn : n ∈ d.names) (hc : 0 < c n) : Countdown.tick ⟨d.tally c, u⟩ n =
    some ⟨d.tally fun m => if m = n then c n - 1 else c m,
      u ++ [n].filter (c · = 1)⟩ := by
  obtain ⟨k, hk⟩ := Nat.exists_eq_succ_of_ne_zero (Nat.ne_of_gt hc)
  have hget : (d.tally c).get? n = some (k + 1) := (get?_tally hn).trans (congrArg some hk)
  simp only [Countdown.tick, hget, insert_tally hn, hk]
  by_cases h : k = 0 <;> simp [h, hk]

/-- Counting down the names of a list. -/
theorem foldlM_tick (hl : l.Nodup) (hc : ∀ n ∈ l, n ∈ d.names ∧ 0 < c n) :
    l.foldlM Countdown.tick ⟨d.tally c, u⟩ =
      some ⟨d.tally fun n => if n ∈ l then c n - 1 else c n, u ++ l.filter (c · = 1)⟩ := by
  induction l generalizing c u with
  | nil => simp
  | cons a l ih =>
    obtain ⟨ha, hl⟩ := List.nodup_cons.1 hl
    obtain ⟨hmem, hpos⟩ := hc a List.mem_cons_self
    have hother : ∀ n ∈ l, (if n = a then c a - 1 else c n) = c n := fun n hn =>
      if_neg fun (h : n = a) => ha (h ▸ hn)
    have htable : (fun n => if n ∈ l then (if n = a then c a - 1 else c n) - 1
        else if n = a then c a - 1 else c n) =
        fun n => if n ∈ a :: l then c n - 1 else c n := by
      funext n
      by_cases hn : n = a
      · simp [hn, ha]
      · simp [hn]
    have hnext : l.filter (fun n => (if n = a then c a - 1 else c n) = 1) =
        l.filter (c · = 1) := List.filter_congr fun n hn => by rw [hother n hn]
    have hrest : ∀ n ∈ l, n ∈ d.names ∧ 0 < if n = a then c a - 1 else c n := fun n hn => by
      rw [hother n hn]
      exact hc n (List.mem_cons_of_mem a hn)
    rw [List.foldlM_cons, tick_tally hmem hpos, Option.bind_eq_bind, Option.bind_some,
      ih hl hrest, htable, hnext, List.append_assoc, ← List.filter_append, List.singleton_append]

theorem names_filter_tally {q : Nat → Bool} :
    ((d.tally c).entries.filter (q ·.2)).map (·.1) = d.names.filter (q <| c ·) := by
  simp [tally, NameTable.mapValues, NameTable.names, List.filter_map, Function.comp_def]

/-! ## Dependents -/

theorem getD_foldl_addDependent {t : NameTable (List String)} (hl : l.Nodup) :
    ((l.foldl (addDependent n) t).get? m).getD [] =
      (t.get? m).getD [] ++ if m ∈ l then [n] else [] := by
  induction l generalizing t with
  | nil => simp
  | cons a l ih =>
    obtain ⟨ha, hl⟩ := List.nodup_cons.1 hl
    rw [List.foldl_cons, ih hl, addDependent, NameTable.get?_insert]
    by_cases hm : m = a
    · simp [hm, ha]
    · simp [hm]

/-- The dependents of a name stand in the order of the table. -/
theorem getD_dependents :
    (d.dependents.get? m).getD [] = d.names.filter (m ∈ d.needs ·) := by
  have hgo (ns : List String) (t : NameTable (List String)) :
      ((ns.foldl (fun t n => (d.needs n).foldl (addDependent n) t) t).get? m).getD [] =
        (t.get? m).getD [] ++ ns.filter (m ∈ d.needs ·) := by
    induction ns generalizing t with
    | nil => simp
    | cons n ns ih =>
      rw [List.foldl_cons, ih, getD_foldl_addDependent nodup_needs, List.filter_cons]
      by_cases hm : m ∈ d.needs n <;> simp [hm]
  exact hgo d.names .empty

/-! ## Levels -/

/-- The number of needs of a name that satisfy `p`. -/
def left (d : Dependencies) (p : String → Bool) (n : String) : Nat := ((d.needs n).filter p).length

theorem left_eq_add (hp : p m = true) :
    d.left p n = d.left (fun a => p a && a ≠ m) n + if m ∈ d.needs n then 1 else 0 := by
  have hone : ((d.needs n).filter (· == m)).length = if m ∈ d.needs n then 1 else 0 := by
    rw [← List.count_eq_length_filter, nodup_needs.count]
  rw [← hone]
  refine length_filter_or (fun a _ => ?_) fun a _ ha => ?_
  · by_cases ham : a = m <;> simp [ham, hp]
  · simpa using (Bool.and_eq_true_iff.1 ha).2

theorem left_mono {q : String → Bool} (h : ∀ a, q a = true → p a = true) :
    d.left q n ≤ d.left p n :=
  (List.monotone_filter_right _ h).length_le

/-- The names that `m` is the last need of. -/
def freed (d : Dependencies) (p : String → Bool) (m : String) : List String :=
  (d.names.filter (m ∈ d.needs ·)).filter (d.left p · = 1)

theorem nodup_freed : (d.freed p m).Nodup := (nodup_names.filter _).filter _

theorem mem_freed (hp : p m = true) : n ∈ d.freed p m ↔
    n ∈ d.names ∧ 0 < d.left p n ∧ d.left (fun a => p a && a ≠ m) n = 0 := by
  have hadd := left_eq_add (d := d) (n := n) hp
  simp only [freed, List.mem_filter, decide_eq_true_eq, and_assoc]
  by_cases hn : m ∈ d.needs n
  · rw [if_pos hn] at hadd
    simp only [hn, true_and, hadd, Nat.add_eq_right, Nat.succ_pos]
  · rw [if_neg hn] at hadd
    simp only [hn, false_and, and_false, hadd, Nat.add_zero, false_iff]
    omega

/-- Placing a name counts its dependents down. -/
theorem foldlM_dependents (hp : p m = true) :
    ((d.dependents.get? m).getD []).foldlM Countdown.tick ⟨d.tally (d.left p), u⟩ =
      some ⟨d.tally (d.left fun a => p a && a ≠ m), u ++ d.freed p m⟩ := by
  have hadd (n : String) := left_eq_add (d := d) (n := n) hp
  -- a dependent of `m` is counted for `m`, which is not placed yet
  have hdependents : ∀ n ∈ d.names.filter (m ∈ d.needs ·), n ∈ d.names ∧ 0 < d.left p n := by
    intro n hn
    obtain ⟨hn, hneeds⟩ := List.mem_filter.1 hn
    rw [hadd, if_pos (of_decide_eq_true hneeds)]
    exact ⟨hn, Nat.succ_pos _⟩
  have hcounts : (fun n => if n ∈ d.names.filter (m ∈ d.needs ·) then d.left p n - 1
      else d.left p n) = d.left fun a => p a && a ≠ m := by
    funext n
    have hnames : m ∈ d.needs n → n ∈ d.names := mem_names_of_mem_needs
    by_cases hn : m ∈ d.needs n <;> simp [hadd, hn, hnames]
  rw [getD_dependents, foldlM_tick (nodup_names.filter _) hdependents, hcounts, freed]

/-- Placing the names of a level counts every name down to the needs that are not placed yet. -/
theorem foldlM_place (hl : l.Nodup) (hp : ∀ m ∈ l, p m = true) :
    let q := fun a => p a && a ∉ l
    ∃ fresh, l.foldlM (fun s n => ((d.dependents.get? n).getD []).foldlM Countdown.tick s)
        ⟨d.tally (d.left p), u⟩ = some ⟨d.tally (d.left q), u ++ fresh⟩ ∧
      fresh.Nodup ∧ ∀ n, n ∈ fresh ↔ n ∈ d.names ∧ 0 < d.left p n ∧ d.left q n = 0 := by
  intro q
  induction l generalizing p u with
  | nil =>
    have hq : q = p := by simp [q]
    exact ⟨[], by simp [hq], .nil, fun n => by simp [hq]; omega⟩
  | cons m l ih =>
    obtain ⟨hm, hl⟩ := List.nodup_cons.1 hl
    have hpm := hp m List.mem_cons_self
    have hrest : ∀ a ∈ l, (p a && decide (a ≠ m)) = true := by
      intro a ha
      have hne : a ≠ m := fun h => hm (h ▸ ha)
      rw [hp a (List.mem_cons_of_mem m ha), decide_eq_true hne, Bool.true_and]
    have hq : (fun a => (p a && a ≠ m) && a ∉ l) = q := by
      funext a
      simp [q, Bool.and_assoc]
    obtain ⟨fresh, hfresh, hnodup, hmem⟩ := ih (u := u ++ d.freed p m) hl hrest
    rw [hq] at hfresh hmem
    refine ⟨d.freed p m ++ fresh, ?_, ?_, fun n => ?_⟩
    · rw [List.foldlM_cons, foldlM_dependents hpm, Option.bind_eq_bind, Option.bind_some, hfresh,
        List.append_assoc]
    · refine List.nodup_append.2 ⟨nodup_freed, hnodup, ?_⟩
      rintro n hn _ hn' rfl
      have hzero := ((mem_freed hpm).1 hn).2.2
      have hpos := ((hmem n).1 hn').2.1
      omega
    · have hle : d.left (fun a => p a && a ≠ m) n ≤ d.left p n :=
        left_mono fun a ha => (Bool.and_eq_true_iff.1 ha).1
      have hle' : d.left q n ≤ d.left (fun a => p a && a ≠ m) n := by
        rw [← hq]
        exact left_mono fun a ha => (Bool.and_eq_true_iff.1 ha).1
      rw [List.mem_append, hmem, mem_freed hpm, ← and_or_left]
      refine and_congr_right fun _ => ?_
      omega

/-- Sorting by the places in the table gives the names of a level in the order of the table. -/
theorem sortBy_idxOf {l' : List String} (hl : l.Sublist d.names) (hp : l'.Perm l) :
    sortBy d.names.idxOf l' = l := by
  have hplaces : d.names.Pairwise (d.names.idxOf · ≤ d.names.idxOf ·) := by
    refine List.pairwise_iff_getElem.2 fun i j hi hj hij => ?_
    rw [nodup_names.idxOf_getElem i hi, nodup_names.idxOf_getElem j hj]
    exact Nat.le_of_lt hij
  have hperm : (sortBy d.names.idxOf l').Perm l := (perm_sortBy l').trans hp
  refine hperm.eq_of_pairwise (fun a b ha _ hab hba => ?_) (pairwise_sortBy l') (hplaces.sublist hl)
  exact (List.idxOf_inj (hl.subset (hperm.mem_iff.1 ha))).1 (Nat.le_antisymm hab hba)

/-! ## The loop -/

/-- What is ready after a level are the names whose count it brings to zero. -/
theorem Counted.mem_ready_step_iff (h : Counted d w) :
    n ∈ ready (Dependencies.step d (ready w) w) ↔ n ∈ d.names ∧ 0 < d.left (· ∈ pending w) n ∧
      d.left (· ∈ pending (Dependencies.step d (ready w) w)) n = 0 := by
  rw [mem_ready]
  constructor
  · intro hn
    obtain ⟨k, hk, h0⟩ := mem_pending_step.1 (List.mem_map.2 ⟨_, hn, rfl⟩)
    have hcount : k = d.left (· ∈ pending w) n := h.count _ hk
    exact ⟨h.sublist.subset (List.mem_map.2 ⟨_, hk, rfl⟩), hcount ▸ Nat.pos_of_ne_zero h0,
      (h.step.count _ hn).symm⟩
  · rintro ⟨hn, hpos, hzero⟩
    obtain ⟨m, hm⟩ := List.exists_mem_of_length_pos hpos
    obtain ⟨hneeds, hwait⟩ := List.mem_filter.1 hm
    obtain ⟨⟨n, k⟩, hk, rfl⟩ := List.mem_map.1 (h.closed n m hneeds (of_decide_eq_true hwait))
    have hcount : k = d.left (· ∈ pending w) n := h.count _ hk
    have hmem : n ∈ pending (Dependencies.step d (ready w) w) :=
      mem_pending_step.2 ⟨k, hk, hcount ▸ Nat.ne_of_gt hpos⟩
    obtain ⟨⟨n, j⟩, hj, rfl⟩ := List.mem_map.1 hmem
    have hj0 : j = 0 := (h.step.count _ hj).trans hzero
    exact hj0 ▸ hj

/-- Placing the names that are ready gives the counts and the names of the next round. -/
theorem Counted.exists_place (h : Counted d w) :
    ∃ fresh, Countdown.place ⟨d.tally (d.left (· ∈ pending w)), u⟩ d.dependents (ready w) =
        some ⟨d.tally (d.left (· ∈ pending (Dependencies.step d (ready w) w))), fresh⟩ ∧
      fresh.Perm (ready (Dependencies.step d (ready w) w)) := by
  have hnodup : (ready w).Nodup := h.nodup.sublist (List.filter_sublist.map _)
  obtain ⟨fresh, hplace, hfresh, hmem⟩ := foldlM_place (d := d) (p := (· ∈ pending w))
    (u := []) hnodup fun m hm => decide_eq_true (mem_pending_iff (d := d) (l := []).2 (.inl hm))
  have hpending : (fun a => decide (a ∈ pending w) && decide (a ∉ ready w)) =
      fun a => decide (a ∈ pending (Dependencies.step d (ready w) w)) := by
    funext a
    have hor := mem_pending_iff (d := d) (w := w) (l := ready w) (n := a)
    have hnot : a ∈ ready w → a ∉ pending (Dependencies.step d (ready w) w) :=
      not_mem_pending_step_of_mem_ready h.nodup
    rw [← Bool.decide_and, decide_eq_decide]
    tauto
  rw [hpending] at hplace hmem
  refine ⟨fresh, hplace, (List.perm_ext_iff_of_nodup hfresh ?_).2 fun n => ?_⟩
  · exact h.step.nodup.sublist (List.filter_sublist.map _)
  · rw [hmem, h.mem_ready_step_iff]

/-- If nothing is ready, the names with a count are those that wait. -/
theorem Counted.positive_tally (h : Counted d w) (hr : ready w = []) :
    ((d.tally (d.left (· ∈ pending w))).entries.filter (0 < ·.2)).map (·.1) = pending w := by
  have hmem (n : String) :
      n ∈ d.names.filter (0 < d.left (· ∈ pending w) ·) ↔ n ∈ pending w := by
    rw [List.mem_filter, decide_eq_true_eq]
    constructor
    · rintro ⟨-, hpos⟩
      obtain ⟨m, hm⟩ := List.exists_mem_of_length_pos hpos
      obtain ⟨hneeds, hwait⟩ := List.mem_filter.1 hm
      exact h.closed n m hneeds (of_decide_eq_true hwait)
    · intro hn
      obtain ⟨⟨n, k⟩, hk, rfl⟩ := List.mem_map.1 hn
      have hcount : k = d.left (· ∈ pending w) n := h.count _ hk
      refine ⟨h.sublist.subset hn, hcount ▸ Nat.pos_of_ne_zero fun h0 => ?_⟩
      have hready : n ∈ ready w := mem_ready.2 (h0 ▸ hk)
      rw [hr] at hready
      cases hready
  have hperm : (d.names.filter (0 < d.left (· ∈ pending w) ·)).Perm (pending w) :=
    (List.perm_ext_iff_of_nodup (nodup_names.filter _) h.nodup).2 hmem
  rw [names_filter_tally (q := fun k => decide (0 < k))]
  exact (sortBy_idxOf List.filter_sublist (.refl _)).symm.trans (sortBy_idxOf h.sublist hperm)

theorem placeFrom_of_place {dependents : NameTable (List String)} {s s' : Countdown}
    {level : List String} {placed : Nat} {levels : List (List String)} (hs : s.next ≠ [])
    (hlevel : sortBy d.names.idxOf s.next = level) (h : s.place dependents level = some s') :
    d.placeFrom dependents s placed levels =
      d.placeFrom dependents s' (placed + level.length) (levels ++ [level]) := by
  subst hlevel
  rw [placeFrom, dif_neg hs]
  dsimp only
  split
  · rename_i hnone
    cases h.symm.trans hnone
  · rename_i t ht
    cases h.symm.trans ht
    rfl

theorem placeFrom_eq (h : Counted d w) (hnext : u.Perm (ready w)) {placed : Nat}
    (hplaced : placed + w.length = d.size) (levels : List (List String)) :
    d.placeFrom d.dependents ⟨d.tally (d.left (· ∈ pending w)), u⟩ placed levels =
      some ((levelsFrom d w).map (levels ++ ·)) := by
  induction w using levelsFrom.induct d generalizing u placed levels with
  | case1 w he =>
    obtain rfl : w = [] := List.isEmpty_iff.1 he
    obtain rfl : u = [] := hnext.eq_nil
    rw [placeFrom, dif_pos rfl, if_pos (by exact hplaced), levelsFrom, if_pos he, Except.map,
      List.append_nil]
  | case2 w he hr =>
    obtain rfl : u = [] := (hr ▸ hnext).eq_nil
    have hrest : w.length ≠ 0 := fun h0 => he (List.isEmpty_iff.2 (List.length_eq_zero_iff.1 h0))
    rw [placeFrom, dif_pos rfl, if_neg (by omega), h.positive_tally hr, levelsFrom, if_neg he,
      dif_pos hr, Except.map]
  | case3 w he hr _ ih =>
    have hne : u ≠ [] := fun hnil => hr (hnil ▸ hnext).symm.eq_nil
    have hlevel : sortBy d.names.idxOf u = ready w :=
      sortBy_idxOf ((List.filter_sublist.map _).trans h.sublist) hnext
    obtain ⟨fresh, hplace, hfresh⟩ := h.exists_place (u := u)
    have hparts : (ready w ++ pending (Dependencies.step d (ready w) w)).Perm (pending w) :=
      perm_ready_step
    have hlength := hparts.length_eq
    rw [List.length_append, List.length_map, List.length_map] at hlength
    have hrounds : levelsFrom d w =
        (levelsFrom d (Dependencies.step d (ready w) w)).bind fun ls => .ok (ready w :: ls) := by
      rw [levelsFrom, if_neg he, dif_neg hr]
      rfl
    rw [placeFrom_of_place hne hlevel hplace, ih h.step hfresh (by omega), hrounds]
    cases levelsFrom d (Dependencies.step d (ready w) w) with
    | error names => rfl
    | ok rest =>
      show some (Except.ok (levels ++ [ready w] ++ rest)) =
        some (Except.ok (levels ++ ready w :: rest))
      rw [List.append_assoc, List.singleton_append]

/-- Counting down edge by edge never takes from zero, and comes to the levels of the rounds. -/
theorem kahn_eq (d : Dependencies) : d.kahn = some (levelsFrom d d.waiting) := by
  have hcounts : d.inDegrees = d.tally (d.left (· ∈ pending d.waiting)) := by
    refine congrArg d.tally (funext fun n => ?_)
    rw [left, pending_waiting, List.filter_eq_self.2 fun m hm => decide_eq_true (mem_needs hm)]
  have hnext : (d.inDegrees.entries.filter (·.2 = 0)).map (·.1) = ready d.waiting := by
    rw [ready, waiting, NameTable.names, List.map_map]
    rfl
  have hsize : 0 + d.waiting.length = d.size := by simp [waiting, NameTable.size, NameTable.names]
  rw [kahn, hnext, hcounts, placeFrom_eq counted_waiting (.refl _) hsize]
  cases levelsFrom d d.waiting <;> rfl

theorem levels_eq : d.levels = levelsFrom d d.waiting := by
  rw [levels, kahn_eq, Option.getD_some]

end Dependencies

end Subdomain
