import ActionBlock.Workspace.Edit
import Mathlib.Data.List.Count
import Mathlib.Data.List.Nodup
import Mathlib.Tactic.Linarith

/-!
# Indices and slices

The positions that a slice selects are positions of the list, each selected once. Removing members
of a list at positions, the last one first, leaves the members at all other positions. What is left
from some position on is found after as many members as are left before it.
-/

namespace ActionBlock

/-! ### Positions -/

theorem fromStart_of_nonneg {n : Nat} {i : Int} (h : 0 ≤ i) :
  fromStart n i = i
  := if_neg (not_lt.mpr h)

/-- An index that counts to a position of the list finds its member. -/
theorem locate?_eq_some {α : Type} {xs : List α} {i : Int} {p : Nat}
    (hi : fromStart xs.length i = p) (hp : p < xs.length) :
  locate? xs i = some (p, xs[p])
  := by
  simp [locate?, position?, hi, hp]

/-- A list has nothing at the indices past its end, and past its start counted from the end. -/
theorem locate?_eq_none {α : Type} {xs : List α} {i : Int}
    (h : i < -(xs.length : Int) ∨ (xs.length : Int) ≤ i) :
  locate? xs i = none
  := by
  have hrange : ¬ (0 ≤ fromStart xs.length i ∧ fromStart xs.length i < xs.length) := by
    rw [fromStart]
    split <;> omega
  simp only [locate?, position?, if_neg hrange]
  rfl

/-- Bounds of a slice of a list of the given size. -/
structure Bounds.Within (b : Bounds) (size : Nat) : Prop where
  step_ne : b.step ≠ 0
  ascending : 0 < b.step → 0 ≤ b.start ∧ b.start ≤ size ∧ b.stop ≤ size
  descending : b.step < 0 → b.start < size ∧ -1 ≤ b.stop

/-- An end of a slice is counted from the start and clamped, or left out for its default. -/
theorem Slice.elim_clamp (size : Nat) {least greatest left : Int}
    (hleft : least ≤ left ∧ left ≤ greatest) (index : Option Int) :
  index.elim left (clamp size least greatest)
    = min (max (index.elim left (fromStart size)) least) greatest
  := by
  cases index with
  | none =>
    rw [Option.elim_none, Option.elim_none]
    omega
  | some index => rfl

/-- An end of a slice is kept within the least and the greatest position, if it is not left open. -/
theorem Slice.elim_clamp_range (size : Nat) {least greatest left : Int} (h : least ≤ greatest)
    (hleft : least ≤ left ∧ left ≤ greatest) (index : Option Int) :
  least ≤ index.elim left (clamp size least greatest)
    ∧ index.elim left (clamp size least greatest) ≤ greatest
  := by
  rw [elim_clamp size hleft]
  omega

/-- A slice has no bounds exactly when its step is zero. -/
theorem Slice.bounds?_eq_none_iff {s : Slice} {size : Nat} :
  s.bounds? size = none ↔ s.step = some 0
  := by
  cases hstep : s.step <;> simp [bounds?, hstep]

theorem Slice.step_of_bounds? {s : Slice} {size : Nat} {b : Bounds}
    (h : s.bounds? size = some b) :
  b.step = s.step.getD 1
  := by
  rw [bounds?] at h
  dsimp only at h
  split at h
  · cases h
  · obtain rfl := Option.some.inj h
    rfl

/-- The bounds of a slice lie within the list. -/
theorem Slice.within_of_bounds? {s : Slice} {size : Nat} {b : Bounds}
    (h : s.bounds? size = some b) :
  b.Within size
  := by
  rw [bounds?] at h
  dsimp only at h
  split at h
  · cases h
  rename_i hstep
  obtain rfl := Option.some.inj h
  refine ⟨hstep, ?_, ?_⟩
  · intro hpos
    have hsize : (0 : Int) ≤ size := by omega
    simp only [if_neg (not_lt.mpr (le_of_lt hpos))]
    have hstart := elim_clamp_range size hsize ⟨le_refl _, hsize⟩ s.start
    have hstop := elim_clamp_range size hsize ⟨hsize, le_refl _⟩ s.stop
    exact ⟨hstart.1, hstart.2, hstop.2⟩
  · intro hneg
    have hsize : (-1 : Int) ≤ size - 1 := by omega
    simp only [if_pos (show s.step.getD 1 < 0 from hneg)]
    have hstart := elim_clamp_range size hsize ⟨hsize, le_refl _⟩ s.start
    have hstop := elim_clamp_range size hsize ⟨le_refl _, hsize⟩ s.stop
    exact ⟨by omega, hstop.1⟩

namespace Bounds

/-- A slice takes as many steps as lead to a position before its stop. -/
theorem lt_count_iff {b : Bounds} (hstep : b.step ≠ 0) (k : Nat) :
  k < (if 0 < b.step then (b.stop - b.start + b.step - 1) / b.step
      else (b.start - b.stop - b.step - 1) / -b.step).toNat
    ↔ if 0 < b.step then b.start + b.step * k < b.stop else b.stop < b.start + b.step * k
  := by
  rw [Int.lt_toNat, ← Int.add_one_le_iff]
  split
  · rename_i hpos
    rw [Int.le_ediv_iff_mul_le hpos, add_mul, one_mul, mul_comm]
    omega
  · rename_i hneg
    rw [Int.le_ediv_iff_mul_le (by omega), add_mul, one_mul, mul_neg, mul_comm]
    omega

/-- A slice selects positions of its list. -/
theorem Within.range {b : Bounds} {size : Nat} (h : b.Within size) {k : Nat}
    (hk : k < (if 0 < b.step then (b.stop - b.start + b.step - 1) / b.step
      else (b.start - b.stop - b.step - 1) / -b.step).toNat) :
  0 ≤ b.start + b.step * k ∧ b.start + b.step * k < size
  := by
  rw [lt_count_iff h.step_ne] at hk
  obtain hpos | hneg := Ne.lt_or_gt h.step_ne.symm
  · obtain ⟨hstart, -, hstop⟩ := h.ascending hpos
    rw [if_pos hpos] at hk
    have hnonneg : 0 ≤ b.step * (k : Int) := by positivity
    omega
  · obtain ⟨hstart, hstop⟩ := h.descending hneg
    rw [if_neg (not_lt.mpr hneg.le)] at hk
    have hnonpos : b.step * (k : Int) ≤ 0 := mul_nonpos_of_nonpos_of_nonneg hneg.le (by omega)
    omega

/-- A slice selects the positions that steps from its start reach before its stop. -/
theorem Within.mem_positions_iff {b : Bounds} {size : Nat} (h : b.Within size) {p : Nat} :
  p ∈ b.positions ↔ b.step ∣ p - b.start
    ∧ if 0 < b.step then b.start ≤ p ∧ p < b.stop else p ≤ b.start ∧ b.stop < p
  := by
  simp only [positions, List.mem_map, List.mem_range]
  constructor
  · rintro ⟨k, hk, rfl⟩
    rw [Int.toNat_of_nonneg (h.range hk).1]
    rw [lt_count_iff h.step_ne] at hk
    refine ⟨⟨k, by omega⟩, ?_⟩
    split at hk
    · rename_i hpos
      have hnonneg : 0 ≤ b.step * (k : Int) := by positivity
      rw [if_pos hpos]
      omega
    · rename_i hneg
      have hnonpos : b.step * (k : Int) ≤ 0 :=
        mul_nonpos_of_nonpos_of_nonneg (not_lt.mp hneg) (by omega)
      rw [if_neg hneg]
      omega
  · rintro ⟨⟨k, hk⟩, hbetween⟩
    have hnonneg : 0 ≤ k := by
      by_contra hlt
      obtain hpos | hneg := Ne.lt_or_gt h.step_ne.symm
      · rw [if_pos hpos] at hbetween
        have := mul_neg_of_pos_of_neg hpos (not_le.mp hlt)
        omega
      · rw [if_neg (not_lt.mpr hneg.le)] at hbetween
        have := mul_pos_of_neg_of_neg hneg (not_le.mp hlt)
        omega
    obtain ⟨k, rfl⟩ := Int.eq_ofNat_of_zero_le hnonneg
    refine ⟨k, (lt_count_iff h.step_ne k).mpr ?_, by omega⟩
    split at hbetween
    · rename_i hpos
      rw [if_pos hpos]
      omega
    · rename_i hneg
      rw [if_neg hneg]
      omega

theorem Within.lt_of_mem {b : Bounds} {size : Nat} (h : b.Within size) {p : Nat}
    (hp : p ∈ b.positions) :
  p < size
  := by
  simp only [positions, List.mem_map, List.mem_range] at hp
  obtain ⟨k, hk, rfl⟩ := hp
  have hrange := h.range hk
  omega

/-- A slice selects each of its positions once. -/
theorem Within.nodup_positions {b : Bounds} {size : Nat} (h : b.Within size) :
  b.positions.Nodup
  := by
  apply List.Nodup.map_on _ List.nodup_range
  intro k hk l hl heq
  have hrange := h.range (List.mem_range.mp hk)
  have hrange' := h.range (List.mem_range.mp hl)
  have hsame : b.step * (k : Int) = b.step * l := by omega
  exact_mod_cast mul_left_cancel₀ h.step_ne hsame

/-- The positions of a slice without gaps. -/
theorem mem_positions_of_step_one {start stop : Int} (hstart : 0 ≤ start) {p : Nat} :
  p ∈ positions ⟨start, stop, 1⟩ ↔ start.toNat ≤ p ∧ p < stop.toNat
  := by
  simp only [positions, List.mem_map, List.mem_range, Int.lt_toNat, zero_lt_one, if_true,
    Int.ediv_one, one_mul]
  constructor
  · rintro ⟨k, hk, rfl⟩
    omega
  · rintro ⟨hle, hlt⟩
    exact ⟨p - start.toNat, by omega, by omega⟩

end Bounds

/-! ### Removing members -/

section Members

variable {α : Type}

/-- A list around a position: what is before it, what is at it, and what is after it. -/
theorem exists_split_at {xs : List α} {p : Nat} (h : p < xs.length) :
  ∃ as x bs, xs = as ++ x :: bs ∧ as.length = p ∧ xs.eraseIdx p = as ++ bs
  := by
  refine ⟨xs.take p, xs[p], xs.drop (p + 1), by simp, ?_, ?_⟩
  · apply List.length_take_of_le h.le
  · apply List.eraseIdx_eq_take_drop_succ

theorem filter_mem_eq_self [DecidableEq α] {xs ys : List α} (h : xs ⊆ ys) :
  xs.filter (· ∈ ys) = xs
  := by
  apply List.filter_eq_self.mpr
  intro x hx
  exact decide_eq_true (h hx)

/-- The members of a list at other positions than the given ones. -/
def without (xs : List α) (positions : List Nat) : List α :=
  (xs.zipIdx.filter fun x => x.2 ∉ positions).map Prod.fst

theorem without_congr {ps qs : List Nat} (h : ∀ p, p ∈ ps ↔ p ∈ qs) (xs : List α) :
  without xs ps = without xs qs
  := by
  simp only [without, h]

theorem without_sublist (xs : List α) (ps : List Nat) :
  (without xs ps).Sublist xs
  := by
  have hsublist := (List.filter_sublist (p := fun x => x.2 ∉ ps) (l := xs.zipIdx)).map Prod.fst
  rwa [List.zipIdx_map_fst] at hsublist

/-- Members after all of the positions stay. -/
theorem without_append {xs : List α} {ps : List Nat} (h : ∀ p ∈ ps, p < xs.length) (ys : List α) :
  without (xs ++ ys) ps = without xs ps ++ ys
  := by
  have hkeep : (ys.zipIdx (0 + xs.length)).filter (fun x => x.2 ∉ ps)
      = ys.zipIdx (0 + xs.length) := by
    apply List.filter_eq_self.mpr
    rintro ⟨y, i⟩ hy
    have hi := (List.mem_zipIdx hy).1
    simp only [decide_eq_true_eq]
    intro hmem
    have := h i hmem
    omega
  rw [without, List.zipIdx_append, List.filter_append, hkeep, List.map_append, List.zipIdx_map_fst]
  rfl

/-- Leaving out the last of some positions first does not move the others. -/
theorem without_append_cons {as : List α} {ps : List Nat} (h : ∀ p ∈ ps, p < as.length) (x : α)
    (bs : List α) :
  without (as ++ x :: bs) (as.length :: ps) = without (as ++ bs) ps
  := by
  have hsplit : as ++ x :: bs = (as ++ [x]) ++ bs := by simp
  have hfront : without (as ++ [x]) (as.length :: ps) = without as ps := by
    rw [without, List.zipIdx_append, List.filter_append, List.map_append]
    have hlast : ([x].zipIdx (0 + as.length)).filter (fun y => y.2 ∉ as.length :: ps) = [] := by
      simp
    have hrest : as.zipIdx.filter (fun y => y.2 ∉ as.length :: ps)
        = as.zipIdx.filter (fun y => y.2 ∉ ps) := by
      apply List.filter_congr
      rintro ⟨y, i⟩ hy
      have hi := (List.mem_zipIdx' hy).1
      simp only [List.mem_cons, not_or, decide_eq_decide]
      constructor
      · exact fun h => h.2
      · exact fun h => ⟨by omega, h⟩
    rw [hlast, hrest, List.map_nil, List.append_nil, without]
  rw [hsplit, without_append _ bs, hfront, without_append h]
  simp only [List.mem_cons, forall_eq_or_imp, List.length_append, List.length_singleton]
  exact ⟨by omega, fun p hp => by have := h p hp; omega⟩

theorem foldl_eraseIdx_sublist (ps : List Nat) (xs : List α) :
  (ps.foldl List.eraseIdx xs).Sublist xs
  := by
  induction ps generalizing xs with
  | nil => exact List.Sublist.refl xs
  | cons p ps ih => exact (ih _).trans (List.eraseIdx_sublist xs p)

/-- Members are removed one after the other, the last one first. -/
theorem foldl_eraseIdx {ps : List Nat} {xs : List α} (hdesc : ps.Pairwise (· > ·))
    (hlt : ∀ p ∈ ps, p < xs.length) :
  ps.foldl List.eraseIdx xs = without xs ps
  := by
  induction ps generalizing xs with
  | nil => simp [without]
  | cons p ps ih =>
    obtain ⟨hfirst, hrest⟩ := List.pairwise_cons.mp hdesc
    have hp := hlt p List.mem_cons_self
    obtain ⟨as, x, bs, rfl, rfl, herase⟩ := exists_split_at hp
    rw [List.foldl_cons, herase, without_append_cons hfirst, ih hrest]
    intro q hq
    have := hfirst q hq
    rw [List.length_append]
    omega

/-- The members at the positions of an interval are removed. -/
theorem without_of_interval {ps : List Nat} {a c : Nat} {xs : List α} (hac : a ≤ c)
    (hc : c ≤ xs.length) (h : ∀ p, p ∈ ps ↔ a ≤ p ∧ p < c) :
  without xs ps = xs.take a ++ xs.drop c
  := by
  obtain ⟨as, ms, bs, rfl, rfl, rfl⟩ : ∃ as ms bs, xs = as ++ ms ++ bs ∧ as.length = a
      ∧ as.length + ms.length = c := by
    refine ⟨xs.take a, (xs.drop a).take (c - a), xs.drop c, ?_, ?_, ?_⟩
    · have hback : xs.drop c = (xs.drop a).drop (c - a) := by
        rw [List.drop_drop, Nat.add_sub_cancel' hac]
      rw [List.append_assoc, hback, List.take_append_drop, List.take_append_drop]
    · simp
      omega
    · simp
      omega
  have hkeep : as.zipIdx.filter (fun x => x.2 ∉ ps) = as.zipIdx := by
    apply List.filter_eq_self.mpr
    rintro ⟨x, i⟩ hx
    have hi := (List.mem_zipIdx' hx).1
    simp only [h, decide_eq_true_eq]
    omega
  have hdrop : (ms.zipIdx (0 + as.length)).filter (fun x => x.2 ∉ ps) = [] := by
    apply List.filter_eq_nil_iff.mpr
    rintro ⟨x, i⟩ hx
    obtain ⟨hle, hlt, -⟩ := List.mem_zipIdx hx
    simp only [h, decide_eq_true_eq]
    omega
  have hfront : without (as ++ ms) ps = as := by
    rw [without, List.zipIdx_append, List.filter_append, hkeep, hdrop, List.append_nil,
      List.zipIdx_map_fst]
  have hlt : ∀ p ∈ ps, p < (as ++ ms).length := by
    intro p hp
    rw [List.length_append]
    exact ((h p).mp hp).2
  rw [without_append hlt, hfront, List.append_assoc, List.take_left, ← List.append_assoc,
    ← List.length_append, List.drop_left]

/-- What is left from a position on, after the removal of a member. -/
theorem drop_eraseIdx [DecidableEq α] {xs : List α} (hnodup : xs.Nodup) {p : Nat}
    (hp : p < xs.length) (t : Nat) :
  (xs.eraseIdx p).drop (if p < t then t - 1 else t) = (xs.drop t).filter (· ∈ xs.eraseIdx p)
  := by
  obtain ⟨as, x, bs, rfl, rfl, herase⟩ := exists_split_at hp
  have hx : x ∉ as ++ bs := by
    rw [List.nodup_middle, List.nodup_cons] at hnodup
    exact hnodup.1
  rw [herase]
  by_cases hlt : as.length < t
  · obtain ⟨k, rfl⟩ : ∃ k, t = as.length + 1 + k := ⟨t - (as.length + 1), by omega⟩
    have hkeep : (bs.drop k).filter (· ∈ as ++ bs) = bs.drop k :=
      filter_mem_eq_self
        (List.Subset.trans (List.drop_subset k bs) (List.subset_append_right as bs))
    have hfront : (as ++ bs).drop (as.length + 1 + k - 1) = bs.drop k := by
      rw [Nat.add_right_comm, Nat.add_sub_cancel, List.drop_length_add_append]
    have hback : (as ++ x :: bs).drop (as.length + 1 + k) = bs.drop k := by
      rw [Nat.add_assoc, List.drop_length_add_append, Nat.add_comm, List.drop_succ_cons]
    rw [if_pos hlt, hfront, hback, hkeep]
  · have hkeep : (as.drop t).filter (· ∈ as ++ bs) = as.drop t :=
      filter_mem_eq_self (List.Subset.trans (List.drop_subset t as) (List.subset_append_left as bs))
    have hkeep' : bs.filter (· ∈ as ++ bs) = bs :=
      filter_mem_eq_self (List.subset_append_right as bs)
    rw [if_neg hlt, List.drop_append_of_le_length (not_lt.mp hlt),
      List.drop_append_of_le_length (not_lt.mp hlt), List.filter_append, hkeep, List.filter_cons,
      hkeep', if_neg (by simpa using hx)]

/-- What is left from a position on, after the removal of members, the last one first. -/
theorem drop_foldl_eraseIdx [DecidableEq α] {ps : List Nat} {xs : List α} (hnodup : xs.Nodup)
    (hdesc : ps.Pairwise (· > ·)) (hlt : ∀ p ∈ ps, p < xs.length) {t : Nat} (ht : t ≤ xs.length) :
  t - ps.countP (· < t) ≤ (ps.foldl List.eraseIdx xs).length
    ∧ (ps.foldl List.eraseIdx xs).drop (t - ps.countP (· < t))
      = (xs.drop t).filter (· ∈ ps.foldl List.eraseIdx xs)
  := by
  induction ps generalizing xs t with
  | nil =>
    refine ⟨by simpa using ht, ?_⟩
    symm
    apply filter_mem_eq_self (List.drop_subset t xs)
  | cons p ps ih =>
    obtain ⟨hfirst, hrest⟩ := List.pairwise_cons.mp hdesc
    have hp := hlt p List.mem_cons_self
    have hlength := List.length_eraseIdx_of_lt hp
    have hlt' : ∀ q ∈ ps, q < (xs.eraseIdx p).length := by
      intro q hq
      have := hfirst q hq
      omega
    have ht' : (if p < t then t - 1 else t) ≤ (xs.eraseIdx p).length := by
      split <;> omega
    -- The other positions are below this one, so they are below the index before and after.
    have hcount : ps.countP (· < if p < t then t - 1 else t) = ps.countP (· < t) := by
      apply List.countP_congr
      intro q hq
      have := hfirst q hq
      simp only [decide_eq_true_eq]
      split <;> omega
    have hindex : (if p < t then t - 1 else t) - ps.countP (· < if p < t then t - 1 else t)
        = t - (p :: ps).countP (· < t) := by
      rw [hcount, List.countP_cons]
      simp only [decide_eq_true_eq]
      split <;> omega
    have hstep := ih (hnodup.eraseIdx p) hrest hlt' ht'
    rw [hindex, drop_eraseIdx hnodup hp, List.filter_filter] at hstep
    rw [List.foldl_cons, hstep.2]
    refine ⟨hstep.1, ?_⟩
    apply List.filter_congr
    intro x _
    rw [Bool.and_eq_left_iff_imp]
    simpa using fun h => (foldl_eraseIdx_sublist ps _).subset h

/-- Distinct positions are sorted strictly downwards. -/
theorem pairwise_mergeSort_gt {ps : List Nat} (h : ps.Nodup) :
  (ps.mergeSort fun i j => j ≤ i).Pairwise (· > ·)
  := by
  have hsorted : (ps.mergeSort fun i j => j ≤ i).Pairwise (fun i j => decide (j ≤ i) = true) := by
    apply List.pairwise_mergeSort
    · simp only [decide_eq_true_eq]
      omega
    · simp only [Bool.or_eq_true, decide_eq_true_eq]
      omega
  have hdistinct : (ps.mergeSort fun i j => j ≤ i).Nodup :=
    (List.mergeSort_perm ps _).nodup_iff.mpr h
  apply hsorted.imp₂ _ hdistinct
  intro i j hle hne
  rw [decide_eq_true_eq] at hle
  omega

/-- Erasing positions one by one from the last to the first leaves the list without them. -/
theorem foldl_eraseIdx_mergeSort {ps : List Nat} {xs : List α} (hps : ps.Nodup)
    (hlt : ∀ p ∈ ps, p < xs.length) :
  (ps.mergeSort fun i j => j ≤ i).foldl List.eraseIdx xs = without xs ps
  := by
  have hperm := List.mergeSort_perm ps fun i j => j ≤ i
  rw [foldl_eraseIdx (pairwise_mergeSort_gt hps) fun p hp => hlt p (hperm.mem_iff.mp hp)]
  apply without_congr
  intro p
  apply hperm.mem_iff

/-- What is left from a position on, after the removal of members. -/
theorem drop_without [DecidableEq α] {ps : List Nat} {xs : List α} (hnodup : xs.Nodup)
    (hps : ps.Nodup) (hlt : ∀ p ∈ ps, p < xs.length) {t : Nat} (ht : t ≤ xs.length) :
  t - ps.countP (· < t) ≤ (without xs ps).length
    ∧ (without xs ps).drop (t - ps.countP (· < t)) = (xs.drop t).filter (· ∈ without xs ps)
  := by
  have hperm := List.mergeSort_perm ps fun i j => j ≤ i
  have hlt' : ∀ p ∈ ps.mergeSort fun i j => j ≤ i, p < xs.length :=
    fun p hp => hlt p (hperm.mem_iff.mp hp)
  have hdrop := drop_foldl_eraseIdx hnodup (pairwise_mergeSort_gt hps) hlt' ht
  rwa [foldl_eraseIdx_mergeSort hps hlt, hperm.countP_eq] at hdrop

/-- There are no more positions below an index than the index says. -/
theorem countP_lt_le {ps : List Nat} (h : ps.Nodup) (t : Nat) :
  ps.countP (· < t) ≤ t
  := by
  have hsubset : ps.filter (· < t) ⊆ List.range t := by
    intro p hp
    simpa using (List.mem_filter.mp hp).2
  have hlength := (List.subperm_of_subset (h.filter _) hsubset).length_le
  rwa [← List.countP_eq_length_filter, List.length_range] at hlength

/-! ### Inserting members -/

/-- What is at a position, after members are inserted before it or after it. -/
theorem getElem?_splice {xs : List α} {i : Nat} (h : i ≤ xs.length) (ys : List α) (t : Nat) :
  (xs.take i ++ ys ++ xs.drop i)[if i ≤ t then t + ys.length else t]? = xs[t]?
  := by
  have hlength : (xs.take i).length = i := List.length_take_of_le h
  split
  · rename_i hle
    rw [List.getElem?_append_right (by simp [hlength]; omega), List.getElem?_drop]
    congr 1
    simp [hlength]
    omega
  · rename_i hlt
    rw [List.append_assoc, List.getElem?_append_left (by omega),
      List.getElem?_take_of_lt (by omega)]

theorem insertIdx_eq_splice {xs : List α} {i : Nat} (h : i ≤ xs.length) (x : α) :
  xs.insertIdx i x = xs.take i ++ [x] ++ xs.drop i
  := by
  induction xs generalizing i with
  | nil =>
    obtain rfl : i = 0 := Nat.le_zero.mp h
    rfl
  | cons y xs ih =>
    cases i with
    | zero => rfl
    | succ i => simp [List.insertIdx_succ_cons, ih (Nat.le_of_succ_le_succ h)]

theorem splice_perm (xs ys : List α) (i : Nat) :
  (xs.take i ++ ys ++ xs.drop i).Perm (ys ++ xs)
  := by
  have hswap : (xs.take i ++ ys ++ xs.drop i).Perm (ys ++ xs.take i ++ xs.drop i) :=
    List.perm_append_comm.append_right _
  rwa [List.append_assoc ys, List.take_append_drop] at hswap

end Members

end ActionBlock
