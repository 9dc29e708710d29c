import ActionBlock.Proofs.Effects
import Mathlib.Order.Interval.Finset.Nat

/-!
# Edits of slices

The actions of a slice are removed one by one, and other actions are inserted one by one in their
place, and each time the branches of the block move. What comes of it is said here at one stroke:
deleting a slice leaves the actions that it does not select, and a branch that is left names an
index that is smaller by as many as were selected below it; assigning to a slice puts the new
actions in its place, and a branch that named an action in it names the first one behind them.
-/

namespace ActionBlock

/-! ### What a slice selects -/

namespace Slice

variable {s : Slice} {size : Nat} {b : Bounds}

/-- Where the steps of a slice start in a list of the given size: at its start, or at the position
next to it if the list does not reach that far. -/
def first (s : Slice) (size : Nat) : Int :=
  if 0 < s.step.getD 1 then max (s.start.elim 0 (fromStart size)) 0
  else min (s.start.elim (size - 1) (fromStart size)) (size - 1)

/-- Whether a slice of a list of the given size selects a position: steps from the first one lead to
it, and it is before the stop. -/
def Selects (s : Slice) (size p : Nat) : Prop :=
  p < size ∧ s.step.getD 1 ∣ p - s.first size
    ∧ if 0 < s.step.getD 1 then s.first size ≤ p ∧ p < s.stop.elim (size : Int) (fromStart size)
      else p ≤ s.first size ∧ s.stop.elim (-1) (fromStart size) < p

instance (s : Slice) (size p : Nat) : Decidable (s.Selects size p) :=
  inferInstanceAs (Decidable (_ ∧ _))

/-- The positions that a slice selects in a list of the given size. -/
def selection (s : Slice) (size : Nat) : Finset Nat := {p ∈ Finset.range size | s.Selects size p}

/-- The selection holds exactly the positions that the slice selects. -/
theorem mem_selection {p : Nat} :
  p ∈ s.selection size ↔ s.Selects size p
  := by
  rw [selection, Finset.mem_filter, Finset.mem_range, Selects]
  tauto

/-- A slice with a positive step has its ends clamped to the block. -/
theorem ends_of_ascending (h : s.bounds? size = some b) (hpos : 0 < s.step.getD 1) :
  b.start = min (s.first size) size
    ∧ b.stop = min (max (s.stop.elim (size : Int) (fromStart size)) 0) size
  := by
  have hsize : (0 : Int) ≤ size := Int.natCast_nonneg size
  rw [bounds?] at h
  simp only [if_neg hpos.ne', if_neg (not_lt.mpr hpos.le)] at h
  obtain rfl := Option.some.inj h
  rw [first, if_pos hpos, elim_clamp size ⟨le_refl _, hsize⟩, elim_clamp size ⟨hsize, le_refl _⟩]
  exact ⟨rfl, rfl⟩

/-- A slice with a negative step has its ends clamped to the block, one place lower. -/
theorem ends_of_descending (h : s.bounds? size = some b) (hneg : s.step.getD 1 < 0) :
  b.start = max (s.first size) (-1)
    ∧ b.stop = min (max (s.stop.elim (-1) (fromStart size)) (-1)) (size - 1)
  := by
  have hsize : (-1 : Int) ≤ size - 1 := by omega
  rw [bounds?] at h
  simp only [if_neg hneg.ne, if_pos hneg] at h
  obtain rfl := Option.some.inj h
  rw [first, if_neg (not_lt.mpr hneg.le), elim_clamp size ⟨hsize, le_refl _⟩,
    elim_clamp size ⟨le_refl _, hsize⟩]
  refine ⟨?_, rfl⟩
  dsimp only
  omega

/-- The positions of a slice are those that it selects. -/
theorem mem_positions_iff (h : s.bounds? size = some b) {p : Nat} :
  p ∈ b.positions ↔ p ∈ s.selection size
  := by
  have hwithin := within_of_bounds? h
  have hstep := step_of_bounds? h
  rw [hwithin.mem_positions_iff, mem_selection, Selects, hstep]
  obtain hpos | hneg := Ne.lt_or_gt (hstep ▸ hwithin.step_ne).symm
  · obtain ⟨hstart, hstop⟩ := ends_of_ascending h hpos
    rw [if_pos hpos, if_pos hpos]
    -- The list reaches as far as the first position whenever a position follows that.
    have hfirst : b.start < size → b.start = s.first size := by omega
    constructor
    · rintro ⟨hdvd, hle, hlt⟩
      rw [hfirst (by omega)] at hdvd hle
      exact ⟨by omega, hdvd, hle, by omega⟩
    · rintro ⟨hp, hdvd, hle, hlt⟩
      rw [hfirst (by omega)]
      exact ⟨hdvd, hle, by omega⟩
  · obtain ⟨hstart, hstop⟩ := ends_of_descending h hneg
    rw [if_neg (not_lt.mpr hneg.le), if_neg (not_lt.mpr hneg.le)]
    have hfirst : 0 ≤ b.start → b.start = s.first size := by omega
    have hle' : s.first size ≤ size - 1 := by
      rw [first, if_neg (not_lt.mpr hneg.le)]
      omega
    constructor
    · rintro ⟨hdvd, hle, hlt⟩
      rw [hfirst (by omega)] at hdvd hle
      exact ⟨by omega, hdvd, hle, by omega⟩
    · rintro ⟨hp, hdvd, hle, hlt⟩
      rw [hfirst (by omega)]
      exact ⟨hdvd, hle, by omega⟩

/-- Where a slice without gaps starts in a list of the given size. -/
def left (s : Slice) (size : Nat) : Nat := min (s.start.elim 0 (fromStart size)).toNat size

/-- Where a slice without gaps ends in a list of the given size, which is not before its start. -/
def right (s : Slice) (size : Nat) : Nat :=
  max (s.left size) (min (s.stop.elim (size : Int) (fromStart size)).toNat size)

theorem left_le_right (s : Slice) (size : Nat) :
  s.left size ≤ s.right size
  := by
  apply Nat.le_max_left

theorem right_le (s : Slice) (size : Nat) :
  s.right size ≤ size
  := by
  rw [right, left]
  omega

/-- A slice with step one spans the positions between its left and its right end. -/
theorem exists_bounds_of_step_one (hstep : s.step.getD 1 = 1) (size : Nat) :
  ∃ b, s.bounds? size = some b ∧ b.step = 1 ∧ b.start = s.left size
    ∧ max b.start b.stop = s.right size
  := by
  cases h : s.bounds? size with
  | none =>
    rw [bounds?_eq_none_iff.mp h] at hstep
    cases hstep
  | some b =>
    obtain ⟨hstart, hstop⟩ := ends_of_ascending h (by omega)
    rw [first, if_pos (by omega)] at hstart
    refine ⟨b, rfl, (step_of_bounds? h).trans hstep, ?_, ?_⟩
    · rw [hstart, left]
      omega
    · rw [hstart, hstop, right, left]
      omega

end Slice

/-! ### Deleting a slice -/

/-- Positions below a target are counted alike in a list and in a set. -/
theorem countP_eq_card {ps : List Nat} (hps : ps.Nodup) {positions : Finset Nat}
    (hmem : ∀ p, p ∈ ps ↔ p ∈ positions) (t : Int) :
  ps.countP (fun p : Nat => (p : Int) < t) = (positions.filter fun p : Nat => (p : Int) < t).card
  := by
  obtain rfl : ps.toFinset = positions := by
    ext p
    rw [List.mem_toFinset, hmem]
  rw [List.countP_eq_length_filter, ← List.toFinset_card_of_nodup (hps.filter _),
    List.toFinset_filter]
  simp only [decide_eq_true_eq]

namespace Workspace

variable {place : Place} {w : Workspace} {s : Slice}

/-- Deleting a slice removes its actions at once. In a block in which no branch occurs twice, and
whose targets are numbers, the actions stay that the slice does not select, in their order, and
nothing of any action changes but the targets of branches. A branch that stays and named an index
names the one that is smaller by the number of selected positions below it. -/
theorem deleteSlice_at_once (h : w.Editable place) (hstep : s.step ≠ some 0) :
  ∃ w', (deleteSlice place s).run w = (.ok (), w')
    ∧ w'.contents place = ((w.contents place).zipIdx.filter
      fun x => x.2 ∉ s.selection (w.contents place).length).map Prod.fst
    ∧ (∀ r, (w'.record? r).map Record.untargeted = (w.record? r).map Record.untargeted)
    ∧ ∀ r ∈ w'.contents place, w'.landing? r = (w.landing? r).map fun t =>
      t - ((s.selection (w.contents place).length).filter fun p : Nat => (p : Int) < t).card
  := by
  cases hbounds : s.bounds? (w.contents place).length with
  | none => exact absurd (Slice.bounds?_eq_none_iff.mp hbounds) hstep
  | some b =>
    have hwithin := Slice.within_of_bounds? hbounds
    obtain ⟨w', hrun, heffect⟩ := h.exists_deleteBounds hwithin
    refine ⟨w', ?_, ?_, heffect.untargeted, ?_⟩
    · rw [deleteSlice, run_bind_of_ok (run_boundsOf hbounds), hrun]
    · rw [heffect.contents, without]
      simp only [Slice.mem_positions_iff hbounds]
    · intro r hr
      rw [heffect.contents] at hr
      rw [heffect.landing r hr ((without_sublist _ _).subset hr)]
      simp only [countP_eq_card hwithin.nodup_positions fun p => Slice.mem_positions_iff hbounds]

end Workspace

/-- A branch into the middle of five actions and a branch to their end, and two actions that are not
in the block. -/
def branchesAcross : Workspace where
  cells := #[⟨.jump 2, []⟩, ⟨.play, []⟩, ⟨.stop, []⟩, ⟨.jumpIf 5, []⟩, ⟨.pop, []⟩, ⟨.play, []⟩,
    ⟨.stop, []⟩]
  root := [0, 1, 2, 3, 4]

theorem editable_branchesAcross :
  branchesAcross.Editable .root
  := by
  refine ⟨trivial, by decide, ?_⟩
  intro r hr
  have hmem : r = 0 ∨ r = 1 ∨ r = 2 ∨ r = 3 ∨ r = 4 := by
    simpa [branchesAcross, Workspace.contents] using hr
  obtain rfl | rfl | rfl | rfl | rfl := hmem
  · exact ⟨_, rfl, rfl, fun v hv => by cases hv; rfl⟩
  · exact ⟨_, rfl, rfl, fun v hv => by cases hv⟩
  · exact ⟨_, rfl, rfl, fun v hv => by cases hv⟩
  · exact ⟨_, rfl, rfl, fun v hv => by cases hv; rfl⟩
  · exact ⟨_, rfl, rfl, fun v hv => by cases hv⟩

/-- Every other action is removed, from the last one to the first. -/
theorem deleteSlice_at_once_branchesAcross :
  branchesAcross.Editable .root ∧ (Slice.mk none none (some (-2))).selection 5 = {0, 2, 4}
    ∧ ∃ w, (Workspace.deleteSlice .root ⟨none, none, some (-2)⟩).run branchesAcross = (.ok (), w)
      ∧ w.contents .root = [1, 3] ∧ w.landing? 3 = some 2
  := by
  obtain ⟨w, hrun, hcontents, -, hlanding⟩ :=
    Workspace.deleteSlice_at_once editable_branchesAcross (s := ⟨none, none, some (-2)⟩) (by decide)
  have hcontents' : w.contents .root = [1, 3] := hcontents
  refine ⟨editable_branchesAcross, by decide, w, hrun, hcontents', ?_⟩
  rw [hlanding 3 (by rw [hcontents']; decide)]
  decide

/-! ### Assigning to a slice -/

/-- The index that a branch names after the positions from `a` up to `c` are replaced by `k` others.
-/
def spliced (a c k : Nat) (t : Int) : Int :=
  if t < a then t else if t < c then a + k else t - (c - a) + k

/-- The number of positions of an interval below a target. -/
theorem card_below (a c : Nat) (t : Int) :
  ((Finset.Ico a c).filter fun p : Nat => (p : Int) < t).card = min c t.toNat - a
  := by
  have hinterval : (Finset.Ico a c).filter (fun p : Nat => (p : Int) < t)
      = Finset.Ico a (min c t.toNat) := by
    ext p
    rw [Finset.mem_filter, Finset.mem_Ico, Finset.mem_Ico]
    omega
  rw [hinterval, Nat.card_Ico]

theorem Bounds.within_of_step_one {a c size : Nat} (hac : a ≤ c) (hc : c ≤ size) :
  (Bounds.mk a c 1).Within size
  := ⟨by simp, fun _ => by dsimp only; omega, fun hneg => by simp at hneg⟩

namespace Workspace

variable {place : Place} {w : Workspace} {s : Slice} {rs : List Ref}

/-- The actions of an interval are removed. -/
theorem Editable.exists_deleteInterval (h : w.Editable place) {a c : Nat} (hac : a ≤ c)
    (hc : c ≤ (w.contents place).length) :
  ∃ w', (deleteBounds place ⟨a, c, 1⟩).run w = (.ok (), w')
    ∧ Effect place ((w.contents place).take a ++ (w.contents place).drop c)
      (fun t => t - (min c t.toNat - a : Nat)) w w'
  := by
  have hwithin := Bounds.within_of_step_one hac hc
  have hmem : ∀ p : Nat, p ∈ (Bounds.mk a c 1).positions ↔ a ≤ p ∧ p < c := by
    intro p
    apply Bounds.mem_positions_of_step_one (Int.natCast_nonneg a)
  have hinterval : ∀ p : Nat, p ∈ (Bounds.mk a c 1).positions ↔ p ∈ Finset.Ico a c := by
    intro p
    rw [hmem, Finset.mem_Ico]
  obtain ⟨w', hrun, heffect⟩ := h.exists_deleteBounds hwithin
  rw [without_of_interval hac hc hmem] at heffect
  use w', hrun
  apply heffect.congr
  intro t
  rw [countP_eq_card hwithin.nodup_positions hinterval, card_below]

/-- The actions of an interval are replaced by actions that are no branches. -/
theorem Editable.exists_replace (h : w.Editable place) {a c : Nat} (hac : a ≤ c)
    (hc : c ≤ (w.contents place).length) (hplain : ∀ r ∈ rs, w.Plain r) :
  ∃ w', (do
      deleteBounds place ⟨a, c, 1⟩
      insertAll place a rs).run w = (.ok (), w')
    ∧ Effect place ((w.contents place).take a ++ rs ++ (w.contents place).drop c)
      (spliced a c rs.length) w w'
  := by
  obtain ⟨w₁, hdelete, heffect⟩ := h.exists_deleteInterval hac hc
  have hsublist : ((w.contents place).take a ++ (w.contents place).drop c).Sublist
      ((w.contents place).take a ++ (w.contents place).drop a) :=
    (List.Sublist.refl _).append (List.drop_sublist_drop_left _ hac)
  rw [List.take_append_drop] at hsublist
  have hfront : ((w.contents place).take a).length = a := List.length_take_of_le (hac.trans hc)
  have hi : a ≤ (w₁.contents place).length := by
    rw [heffect.contents, List.length_append, hfront]
    omega
  obtain ⟨w', hinsert, heffect'⟩ := (h.of_sublist heffect hsublist).exists_insertAll hi
    fun r hr => heffect.plain (hplain r hr)
  rw [heffect.contents, List.take_left' hfront, List.drop_left' hfront] at heffect'
  use w', by rw [run_bind_of_ok hdelete, hinsert]
  apply (heffect.trans heffect' _).congr
  · -- An index in the interval becomes its start, and that is moved behind the new actions.
    intro t
    rw [Function.comp_apply, spliced]
    split <;> split <;> omega
  · intro r hr _
    rw [List.append_assoc, List.mem_append, List.mem_append] at hr
    rw [List.mem_append]
    obtain hleft | hnew | hright := hr
    · exact .inl (.inl hleft)
    · exact .inr (hplain r hnew)
    · exact .inl (.inr hright)

/-- Assigning to a slice without gaps is a splice. In a block in which no branch occurs twice, and
whose targets are numbers, the given actions, none of which is a branch, stand in the place of the
actions from the start of the slice to its end, and nothing of any action changes but the targets of
branches. A branch that is left names the index that it named if that is before the slice, the first
one behind the given actions if it is in the slice, and otherwise that of the same action. -/
theorem replaceSlice_splices (h : w.Editable place) (hstep : s.step.getD 1 = 1)
    (hplain : ∀ r ∈ rs, w.Plain r) :
  ∃ w', (replaceSlice place s rs).run w = (.ok (), w')
    ∧ w'.contents place = (w.contents place).take (s.left (w.contents place).length) ++ rs
      ++ (w.contents place).drop (s.right (w.contents place).length)
    ∧ (∀ r, (w'.record? r).map Record.untargeted = (w.record? r).map Record.untargeted)
    ∧ ∀ r ∈ w'.contents place, w'.landing? r = (w.landing? r).map
      (spliced (s.left (w.contents place).length) (s.right (w.contents place).length) rs.length)
  := by
  obtain ⟨b, hbounds, hone, hstart, hstop⟩ :=
    Slice.exists_bounds_of_step_one hstep (w.contents place).length
  obtain ⟨w', hrun, heffect⟩ := h.exists_replace (s.left_le_right (w.contents place).length)
    (s.right_le (w.contents place).length) hplain
  refine ⟨w', ?_, heffect.contents, heffect.untargeted, ?_⟩
  · rw [replaceSlice, run_bind_of_ok (run_boundsOf hbounds), hone, hstop, hstart, Int.toNat_natCast]
    apply hrun
  · intro r hr
    rw [heffect.contents] at hr
    by_cases hnew : r ∈ rs
    · rw [(heffect.plain (hplain r hnew)).landing?_eq_none, (hplain r hnew).landing?_eq_none]
      rfl
    · apply heffect.landing r hr
      rw [List.mem_append, List.mem_append, or_iff_left hnew] at hr
      exact hr.elim List.mem_of_mem_take List.mem_of_mem_drop

end Workspace

/-- Three actions, one of them twice, stand in the place of two. -/
theorem replaceSlice_splices_branchesAcross :
  branchesAcross.Editable .root ∧ (∀ r ∈ [5, 6, 5], branchesAcross.Plain r)
    ∧ ∃ w, (Workspace.replaceSlice .root ⟨some (-4), some 3, none⟩ [5, 6, 5]).run branchesAcross
        = (.ok (), w)
      ∧ w.contents .root = [0, 5, 6, 5, 3, 4] ∧ w.landing? 0 = some 4 ∧ w.landing? 3 = some 6
  := by
  have hplain : ∀ r ∈ [5, 6, 5], branchesAcross.Plain r := by
    simp only [List.forall_mem_cons]
    exact ⟨⟨_, rfl, rfl, rfl⟩, ⟨_, rfl, rfl, rfl⟩, ⟨_, rfl, rfl, rfl⟩, List.forall_mem_nil _⟩
  obtain ⟨w, hrun, hcontents, -, hlanding⟩ :=
    Workspace.replaceSlice_splices editable_branchesAcross (s := ⟨some (-4), some 3, none⟩) rfl
      hplain
  have hcontents' : w.contents .root = [0, 5, 6, 5, 3, 4] := hcontents
  refine ⟨editable_branchesAcross, hplain, w, hrun, hcontents', ?_, ?_⟩
  · rw [hlanding 0 (by rw [hcontents']; decide)]
    rfl
  · rw [hlanding 3 (by rw [hcontents']; decide)]
    rfl

end ActionBlock
