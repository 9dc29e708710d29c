import ActionBlock.Proofs.Effects

/-!
# Branches that occur more than once

An edit moves the branches of a block by their positions, so a branch that is in the block at
several positions is moved once for each of them. An insertion moves it away from the action that it
lands on by as many positions as it has further occurrences. A removal stops at the position of the
removal, so a branch that lands close behind that is moved less far than it has occurrences.
-/

namespace ActionBlock

/-! ### Moving several times -/

namespace Shift

/-- Insertions repeated at one index move a target behind it by as many places. -/
theorem iterate_moved_insertion (i : Int) (n : Nat) (t : Int) :
  (insertion i).moved^[n] t = if i ≤ t then t + n else t
  := by
  induction n generalizing t with
  | zero =>
    rw [Function.iterate_zero, id, Nat.cast_zero, add_zero, ite_self]
  | succ n ih =>
    rw [Function.iterate_succ_apply, ih, moved_insertion]
    push_cast
    by_cases h : i ≤ t
    · rw [if_pos h, if_pos (by omega), if_pos h]
      omega
    · rw [if_neg h, if_neg h, if_neg h]

/-- A branch that is moved down stops at the index of the removal. -/
theorem iterate_moved_removal (i : Int) (n : Nat) (t : Int) :
  (removal i).moved^[n] t = if i < t then max i (t - n) else t
  := by
  induction n generalizing t with
  | zero =>
    rw [Function.iterate_zero, id, Nat.cast_zero, sub_zero]
    split <;> omega
  | succ n ih =>
    rw [Function.iterate_succ_apply, ih, moved_removal]
    push_cast
    by_cases h : i < t
    · rw [if_pos h, if_pos h]
      split <;> omega
    · rw [if_neg h, if_neg h, if_neg h]

end Shift

/-! ### The theorem -/

namespace Workspace

variable {w : Workspace} {place : Place}

/-- How far an edit moves a branch depends on how often the branch occurs. In a block whose targets
are numbers, an insertion before an index, the end included, raises every index at or above it that
a branch names by the number of occurrences of the branch. A removal lowers every index above its
own by the number of occurrences that are left, but not below its own. So either moves a branch by
one, as its landing on the same action takes, only if it occurs once, or if it lands where it is not
moved at all, or right behind a removal. Nothing else of any action changes. -/
theorem edits_move_per_occurrence (hplace : w.Has place)
    (hmovable : ∀ r ∈ w.contents place, w.Movable r) :
  (∀ (i : Nat) (r : Ref), i ≤ (w.contents place).length →
      ∃ w', (insert place i r).run w = (.ok (), w')
        ∧ w'.contents place = (w.contents place).insertIdx i r
        ∧ (∀ x, (w'.record? x).map Record.untargeted = (w.record? x).map Record.untargeted)
        ∧ ∀ x, w'.landing? x = (w.landing? x).map fun t : Int =>
          if i ≤ t then t + (w.contents place).count x else t)
    ∧ ∀ (i : Nat) (r : Ref), (w.contents place)[i]? = some r →
      ∃ w', (pop place i).run w = (.ok r, w')
        ∧ w'.contents place = (w.contents place).eraseIdx i
        ∧ (∀ x, (w'.record? x).map Record.untargeted = (w.record? x).map Record.untargeted)
        ∧ ∀ x, w'.landing? x = (w.landing? x).map fun t : Int =>
          if i < t then max (i : Int) (t - (w'.contents place).count x) else t
  := by
  constructor
  · intro i r hi
    have hindex : (i : Int) = min (max (fromStart (w.contents place).length (i : Int)) 0)
        (w.contents place).length := by
      rw [fromStart_of_nonneg (Int.natCast_nonneg i)]
      omega
    obtain ⟨w', hrun, hmoved⟩ := exists_insert_moved hmovable i r hindex
    refine ⟨_, hrun, contents_setContents (hmoved.blocks.has hplace) _, ?_, ?_⟩
    · intro x
      rw [record?_setContents, hmoved.untargeted]
    · intro x
      rw [landing?_setContents, hmoved.landing, funext (Shift.iterate_moved_insertion i _)]
  · intro i r hr
    obtain ⟨hi, rfl⟩ := List.getElem?_eq_some_iff.mp hr
    have hstart : fromStart (w.contents place).length (i : Int) = i :=
      fromStart_of_nonneg (Int.natCast_nonneg i)
    have hlocate : locate? (w.contents place) (fromStart (w.contents place).length (i : Int))
        = some (i, (w.contents place)[i]) := by
      rw [hstart]
      exact locate?_eq_some hstart hi
    obtain ⟨w', hrun, hmoved⟩ :=
      exists_removeAt_moved hmovable i (fromStart (w.contents place).length (i : Int))
    have hcontents : w'.contents place = (w.contents place).eraseIdx i := by
      rw [hmoved.blocks.contents_eq, contents_setContents hplace]
    refine ⟨w', run_pop_of_locate hlocate hrun, hcontents, ?_, ?_⟩
    · intro x
      rw [hmoved.untargeted, record?_setContents]
    · intro x
      rw [hmoved.landing, landing?_setContents, hcontents, hstart,
        funext (Shift.iterate_moved_removal i _)]

end Workspace

/-- An action and twice the same branch, which lands on its own second occurrence. -/
def doubledBranch : Workspace where
  cells := #[⟨.play, []⟩, ⟨.jump 2, []⟩]
  root := [0, 1, 1]

/-- An insertion or a removal at the start moves the branch by two. -/
theorem edits_doubledBranch :
  doubledBranch.landing? 1 = some 2
    ∧ (∃ w, (Workspace.insert .root 0 0).run doubledBranch = (.ok (), w)
      ∧ w.contents .root = [0, 0, 1, 1] ∧ w.landing? 1 = some 4)
    ∧ ∃ w, (Workspace.pop .root 0).run doubledBranch = (.ok 0, w)
      ∧ w.contents .root = [1, 1] ∧ w.landing? 1 = some 0
  := ⟨rfl, ⟨_, rfl, rfl, rfl⟩, _, rfl, rfl, rfl⟩

/-- An insertion before one of its own occurrences moves the branch by two, and the removal of one
moves it by one. -/
theorem edits_move_per_occurrence_doubledBranch :
  (∀ r ∈ doubledBranch.contents .root, doubledBranch.Movable r)
    ∧ (∃ w, (Workspace.insert .root 2 0).run doubledBranch = (.ok (), w) ∧ w.landing? 1 = some 4)
    ∧ ∃ w, (Workspace.pop .root 1).run doubledBranch = (.ok 1, w) ∧ w.landing? 1 = some 1
  := by
  have hmovable : ∀ r ∈ doubledBranch.contents .root, doubledBranch.Movable r := by
    intro r hr
    have hmem : r = 0 ∨ r = 1 := by
      simpa [doubledBranch, Workspace.contents] using hr
    obtain rfl | rfl := hmem
    · exact ⟨_, rfl, rfl, fun v hv => by cases hv⟩
    · exact ⟨_, rfl, rfl, fun v hv => by cases hv; rfl⟩
  obtain ⟨hinsert, hpop⟩ :=
    @Workspace.edits_move_per_occurrence doubledBranch .root trivial hmovable
  obtain ⟨w, hrun, -, -, hlanding⟩ := hinsert 2 0 (by decide)
  obtain ⟨w', hrun', hcontents, -, hlanding'⟩ := hpop 1 1 rfl
  refine ⟨hmovable, ⟨w, hrun, hlanding 1⟩, w', hrun', ?_⟩
  rw [hlanding' 1, hcontents]
  rfl

end ActionBlock
