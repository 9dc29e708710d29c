import ActionBlock.Proofs.Effects

/-!
# Removals outside of a block

A removal at an index counts a negative index from the end, and counts it from the end once more if
it is still negative. So of the indices that a block does not have, those down to twice its length
below zero remove an action nevertheless. At all others a removal fails and changes nothing, and how
it fails depends on whether a word holds the index.
-/

namespace ActionBlock

namespace Workspace

variable {w : Workspace} {place : Place} {i : Int} {e : EditError}

/-! ### How a removal fails -/

/-- Moving targets fails with a fault of a value only. -/
theorem moveEach_error {s : Shift} {refs : List Ref}
    (h : ((moveEach s refs).run w).1 = .error e) :
  ∃ fault, e = .fault fault
  := by
  induction refs generalizing w with
  | nil => cases h
  | cons r refs ih =>
    rw [moveEach, run_bind_of_ok run_get] at h
    cases htarget : (w.record? r).bind (·.operands.target?) with
    | none =>
      simp only [htarget] at h
      apply ih h
    | some t =>
      cases hmoved : s.target t with
      | error fault =>
        simp only [htarget, hmoved] at h
        cases h
        use fault
      | ok t' =>
        simp only [htarget, hmoved] at h
        rw [run_bind_of_ok (run_modify _)] at h
        apply ih h

/-- Moving branches fails only for an action that cannot be moved. -/
theorem move_error {s : Shift} {refs : List Ref} (h : ((move s refs).run w).1 = .error e) :
  ∃ fault, e = .fault fault
  := by
  rw [move, run_bind_of_ok run_get] at h
  cases hbranches : w.branches refs with
  | error fault =>
    simp only [hbranches] at h
    cases h
    use fault
  | ok branches =>
    simp only [hbranches] at h
    apply moveEach_error h

/-- A removal that finds an action fails only because a branch cannot be moved. -/
theorem pop_error {p : Nat} {r : Ref}
    (hlocate : locate? (w.contents place) (fromStart (w.contents place).length i) = some (p, r))
    (h : ((pop place i).run w).1 = .error e) :
  ∃ fault, e = .fault fault
  := by
  rw [pop, run_bind_of_ok run_get] at h
  simp only [hlocate] at h
  rcases hrun : (removeAt place p (fromStart (w.contents place).length i)).run w with ⟨e' | _, w'⟩
  · rw [run_bind_of_error hrun] at h
    cases h
    rw [removeAt, run_bind_of_ok run_get, run_bind_of_ok (run_modify _)] at hrun
    apply move_error
    rw [hrun]
  · rw [run_bind_of_ok hrun] at h
    cases h

/-- The error of a removal that finds no action, if its index is not too large. -/
def nothingAt (w : Workspace) (place : Place) : EditError :=
  if (w.contents place).isEmpty then .emptyBlock else .noSuchIndexToPop

/-- A removal that finds no action at a small index says so in one of two ways. -/
theorem nothingAt_mem :
  w.nothingAt place ∈ [EditError.emptyBlock, .noSuchIndexToPop]
  := by
  rw [nothingAt]
  split <;> simp

/-- A removal that finds no action changes nothing. -/
theorem run_pop_of_none
    (hlocate : locate? (w.contents place) (fromStart (w.contents place).length i) = none) :
  (pop place i).run w
    = (.error (noRemoval (w.contents place) (fromStart (w.contents place).length i)), w)
  := by
  rw [pop, run_bind_of_ok run_get]
  simp only [hlocate]
  rfl

/-- Deleting is removing without the action as an answer. -/
theorem run_delete :
  (delete place i).run w = (((pop place i).run w).1.map fun _ => (), ((pop place i).run w).2)
  := by
  rw [delete, Functor.discard, map_const, Function.comp_apply, run_map]

/-- Deleting an index fails exactly when popping it does, with the same error. -/
theorem delete_error_iff :
  ((delete place i).run w).1 = .error e ↔ ((pop place i).run w).1 = .error e
  := by
  rw [run_delete]
  cases ((pop place i).run w).1 <;> simp [Except.map]

/-! ### Where a removal finds an action -/

/-- Whether an index is past the end of a block, or below zero by more than twice its length. -/
def IsBeyond (w : Workspace) (place : Place) (i : Int) : Prop :=
  i < -(2 * (w.contents place).length) ∨ (w.contents place).length ≤ i

/-- Whether an index, counted once from the end, is not held by a word of 64 bits. -/
def Overflows (w : Workspace) (place : Place) (i : Int) : Prop :=
  i + (w.contents place).length < -0x8000000000000000 ∨ 0x8000000000000000 ≤ i

theorem IsBeyond.locate?_eq_none (h : w.IsBeyond place i) :
  locate? (w.contents place) (fromStart (w.contents place).length i) = none
  := by
  rw [IsBeyond] at h
  apply ActionBlock.locate?_eq_none
  rw [fromStart]
  split <;> omega

/-- An action is found at every other index, by counting from the end up to two times. -/
theorem exists_locate?_fromStart (h : ¬ w.IsBeyond place i) :
  ∃ (p : Nat) (r : Ref),
    locate? (w.contents place) (fromStart (w.contents place).length i) = some (p, r)
      ∧ (w.contents place)[p]? = some r
      ∧ (p : Int) = fromStart (w.contents place).length (fromStart (w.contents place).length i)
  := by
  rw [IsBeyond] at h
  generalize w.contents place = refs at h ⊢
  have hrange : 0 ≤ fromStart refs.length (fromStart refs.length i)
      ∧ fromStart refs.length (fromStart refs.length i) < refs.length := by
    simp only [fromStart]
    omega
  obtain ⟨p, hp⟩ := Int.eq_ofNat_of_zero_le hrange.1
  have hlt : p < refs.length := by omega
  use p, refs[p], locate?_eq_some hp hlt, List.getElem?_eq_getElem hlt, hp.symm

/-- Only an index far beyond the block is not held by a word. -/
theorem IsBeyond.isWord_iff (h : w.IsBeyond place i) :
  isWord (fromStart (w.contents place).length i) = true ↔ ¬ w.Overflows place i
  := by
  rw [IsBeyond] at h
  rw [Overflows, isWord, Bool.and_eq_true, decide_eq_true_iff, decide_eq_true_iff, fromStart]
  split <;> omega

/-- What a removal says where it finds no action. -/
theorem IsBeyond.noRemoval_eq (h : w.IsBeyond place i) :
  (w.Overflows place i →
    noRemoval (w.contents place) (fromStart (w.contents place).length i) = .indexOverflow)
  ∧ (¬ w.Overflows place i →
    noRemoval (w.contents place) (fromStart (w.contents place).length i) = w.nothingAt place)
  := by
  constructor
  · intro hoverflows
    have hword : isWord (fromStart (w.contents place).length i) = false := by
      rw [← Bool.not_eq_true, h.isWord_iff, not_not]
      exact hoverflows
    rw [noRemoval, hword]
    rfl
  · intro hsmall
    rw [noRemoval, h.isWord_iff.mpr hsmall]
    rfl

/-- Apart from faults, a removal fails exactly beyond the block, and says what it does there. -/
theorem pop_error_iff (he : ∀ fault, e ≠ .fault fault) :
  ((pop place i).run w).1 = .error e ↔ w.IsBeyond place i
    ∧ noRemoval (w.contents place) (fromStart (w.contents place).length i) = e
  := by
  constructor
  · intro herror
    by_cases hbeyond : w.IsBeyond place i
    · rw [run_pop_of_none hbeyond.locate?_eq_none] at herror
      exact ⟨hbeyond, Except.error.inj herror⟩
    · obtain ⟨p, r, hlocate, -⟩ := exists_locate?_fromStart hbeyond
      obtain ⟨fault, hfault⟩ := pop_error hlocate herror
      exact absurd hfault (he fault)
  · rintro ⟨hbeyond, rfl⟩
    rw [run_pop_of_none hbeyond.locate?_eq_none]

/-- An index that is too large is refused as such exactly beyond the block. -/
theorem pop_overflows_iff :
  ((pop place i).run w).1 = .error .indexOverflow ↔ w.IsBeyond place i ∧ w.Overflows place i
  := by
  rw [pop_error_iff (by simp), and_congr_right_iff]
  intro hbeyond
  by_cases hoverflows : w.Overflows place i
  · simp [hbeyond.noRemoval_eq.1 hoverflows, hoverflows]
  · have hne : w.nothingAt place ≠ .indexOverflow := by
      rw [nothingAt]
      split <;> simp
    simp [hbeyond.noRemoval_eq.2 hoverflows, hoverflows, hne]

/-- A removal says that there is no such action exactly at the indices past the end of the block and
those that are below zero by more than twice its length, unless the index is too large. -/
theorem pop_fails_iff :
  (∃ e ∈ [EditError.emptyBlock, .noSuchIndexToPop], ((pop place i).run w).1 = .error e)
    ↔ w.IsBeyond place i ∧ ¬ w.Overflows place i
  := by
  constructor
  · rintro ⟨e, he, herror⟩
    have hfault : ∀ fault, e ≠ .fault fault := by
      rintro fault rfl
      simp at he
    obtain ⟨hbeyond, rfl⟩ := (pop_error_iff hfault).mp herror
    refine ⟨hbeyond, ?_⟩
    intro hoverflows
    rw [hbeyond.noRemoval_eq.1 hoverflows] at he
    simp at he
  · rintro ⟨hbeyond, hsmall⟩
    use w.nothingAt place, nothingAt_mem
    rw [run_pop_of_none hbeyond.locate?_eq_none, hbeyond.noRemoval_eq.2 hsmall]

/-- A removal fails and changes nothing exactly at the indices past the end of the block, and at
those below zero by more than twice its length. It says that there is no such action, or that the
index is too large if no word holds it once it is counted from the end. At the indices of neither
kind that the block does not have, and if no branch occurs in it twice and its targets are numbers,
the action is removed that is at the index counted twice from the end, and the branches that are
left move as if it had been at the negative index that comes of counting once. -/
theorem removal_outside (w : Workspace) (place : Place) (i : Int) :
  ((∃ e ∈ [EditError.emptyBlock, .noSuchIndexToPop], ((pop place i).run w).1 = .error e)
      ↔ w.IsBeyond place i ∧ ¬ w.Overflows place i)
    ∧ (((pop place i).run w).1 = .error .indexOverflow
      ↔ w.IsBeyond place i ∧ w.Overflows place i)
    ∧ (∀ e, ((delete place i).run w).1 = .error e ↔ ((pop place i).run w).1 = .error e)
    ∧ (w.IsBeyond place i → ((pop place i).run w).2 = w ∧ ((delete place i).run w).2 = w)
    ∧ (w.Editable place → -(2 * (w.contents place).length) ≤ i → i < -(w.contents place).length →
      ∃ (p : Nat) (r : Ref) (w' : Workspace), (p : Int) = i + 2 * (w.contents place).length
        ∧ (w.contents place)[p]? = some r
        ∧ (pop place i).run w = (.ok r, w') ∧ (delete place i).run w = (.ok (), w')
        ∧ w'.contents place = (w.contents place).eraseIdx p
        ∧ ∀ x ∈ w'.contents place, w'.landing? x = (w.landing? x).map fun t =>
          if i + (w.contents place).length < t then t - 1 else t)
  := by
  refine ⟨pop_fails_iff, pop_overflows_iff, fun e => delete_error_iff, ?_, ?_⟩
  · intro hbeyond
    rw [run_delete, run_pop_of_none hbeyond.locate?_eq_none]
    exact ⟨rfl, rfl⟩
  · intro h hlow hhigh
    have hbeyond : ¬ w.IsBeyond place i := by
      rw [IsBeyond]
      omega
    obtain ⟨p, r, hlocate, hr, hp⟩ := exists_locate?_fromStart hbeyond
    have honce : fromStart (w.contents place).length i = i + (w.contents place).length :=
      if_pos (by omega)
    obtain ⟨w', hrun, heffect⟩ := h.exists_pop_of_locate hlocate
    have hmoved := heffect.congr (Shift.moved_removal _)
    refine ⟨p, r, w', ?_, hr, hrun, run_discard_of_ok hrun, heffect.contents, ?_⟩
    · rw [hp, honce, fromStart, if_pos (by omega)]
      omega
    · intro x hx
      rw [heffect.contents] at hx
      rw [hmoved.landing x hx (List.mem_of_mem_eraseIdx hx), honce]

end Workspace

/-- A branch to the second of two actions. -/
def jumpToPlay : Workspace where
  cells := #[⟨.jump 1, []⟩, ⟨.play, []⟩]
  root := [0, 1]

/-- A removal at an index that the block does not have removes an action and moves a branch. -/
theorem pop_below_jumpToPlay :
  (-3 : Int) < -(jumpToPlay.contents .root).length
    ∧ ∃ w, (Workspace.pop .root (-3)).run jumpToPlay = (.ok 1, w)
      ∧ (Workspace.delete .root (-3)).run jumpToPlay = (.ok (), w)
      ∧ w.contents .root = [0] ∧ jumpToPlay.landing? 0 = some 1 ∧ w.landing? 0 = some 0
  := ⟨by decide, _, rfl, rfl, rfl, rfl, rfl⟩

/-- A removal far below the block fails, one nearer to it removes its first action, and one past the
last index that a word holds is refused for that. -/
theorem removal_outside_jumpToPlay :
  jumpToPlay.Editable .root
    ∧ (∃ e ∈ [EditError.emptyBlock, .noSuchIndexToPop],
      ((Workspace.pop .root (-5)).run jumpToPlay).1 = .error e)
    ∧ ((Workspace.delete .root 0x8000000000000000).run jumpToPlay).1 = .error .indexOverflow
    ∧ ((Workspace.pop .root 0x8000000000000000).run jumpToPlay).2 = jumpToPlay
    ∧ ∃ w, (Workspace.delete .root (-4)).run jumpToPlay = (.ok (), w) ∧ w.contents .root = [1]
  := by
  have heditable : jumpToPlay.Editable .root := by
    refine ⟨trivial, by decide, ?_⟩
    intro r hr
    have hmem : r = 0 ∨ r = 1 := by
      simpa [jumpToPlay, Workspace.contents] using hr
    obtain rfl | rfl := hmem
    · exact ⟨_, rfl, rfl, fun v hv => by cases hv; rfl⟩
    · exact ⟨_, rfl, rfl, fun v hv => by cases hv⟩
  have hbeyond : jumpToPlay.IsBeyond .root 0x8000000000000000 := .inr (by decide)
  obtain ⟨hfails, -⟩ := Workspace.removal_outside jumpToPlay .root (-5)
  obtain ⟨-, hoverflows, hdelete, hunchanged, -⟩ :=
    Workspace.removal_outside jumpToPlay .root 0x8000000000000000
  obtain ⟨-, -, -, -, hslips⟩ := Workspace.removal_outside jumpToPlay .root (-4)
  obtain ⟨p, r, w, hp, -, -, hrun, hcontents, -⟩ := hslips heditable (by decide) (by decide)
  obtain rfl : p = 0 := by
    have : (p : Int) = 0 := hp
    omega
  refine ⟨heditable, hfails.mpr ⟨.inl (by decide), ?_⟩, ?_, (hunchanged hbeyond).1, w, hrun,
    hcontents⟩
  · rintro (hlow | hhigh)
    · exact absurd hlow (by decide)
    · exact absurd hhigh (by decide)
  · exact (hdelete _).mpr (hoverflows.mpr ⟨hbeyond, .inr le_rfl⟩)

end ActionBlock
