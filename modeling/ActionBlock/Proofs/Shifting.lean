import ActionBlock.Proofs.Cells
import ActionBlock.Proofs.Kinds
import ActionBlock.Proofs.Running
import ActionBlock.Proofs.WellFormed
import ActionBlock.Workspace.Edit
import Mathlib.Data.List.Nodup
import Mathlib.Logic.Function.Iterate

/-!
# How branches move

What an edit does to the records of a workspace. A shift moves the branches of a list of actions,
and if each of them has a number for a target, or none, then it does not fail, and it changes
nothing but the targets. A branch is moved once for each of its occurrences in the list, so the
index that it names afterwards is a function of the index that it named, iterated that many times.
-/

namespace ActionBlock

/-! ### Targets -/

/-- The index that a branch names. -/
def Record.landing? (r : Record) : Option Int := r.operands.target?.bind Value.whole?

/-- The index that a branch of a workspace names. -/
def Workspace.landing? (w : Workspace) (r : Ref) : Option Int :=
  (w.record? r).bind Record.landing?

/-- What is left of a record without the target of a branch. -/
def Record.untargeted (r : Record) : Record := r.withTarget .none

/-- The index that a branch names after a shift. -/
def Shift.moved (s : Shift) (t : Int) : Int :=
  if s.moves (compare t s.index) then t + s.distance else t

/-- An insertion moves the targets at its index and behind it up. -/
theorem Shift.moved_insertion (i t : Int) :
  (insertion i).moved t = if i ≤ t then t + 1 else t
  := by
  simp only [moved, insertion, decide_eq_true_eq, ne_eq, compare_lt_iff_lt, not_lt]

/-- A removal moves the targets behind its index down, and not the one at it. -/
theorem Shift.moved_removal (i t : Int) :
  (removal i).moved t = if i < t then t - 1 else t
  := by
  simp only [moved, removal, decide_eq_true_eq, compare_gt_iff_gt]
  rfl

/-- Moving a target adds to the integer it counts as. -/
theorem Value.whole?_add (v : Value) (d : Int) :
  (v.add d).whole? = v.whole?.map (· + d)
  := by
  obtain ⟨_ | _ | _ | _ | _ | _⟩ | _ := v <;> rfl

theorem Value.isNumber_add (v : Value) (d : Int) :
  (v.add d).isNumber = v.isNumber
  := by
  obtain ⟨_ | _ | _ | _ | _ | _⟩ | _ := v <;> rfl

theorem Value.isNumber_of_whole {v : Value} {n : Int} (h : v.whole? = some n) :
  v.isNumber = true
  := isNumber_of_isInteger (isInteger_iff.mpr ⟨n, h⟩)

theorem Value.isNone_of_isNumber {v : Value} (h : v.isNumber = true) :
  v.isNone = false
  := by
  obtain ⟨_ | _ | _ | _ | _ | _⟩ | _ := v
  all_goals first | rfl | cases h

/-- A number can be compared with an index, and an integer compares with it as integers do. -/
theorem Value.exists_compareInt {v : Value} (h : v.isNumber = true) (index : Int) :
  ∃ order, v.compareInt index = .ok order
    ∧ ∀ n, v.whole? = some n → order = some (compare n index)
  := by
  obtain ⟨_ | b | m | x | _ | _⟩ | _ := v
  all_goals cases h
  · exact ⟨_, rfl, fun n hn => by cases hn; rfl⟩
  · exact ⟨_, rfl, fun n hn => by cases hn; rfl⟩
  · exact ⟨_, rfl, fun n hn => by cases hn⟩

/-- A number can be moved, and if it is an integer, as far as the shift says. -/
theorem Shift.exists_target {v : Value} (h : v.isNumber = true) (s : Shift) :
  ∃ v', s.target v = .ok v' ∧ v'.isNumber = true ∧ v'.whole? = v.whole?.map s.moved
  := by
  obtain ⟨order, horder, hwhole⟩ := v.exists_compareInt h s.index
  refine ⟨_, by rw [target, horder]; rfl, ?_, ?_⟩
  · split
    · rw [Value.isNumber_add, h]
    · exact h
  · cases hn : v.whole? with
    | none =>
      split
      · rw [Value.whole?_add, hn]
        rfl
      · exact hn
    | some n =>
      rw [hwhole n hn, Option.any_some, Option.map_some, moved]
      split
      · rw [Value.whole?_add, hn, Option.map_some]
      · exact hn

namespace Record

theorem untargeted_withTarget (r : Record) (v : Value) :
  (r.withTarget v).untargeted = r.untargeted
  := by
  obtain ⟨kind, operands, code, name, trailing, offset, sizes, forms⟩ := r
  cases operands <;> rfl

theorem kind_untargeted (r : Record) :
  r.untargeted.kind = r.kind
  := rfl

theorem isBranch_untargeted (r : Record) :
  r.untargeted.operands.isBranch = r.operands.isBranch
  := by
  obtain ⟨kind, operands, code, name, trailing, offset, sizes, forms⟩ := r
  cases operands <;> rfl

theorem any_isBranch_untargeted (record? : Option Record) :
  (record?.map untargeted).any (·.operands.isBranch) = record?.any (·.operands.isBranch)
  := by
  cases record? with
  | none => rfl
  | some record => exact record.isBranch_untargeted

/-- The target of a branch is the one that was set. -/
theorem target?_withTarget {r : Record} {old v : Value} (h : r.operands.target? = some old)
    (hv : v.isNone = false) :
  (r.withTarget v).operands.target? = some v
  := by
  obtain ⟨kind, operands, code, name, trailing, offset, sizes, forms⟩ := r
  cases operands with
  | branch target displacement => simp [withTarget, Operands.withTarget, Operands.target?, hv]
  | _ => cases h

/-- Only a branch has a target. -/
theorem target?_of_not_branch {r : Record} (h : r.operands.isBranch = false) :
  r.operands.target? = none
  := by
  obtain ⟨kind, operands, code, name, trailing, offset, sizes, forms⟩ := r
  cases operands with
  | branch => cases h
  | _ => rfl

end Record

namespace Workspace

/-! ### Moving branches -/

/-- An action whose target is a number, if it has one. -/
def Movable (w : Workspace) (r : Ref) : Prop :=
  ∃ record, w.record? r = some record ∧ record.kind.misuse? "jumplike" = none
    ∧ ∀ v, record.operands.target? = some v → v.isNumber = true

/-- The branches of a list, whether they have a target or not. -/
def branchesIn (w : Workspace) (refs : List Ref) : List Ref :=
  refs.filter fun r => (w.record? r).any (·.operands.isBranch)

theorem branchesIn_setContents (w : Workspace) (place : Place) (refs refs' : List Ref) :
  (w.setContents place refs).branchesIn refs' = w.branchesIn refs'
  := by
  simp only [branchesIn, record?_setContents]

theorem movable_setContents {w : Workspace} {place : Place} {refs : List Ref} {r : Ref} :
  (w.setContents place refs).Movable r ↔ w.Movable r
  := by
  simp only [Movable, record?_setContents]

/-- Replacing the contents of a block does not change where its actions land. -/
theorem landing?_setContents (w : Workspace) (place : Place) (refs : List Ref) (r : Ref) :
  (w.setContents place refs).landing? r = w.landing? r
  := by
  rw [landing?, landing?, record?_setContents]

theorem landing?_eq_none {w : Workspace} {r : Ref}
    (h : (w.record? r).bind (·.operands.target?) = none) :
  w.landing? r = none
  := by
  rw [landing?]
  cases hrecord : w.record? r with
  | none => rfl
  | some record =>
    have htarget : record.operands.target? = none := by simpa [hrecord] using h
    rw [Option.bind_some, Record.landing?, htarget, Option.bind_none]

/-- An action that names an index is a branch. -/
theorem isBranch_of_landing? {w : Workspace} {r : Ref} {t : Int} (h : w.landing? r = some t) :
  (w.record? r).any (·.operands.isBranch) = true
  := by
  obtain ⟨record, hrecord, hlanding⟩ := Option.bind_eq_some_iff.mp h
  obtain ⟨target, htarget, -⟩ := Option.bind_eq_some_iff.mp hlanding
  rw [hrecord, Option.any_some]
  cases hbranch : record.operands.isBranch with
  | true => rfl
  | false =>
    rw [Record.target?_of_not_branch hbranch] at htarget
    cases htarget

/-- What moving the branches among some actions changes: the indices that they name, once for each
occurrence. -/
structure Moved (s : Shift) (refs : List Ref) (w w' : Workspace) : Prop where
  blocks : SameBlocks w w'
  untargeted : ∀ r, (w'.record? r).map Record.untargeted = (w.record? r).map Record.untargeted
  movable : ∀ r, w.Movable r → w'.Movable r
  others : ∀ r ∉ refs, w'.record? r = w.record? r
  landing : ∀ r, w'.landing? r = (w.landing? r).map s.moved^[refs.count r]

namespace Moved

variable {s : Shift} {w w' w'' : Workspace} {r : Ref} {refs : List Ref}

theorem nil :
  Moved s [] w w
  := ⟨⟨rfl, fun _ => rfl⟩, fun _ => rfl, fun _ h => h, fun _ _ => rfl, by simp⟩

/-- Moving one target and then those of the rest moves them all. -/
theorem cons (h : Moved s [r] w w') (h' : Moved s refs w' w'') :
  Moved s (r :: refs) w w''
  where
  blocks := h.blocks.trans h'.blocks
  untargeted x := (h'.untargeted x).trans (h.untargeted x)
  movable x hx := h'.movable x (h.movable x hx)
  others x hx := by
    rw [List.mem_cons, not_or] at hx
    rw [h'.others x hx.2, h.others x (by simpa using hx.1)]
  landing x := by
    have hcount : (r :: refs).count x = refs.count x + [r].count x := by
      rw [← List.singleton_append, List.count_append, Nat.add_comm]
    rw [h'.landing x, h.landing x, Option.map_map, ← Function.iterate_add, hcount]

/-- An action without a target stays as it is. -/
theorem skip (h : w.landing? r = none) :
  Moved s [r] w w
  := by
  refine ⟨⟨rfl, fun _ => rfl⟩, fun _ => rfl, fun _ h => h, fun _ _ => rfl, ?_⟩
  intro x
  by_cases hx : x = r
  · rw [hx, h]
    rfl
  · rw [List.count_eq_zero_of_not_mem (by simpa using hx), Function.iterate_zero, Option.map_id,
      id]

/-- A branch is moved by setting its target. -/
theorem set {record : Record} {v v' : Value} (hrecord : w.record? r = some record)
    (hv : record.operands.target? = some v) (hnumber : v'.isNumber = true)
    (hmoved : v'.whole? = v.whole?.map s.moved) :
  Moved s [r] w (w.modifyRecord r (Record.withTarget v'))
  := by
  have htarget := Record.target?_withTarget hv (Value.isNone_of_isNumber hnumber)
  refine ⟨⟨rfl, fun x => bodies_modifyRecord w r x _⟩, ?_, ?_, ?_, ?_⟩
  · intro x
    rw [record?_modifyRecord]
    split
    · cases w.record? x with
      | none => rfl
      | some record => exact congrArg some (record.untargeted_withTarget v')
    · rfl
  · rintro x ⟨old, hold, hkind, hnumeric⟩
    by_cases hx : r = x
    · subst hx
      refine ⟨record.withTarget v', by rw [record?_modifyRecord, if_pos rfl, hrecord]; rfl, ?_, ?_⟩
      · obtain rfl := Option.some.inj (hrecord.symm.trans hold)
        exact hkind
      · intro u hu
        obtain rfl := Option.some.inj (htarget.symm.trans hu)
        exact hnumber
    · exact ⟨old, by rw [record?_modifyRecord, if_neg hx, hold], hkind, hnumeric⟩
  · intro x hx
    rw [record?_modifyRecord, if_neg (fun h => hx (by simp [h]))]
  · intro x
    by_cases hx : r = x
    · subst hx
      simp only [landing?, record?_modifyRecord, if_pos, hrecord, Option.map_some, Option.bind_some,
        Record.landing?, htarget, hv, hmoved, List.count_singleton_self, Function.iterate_one]
    · rw [List.count_eq_zero_of_not_mem (by simpa using Ne.symm hx), Function.iterate_zero,
        Option.map_id, id, landing?, landing?, record?_modifyRecord, if_neg hx]

/-- A branch is moved once if no branch occurs twice. -/
theorem landing_of_distinct (h : Moved s refs w w') (hdistinct : (w.branchesIn refs).Nodup)
    (hr : r ∈ refs) :
  w'.landing? r = (w.landing? r).map s.moved
  := by
  rw [h.landing]
  cases hlanding : w.landing? r with
  | none => rfl
  | some t =>
    have hbranch := isBranch_of_landing? hlanding
    have hcount : (w.branchesIn refs).count r = refs.count r := List.count_filter hbranch
    rw [← hcount, List.count_eq_one_of_mem hdistinct (List.mem_filter.mpr ⟨hr, hbranch⟩),
      Function.iterate_one]

end Moved

/-- Branches with numbers for targets can be moved. -/
theorem exists_moveEach (s : Shift) {refs : List Ref} {w : Workspace}
    (hmovable : ∀ r ∈ refs, w.Movable r) :
  ∃ w', (moveEach s refs).run w = (.ok (), w') ∧ Moved s refs w w'
  := by
  induction refs generalizing w with
  | nil => exact ⟨w, rfl, .nil⟩
  | cons r refs ih =>
    obtain ⟨record, hrecord, -, hnumber⟩ := hmovable r List.mem_cons_self
    have hrest : ∀ x ∈ refs, w.Movable x := fun x hx => hmovable x (List.mem_cons_of_mem r hx)
    rw [moveEach, run_bind_of_ok run_get, hrecord, Option.bind_some]
    cases htarget : record.operands.target? with
    | none =>
      obtain ⟨w', hrun, hmoved⟩ := ih hrest
      have hskip : w.landing? r = none := by
        apply landing?_eq_none
        rw [hrecord, Option.bind_some, htarget]
      exact ⟨w', hrun, .cons (.skip hskip) hmoved⟩
    | some v =>
      obtain ⟨v', hv', hnumber', hmoved'⟩ := s.exists_target (hnumber v htarget)
      have hset := Moved.set hrecord htarget hnumber' hmoved'
      obtain ⟨w', hrun, hmoved⟩ := ih (fun x hx => hset.movable x (hrest x hx))
      refine ⟨w', ?_, .cons hset hmoved⟩
      simp only [hv']
      rw [run_bind_of_ok (run_modify _), hrun]

/-- The branches of a list are the actions with a target. -/
theorem branches_eq {refs : List Ref} {w : Workspace} (h : ∀ r ∈ refs, w.Movable r) :
  w.branches refs = .ok (refs.filter fun r => ((w.record? r).bind (·.operands.target?)).isSome)
  := by
  have htargets : refs.mapM w.target?
      = .ok (refs.map fun r => (w.record? r).bind (·.operands.target?)) := by
    rw [mapM_eq_ok_iff, List.forall₂_map_right_iff, List.forall₂_same]
    intro r hr
    obtain ⟨record, hrecord, hkind, -⟩ := h r hr
    simp only [target?, hrecord, hkind, Option.bind_some]
  have hfilter : ∀ rs : List Ref, ((rs.zip (rs.map fun r => (w.record? r).bind
      (·.operands.target?))).filterMap fun p => p.2.map fun _ => p.1)
      = rs.filter fun r => ((w.record? r).bind (·.operands.target?)).isSome := by
    intro rs
    induction rs with
    | nil => rfl
    | cons r rs ih =>
      rw [List.map_cons, List.zip_cons_cons, List.filterMap_cons, List.filter_cons, ih]
      cases (w.record? r).bind (·.operands.target?) <;> rfl
  rw [branches, htargets]
  exact congrArg Except.ok (hfilter refs)

/-- The branches of a list can be moved if those with a target have numbers. -/
theorem exists_move (s : Shift) {refs : List Ref} {w : Workspace}
    (hmovable : ∀ r ∈ refs, w.Movable r) :
  ∃ w', (move s refs).run w = (.ok (), w') ∧ Moved s refs w w'
  := by
  rw [move, run_bind_of_ok run_get, branches_eq hmovable]
  obtain ⟨w', hrun, hmoved⟩ :=
    exists_moveEach s fun r hr => hmovable r (List.mem_of_mem_filter hr)
  refine ⟨w', hrun, hmoved.blocks, hmoved.untargeted, hmoved.movable, ?_, ?_⟩
  · intro r hr
    exact hmoved.others r (fun hmem => hr (List.mem_of_mem_filter hmem))
  · intro r
    rw [hmoved.landing]
    cases htarget : (w.record? r).bind (·.operands.target?) with
    | none =>
      rw [landing?_eq_none htarget]
      rfl
    | some target => rw [List.count_filter (by rw [htarget, Option.isSome_some])]

end Workspace

end ActionBlock
