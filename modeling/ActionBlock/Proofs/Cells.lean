import ActionBlock.Workspace.Basic

/-!
# Records and blocks of a workspace

A workspace is changed by changing the record of an action, by replacing a block, and by adding an
action. Each change is described by what it makes of records and of blocks: a change to a record
leaves the blocks as they are, the replacement of a block leaves the records as they are, and adding
an action leaves both.
-/

namespace ActionBlock

namespace Workspace

/-- Whether there is a block at a place. -/
def Has (w : Workspace) : Place → Prop
  | .root => True
  | .body owner number => ∃ cell, w.cells[owner]? = some cell ∧ number < cell.bodies.length

/-! ### Changing a record -/

/-- A change to the record of an action leaves the other records. -/
theorem record?_modifyRecord (w : Workspace) (r s : Ref) (f : Record → Record) :
  (w.modifyRecord r f).record? s = if r = s then (w.record? s).map f else w.record? s
  := by
  simp only [record?, modifyRecord, Array.getElem?_modify]
  split
  · cases w.cells[s]? <;> rfl
  · rfl

/-- A change to a record leaves the bodies. -/
theorem bodies_modifyRecord (w : Workspace) (r s : Ref) (f : Record → Record) :
  (w.modifyRecord r f).cells[s]?.map Cell.bodies = w.cells[s]?.map Cell.bodies
  := by
  simp only [modifyRecord, Array.getElem?_modify]
  split
  · cases w.cells[s]? <;> rfl
  · rfl

/-! ### Replacing a block -/

/-- The replacement of a block leaves the records. -/
theorem record?_setContents (w : Workspace) (place : Place) (refs : List Ref) (r : Ref) :
  (w.setContents place refs).record? r = w.record? r
  := by
  cases place with
  | root => rfl
  | body owner number =>
    simp only [record?, setContents, Array.getElem?_modify]
    split
    · cases w.cells[r]? <;> rfl
    · rfl

/-- The block at a place is what it was replaced by. -/
theorem contents_setContents {w : Workspace} {place : Place} (h : w.Has place) (refs : List Ref) :
  (w.setContents place refs).contents place = refs
  := by
  cases place with
  | root => rfl
  | body owner number =>
    obtain ⟨cell, hcell, hnumber⟩ := h
    simp [contents, setContents, Array.getElem?_modify, hcell, hnumber]

theorem has_setContents {w : Workspace} {place : Place} (h : w.Has place) (refs : List Ref) :
  (w.setContents place refs).Has place
  := by
  cases place with
  | root => trivial
  | body owner number =>
    obtain ⟨cell, hcell, hnumber⟩ := h
    simp [Has, setContents, Array.getElem?_modify, hcell, hnumber]

/-! ### Adding an action -/

/-- The actions that were there stay when one is added. -/
theorem cells_add {w : Workspace} {r : Ref} {old : Cell} (h : w.cells[r]? = some old)
    (cell : Cell) :
  (w.add cell).2.cells[r]? = some old
  := by
  obtain ⟨hr, -⟩ := Array.getElem?_eq_some_iff.mp h
  rw [add, Array.getElem?_push_lt hr, ← Array.getElem?_eq_getElem hr, h]

theorem record?_add {w : Workspace} {r : Ref} {record : Record} (h : w.record? r = some record)
    (cell : Cell) :
  (w.add cell).2.record? r = some record
  := by
  obtain ⟨old, hold, rfl⟩ := Option.map_eq_some_iff.mp h
  rw [record?, cells_add hold, Option.map_some]

theorem has_add {w : Workspace} {place : Place} (h : w.Has place) (cell : Cell) :
  (w.add cell).2.Has place
  := by
  cases place with
  | root => trivial
  | body owner number =>
    obtain ⟨old, hold, hnumber⟩ := h
    exact ⟨old, cells_add hold cell, hnumber⟩

/-- The blocks that were there stay when an action is added. -/
theorem contents_add {w : Workspace} {place : Place} (h : w.Has place) (cell : Cell) :
  (w.add cell).2.contents place = w.contents place
  := by
  cases place with
  | root => rfl
  | body owner number =>
    obtain ⟨old, hold, -⟩ := h
    simp only [contents, cells_add hold, hold]

/-! ### The same blocks -/

/-- Workspaces with the same blocks. -/
structure SameBlocks (w w' : Workspace) : Prop where
  root : w'.root = w.root
  bodies : ∀ r : Ref, w'.cells[r]?.map Cell.bodies = w.cells[r]?.map Cell.bodies

namespace SameBlocks

variable {w w' w'' : Workspace}

theorem trans (h : SameBlocks w w') (h' : SameBlocks w' w'') :
  SameBlocks w w''
  := ⟨h'.root.trans h.root, fun r => (h'.bodies r).trans (h.bodies r)⟩

/-- Workspaces with the same blocks have them at the same places. -/
theorem contents_eq (h : SameBlocks w w') (place : Place) :
  w'.contents place = w.contents place
  := by
  cases place with
  | root => exact h.root
  | body owner number =>
    have hbodies : ∀ c : Option Cell,
        (c.bind (·.bodies[number]?)) = (c.map Cell.bodies).bind (·[number]?) := by
      intro c
      cases c <;> rfl
    simp only [contents, hbodies, h.bodies owner]

theorem has (h : SameBlocks w w') {place : Place} (hplace : w.Has place) :
  w'.Has place
  := by
  cases place with
  | root => trivial
  | body owner number =>
    obtain ⟨cell, hcell, hnumber⟩ := hplace
    have hbodies := h.bodies owner
    rw [hcell, Option.map_some, Option.map_eq_some_iff] at hbodies
    obtain ⟨cell', hcell', hsame⟩ := hbodies
    exact ⟨cell', hcell', hsame ▸ hnumber⟩

end SameBlocks

end Workspace

end ActionBlock
