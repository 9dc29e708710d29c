import ActionBlock.Workspace.Basic

/-!
# Edits

Actions are inserted into a block and removed from it by index. A negative index counts from
the end. Branches of the block move along with the actions that they land on: an insertion
moves the branches that land at or after it, the end of the block included, and a removal
those that land after it, so that a branch that landed on the removed action lands on the next.
An action that occurs more than once is moved once for each occurrence.

An edit that fails keeps what it had done by then, which is why edits are state transformers over
an exception. A branch whose target is no number cannot be moved: an insertion fails before the
action is inserted, and a removal after it is removed.

Slices are given by two ends and a step. Deleting a slice removes its members from the last to
the first; assigning to one removes its members and inserts the new actions in their place.
-/

namespace ActionBlock

-- Powers are those of the core library, whatever else is imported.
attribute [local instance (high)] instPowNat

/-- Why an edit cannot be made. -/
inductive EditError where
  /-- A look-up at an index that the block does not have. -/
  | noSuchIndex
  /-- A replacement at an index that the block does not have. -/
  | noSuchIndexToSet
  /-- A removal at an index that the block does not have. -/
  | noSuchIndexToPop
  /-- A removal from a block that is empty. -/
  | emptyBlock
  /-- A look-up or a replacement at an index that no word holds. -/
  | indexTooLarge
  /-- A removal at an index that no word holds. -/
  | indexOverflow
  /-- A slice with a step of zero. -/
  | zeroStep
  /-- An assignment to a slice with a step other than one. -/
  | extendedSlice
  /-- An action that is not in the block, as it is shown. -/
  | absent (described : Text)
  /-- An action that is not in the list, as it is shown. -/
  | absentFromList (described : Text)
  /-- An action that is not in the list that it should be removed from. -/
  | absentToRemove
  /-- An action that is not in the tuple. -/
  | absentFromTuple
  /-- An assignment to a slice of a list with a step other than one, of more or fewer actions
  than it has room for. -/
  | unevenSlice (given room : Nat)
  /-- An action that cannot be shown or moved. -/
  | fault (kept : Fault)
  deriving DecidableEq, Repr

/-- The wording of an error. -/
def EditError.message : EditError → Text
  | noSuchIndex => "list index out of range"
  | noSuchIndexToSet => "list assignment index out of range"
  | noSuchIndexToPop => "pop index out of range"
  | emptyBlock => "pop from empty list"
  | indexTooLarge => "cannot fit 'int' into an index-sized integer"
  | indexOverflow => "index too large to convert to a word"
  | zeroStep => "slice step cannot be zero"
  | extendedSlice => "cannot assign to an extended slice of a sequence"
  | absent described => described ++ " is not in this sequence"
  | absentFromList described => described ++ " is not in list"
  | absentToRemove => "list.remove(x): x not in list"
  | absentFromTuple => "tuple.index(x): x not in tuple"
  | unevenSlice given room =>
    "attempt to assign sequence of size " ++ Numeral.nat given ++
      " to extended slice of size " ++ Numeral.nat room
  | fault kept => kept.message

/-! ### Indices and slices -/

/-- An index counted from the start, in a list of the given size. -/
def fromStart (size : Nat) (index : Int) : Int := if index < 0 then index + size else index

/-- Whether an index is held by a word of 64 bits. Lists take no other, and their positions are
such. -/
def isWord (index : Int) : Bool := -2 ^ (63 : Nat) ≤ index && index < 2 ^ (63 : Nat)

/-- The position of an index in a list of the given size. -/
def position? (size : Nat) (index : Int) : Option Nat :=
  let index := fromStart size index
  if 0 ≤ index ∧ index < size then some index.toNat else none

/-- The position of an index in a list, and the member there. -/
def locate? {α : Type} (members : List α) (index : Int) : Option (Nat × α) := do
  let position ← position? members.length index
  let member ← members[position]?
  some (position, member)

/-- A slice: where it starts, where it stops, and its step, each of which may be left open. -/
structure Slice where
  start : Option Int := none
  stop : Option Int := none
  step : Option Int := none
  deriving DecidableEq, Repr

/-- The ends and the step of a slice in a list of some size. -/
structure Bounds where
  start : Int
  stop : Int
  step : Int
  deriving DecidableEq, Repr

namespace Slice

/-- An end of a slice, kept within the given least and greatest position. -/
def clamp (size : Nat) (least greatest : Int) (index : Int) : Int :=
  min (max (fromStart size index) least) greatest

/-- The bounds of a slice in a list of the given size. A slice with a negative step runs from the
end to the start. -/
def bounds? (s : Slice) (size : Nat) : Option Bounds :=
  let step := s.step.getD 1
  if step = 0 then none
  else
    let least : Int := if step < 0 then -1 else 0
    let greatest : Int := if step < 0 then size - 1 else size
    let start := s.start.elim (if step < 0 then greatest else least) (clamp size least greatest)
    let stop := s.stop.elim (if step < 0 then least else greatest) (clamp size least greatest)
    some ⟨start, stop, step⟩

end Slice

/-- The positions that a slice selects, in its order. -/
def Bounds.positions (b : Bounds) : List Nat :=
  let count :=
    if 0 < b.step then (b.stop - b.start + b.step - 1) / b.step
    else (b.start - b.stop - b.step - 1) / -b.step
  (List.range count.toNat).map fun (k : Nat) => (b.start + b.step * k).toNat

/-! ### Edits of a block -/

/-- A change of a workspace that may fail. -/
abbrev EditOp (α : Type) := ExceptT EditError (StateM Workspace) α

/-- Which branches an edit moves, by how the target compares with an index, and how far. -/
structure Shift where
  index : Int
  moves : Ordering → Bool
  distance : Int

namespace Shift

/-- The shift of an insertion before an index. -/
def insertion (index : Int) : Shift := ⟨index, (· ≠ .lt), 1⟩

/-- The shift of a removal at an index. -/
def removal (index : Int) : Shift := ⟨index, (· = .gt), -1⟩

/-- The target of a branch after a shift. -/
def target (s : Shift) (t : Value) : Except Fault Value := do
  let order ← t.compareInt s.index
  .ok (if order.any s.moves then t.add s.distance else t)

end Shift

namespace Workspace

/-- The target of a branch that has one. What is no action cannot be asked for it. -/
def target? (w : Workspace) (r : Ref) : Except Fault (Option Value) :=
  match w.record? r with
  | none => .ok none
  | some record =>
    match record.kind.misuse? "jumplike" with
    | some fault => .error fault
    | none => .ok record.operands.target?

/-- The branches of a list that have a target, once for each occurrence. -/
def branches (w : Workspace) (refs : List Ref) : Except Fault (List Ref) := do
  let targets ← refs.mapM w.target?
  .ok ((refs.zip targets).filterMap fun (r, target) => target.map fun _ => r)

/-- Moves branches by a shift, one after the other, up to the first that cannot be moved. -/
def moveEach (s : Shift) : List Ref → EditOp Unit
  | [] => pure ()
  | r :: refs => do
    match ((← get).record? r).bind (·.operands.target?) with
    | none => moveEach s refs
    | some t =>
      match s.target t with
      | .error fault => throw (.fault fault)
      | .ok t =>
        modify (·.modifyRecord r (Record.withTarget t))
        moveEach s refs

/-- Moves the branches of a list by a shift. -/
def move (s : Shift) (refs : List Ref) : EditOp Unit := do
  match (← get).branches refs with
  | .error fault => throw (.fault fault)
  | .ok branches => moveEach s branches

/-- Adds an action at the end of a block. -/
def append (w : Workspace) (place : Place) (r : Ref) : Workspace :=
  w.setContents place (w.contents place ++ [r])

/-- Adds actions at the end of a block. -/
def extend (w : Workspace) (place : Place) (rs : List Ref) : Workspace :=
  w.setContents place (w.contents place ++ rs)

/-- Inserts an action before an index, the nearest one that there is. -/
def insert (place : Place) (index : Int) (r : Ref) : EditOp Unit := do
  let refs := (← get).contents place
  let index := min (max (fromStart refs.length index) 0) refs.length
  move (.insertion index) refs
  modify (·.setContents place (refs.insertIdx index.toNat r))

/-- Inserts actions one after the other, the first before an index. -/
def insertAll (place : Place) (index : Nat) : List Ref → EditOp Unit
  | [] => pure ()
  | r :: rs => do
    insert place index r
    insertAll place (index + 1) rs

/-- Removes the action at a position, and moves the branches that land after an index. -/
def removeAt (place : Place) (position : Nat) (index : Int) : EditOp Unit := do
  let refs := ((← get).contents place).eraseIdx position
  modify (·.setContents place refs)
  move (.removal index) refs

/-- Why there is no action to remove at an index of a list. -/
def noRemoval (refs : List Ref) (index : Int) : EditError :=
  if !isWord index then .indexOverflow
  else if refs.isEmpty then .emptyBlock
  else .noSuchIndexToPop

/-- Removes the action at an index. An index that is still negative when counted from the start
is counted from the end once more. -/
def pop (place : Place) (index : Int) : EditOp Ref := do
  let refs := (← get).contents place
  let index := fromStart refs.length index
  match locate? refs index with
  | some (position, r) =>
    removeAt place position index
    pure r
  | none => throw (noRemoval refs index)

/-- Removes the action at an index, and does not give it. -/
def delete (place : Place) (index : Int) : EditOp Unit := discard (pop place index)

/-- Removes the actions at positions, one after the other. -/
def popAll (place : Place) : List Nat → EditOp Unit
  | [] => pure ()
  | position :: positions => do
    discard (pop place position)
    popAll place positions

/-- Removes the actions of a slice, the last one first. -/
def deleteBounds (place : Place) (b : Bounds) : EditOp Unit :=
  popAll place (b.positions.mergeSort fun i j => j ≤ i)

/-- The bounds of a slice of a block. -/
def boundsOf (place : Place) (s : Slice) : EditOp Bounds := do
  match s.bounds? ((← get).contents place).length with
  | none => throw .zeroStep
  | some b => pure b

/-- Removes the actions of a slice. -/
def deleteSlice (place : Place) (s : Slice) : EditOp Unit := do
  deleteBounds place (← boundsOf place s)

/-- Replaces the action at an index. Branches stay as they are. -/
def replace (place : Place) (index : Int) (r : Ref) : EditOp Unit := do
  let refs := (← get).contents place
  match position? refs.length index with
  | none => throw (if isWord index then .noSuchIndexToSet else .indexTooLarge)
  | some position => modify (·.setContents place (refs.set position r))

/-- Replaces the actions of a slice. -/
def replaceSlice (place : Place) (s : Slice) (rs : List Ref) : EditOp Unit := do
  let b ← boundsOf place s
  if b.step ≠ 1 then throw .extendedSlice
  deleteBounds place ⟨b.start, max b.start b.stop, 1⟩
  insertAll place b.start.toNat rs

/-- The action at an index. -/
def actionAt (w : Workspace) (place : Place) (index : Int) : Except EditError Ref :=
  match locate? (w.contents place) index with
  | some (_, r) => .ok r
  | none => .error (if isWord index then .noSuchIndex else .indexTooLarge)

/-- The actions of a slice. -/
def actionsAt (w : Workspace) (place : Place) (s : Slice) : Except EditError (List Ref) :=
  let refs := w.contents place
  match s.bounds? refs.length with
  | none => .error .zeroStep
  | some b => .ok (b.positions.filterMap (refs[·]?))

/-- The index of the first occurrence of an action. -/
def indexOf (w : Workspace) (place : Place) (r : Ref) : Except EditError Nat :=
  match (w.contents place).idxOf? r with
  | some index => .ok index
  | none =>
    match (w.action r).record.describe with
    | .ok t => .error (.absent t)
    | .error fault => .error (.fault fault)

/-- Removes the first occurrence of an action. -/
def remove (place : Place) (r : Ref) : EditOp Unit := do
  match (← get).indexOf place r with
  | .error e => throw e
  | .ok index => discard (pop place index)

end Workspace

end ActionBlock
