import ActionBlock.Workspace.Edit

/-!
# Bodies held as lists

A body that was set to a list of actions is edited as a list. Nothing looks after its branches,
which keep their targets, and an action is looked for by equality. A tuple can be searched but not
changed, and what is neither can only be shown.
-/

namespace ActionBlock

namespace BodyForm

/-- The word for what holds the actions of a body, in messages. -/
def word : BodyForm → Text
  | block => "InstructionSequence"
  | list => "list"
  | tuple => "tuple"
  | other value => value.word

/-- Whether the actions of a body can be changed one by one. -/
def isMutable : BodyForm → Bool
  | block | list => true
  | tuple | other _ => false

/-- Whether a body has members. -/
def hasMembers : BodyForm → Bool
  | other value => value.members.toBool
  | _ => true

/-- A body as messages show it, given how its actions are shown. -/
def quoted (members : Except Fault (List Text)) : BodyForm → Except Fault Text
  | block => members.map Value.blockText
  | list => members.map Value.listText
  | tuple => members.map Value.tupleText
  | other value => value.quoted

end BodyForm

namespace Workspace

/-- A body as messages show it. -/
def describeBody (w : Workspace) (place : Place) : Except Fault Text :=
  (w.form place).quoted ((w.block place).mapM fun a => a.record.describe)

/-- The first position of an action that is equal to the given one, counted on from a number. -/
def firstSame (w : Workspace) (a : Action) : List Ref → Nat → Except Fault (Option Nat)
  | [], _ => .ok none
  | r :: refs, number =>
    match (w.action r).same a with
    | .ok true => .ok (some number)
    | .ok false => w.firstSame a refs (number + 1)
    | .error fault => .error fault

namespace ListBody

/-- Fails unless the members of a body can be counted. -/
def requireMembers (place : Place) : EditOp Unit := do
  unless ((← get).form place).hasMembers do throw (.fault .wrongKind)

/-- Fails unless a body can be changed by the operation of the given name. -/
def requireMutable (place : Place) (operation : Text) : EditOp Unit := do
  let form := (← get).form place
  unless form.isMutable do throw (.fault (.lacks form.word operation))

/-- Fails unless the members of a body can be replaced and deleted by index. -/
def requireItems (place : Place) : EditOp Unit := do
  unless ((← get).form place).isMutable do throw (.fault .wrongKind)

/-- Adds actions at the end of a list. -/
def extend (place : Place) (operation : Text) (rs : List Ref) : EditOp Unit := do
  requireMutable place operation
  modify (·.extend place rs)

/-- Inserts an action before an index, the nearest one that there is. -/
def insert (place : Place) (index : Int) (r : Ref) : EditOp Unit := do
  requireMutable place "insert"
  unless isWord index do throw .indexOverflow
  let refs := (← get).contents place
  let index := min (max (fromStart refs.length index) 0) refs.length
  modify (·.setContents place (refs.insertIdx index.toNat r))

/-- Removes the action at an index, or fails with the given error. -/
def removeAt (place : Place) (index : Int) (e : EditError) : EditOp Ref := do
  let refs := (← get).contents place
  match locate? refs index with
  | none => throw e
  | some (position, r) =>
    modify (·.setContents place (refs.eraseIdx position))
    pure r

/-- Removes the action at an index and returns it. -/
def pop (place : Place) (index : Int) : EditOp Ref := do
  requireMutable place "pop"
  removeAt place index (noRemoval ((← get).contents place) index)

/-- Removes the action at an index. -/
def delete (place : Place) (index : Int) : EditOp Unit := do
  requireItems place
  discard (removeAt place index (if isWord index then .noSuchIndexToSet else .indexTooLarge))

/-- Removes the actions of a slice. -/
def deleteSlice (place : Place) (s : Slice) : EditOp Unit := do
  requireItems place
  let positions := (← boundsOf place s).positions
  let refs := (← get).contents place
  let kept := refs.zipIdx.filter fun (_, position) => !positions.contains position
  modify (·.setContents place (kept.map (·.1)))

/-- Replaces the action at an index. -/
def replace (place : Place) (index : Int) (r : Ref) : EditOp Unit := do
  requireItems place
  Workspace.replace place index r

/-- Replaces the actions of a slice. If the step is not one, there have to be as many new ones as
old ones. -/
def replaceSlice (place : Place) (s : Slice) (rs : List Ref) : EditOp Unit := do
  requireItems place
  let b ← boundsOf place s
  let refs := (← get).contents place
  if b.step = 1 then
    let stop := max b.start b.stop
    modify (·.setContents place (refs.take b.start.toNat ++ rs ++ refs.drop stop.toNat))
  else
    let positions := b.positions
    if positions.length = rs.length then
      modify (·.setContents place
        ((positions.zip rs).foldl (fun refs (position, r) => refs.set position r) refs))
    else throw (.unevenSlice rs.length positions.length)

/-- The index of the first action that is equal to the given one, or the given error. -/
def search (place : Place) (r : Ref) (e : Except Fault EditError) : EditOp Nat := do
  let w ← get
  match w.firstSame (w.action r) (w.contents place) 0, e with
  | .ok (some index), _ => pure index
  | .ok none, .ok e => throw e
  | .ok none, .error fault | .error fault, _ => throw (.fault fault)

/-- The index of the first action that is equal to the given one. -/
def indexOf (place : Place) (r : Ref) : EditOp Nat := do
  match (← get).form place with
  | .tuple => search place r (.ok .absentFromTuple)
  | .other value => throw (.fault (.lacks value.word "index"))
  | _ => search place r (((← get).action r).record.describe.map .absentFromList)

/-- Removes the first action that is equal to the given one. -/
def remove (place : Place) (r : Ref) : EditOp Unit := do
  requireMutable place "remove"
  let index ← search place r (.ok .absentToRemove)
  discard (removeAt place index .noSuchIndexToPop)

end ListBody

end Workspace

end ActionBlock
