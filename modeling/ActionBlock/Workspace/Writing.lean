import ActionBlock.Workspace.Basic

/-!
# Writing in place

A block of a workspace is written in place. Before the records of the block, the bodies of each
action are written, and the action holds their bytes until the block is written. The displacement
of a branch is set to zero when its record is written for the first time, and to the distance to
its target when it is written again. A failure leaves the displacements set until then, but lets go
of what the actions of the block hold.

If an action also occurs in a body that is written meanwhile, what it holds is let go of at the end
of that body, and its bodies are written anew for its record. They would be written once for their
sizes and once more for their bytes. The second time gives the same bytes and sets the same
displacements, so it is left out.

An action on its own holds nothing. Its bodies are written twice, once for their sizes, which are
among its operands, and once for their bytes, and a branch has the displacement that was left to it.
-/

namespace ActionBlock

/-- The record of an action, or of nothing. -/
def Workspace.recordOf (w : Workspace) (r : Ref) : Record := (w.record? r).getD (.ofValue .none)

/-- A workspace while it is written: the actions, and the bytes that some of them hold for their
bodies. -/
structure Writing where
  workspace : Workspace
  held : List (Ref × List Bytes) := []

namespace Writing

/-- Sets the displacement of an action, if it is a branch. -/
def displace (s : Writing) (r : Ref) (displacement : Int) : Writing :=
  { s with workspace := s.workspace.modifyRecord r (Record.withDisplacement displacement) }

/-- Holds the bytes of the bodies of an action, if it has any, in place of what it held. -/
def hold (s : Writing) (r : Ref) (bodies : List Bytes) : Writing :=
  { s with
    held := (if bodies.isEmpty then [] else [(r, bodies)]) ++ s.held.filter (·.1 ≠ r) }

/-- Lets go of what actions hold. -/
def release (s : Writing) (refs : List Ref) : Writing :=
  { s with held := s.held.filter (!refs.contains ·.1) }

end Writing

/-- What is done to write: it gives a value or an error, and leaves what it has changed either
way. -/
abbrev WriteOp (α : Type) := ExceptT EncodeError (StateM Writing) α

namespace WriteOp

/-- The record of an action. -/
def record (r : Ref) : WriteOp Record := do
  return (← get).workspace.recordOf r

/-- Lets go of what actions hold after an operation, whether it fails or not. -/
def releasing {α : Type} (refs : List Ref) (x : WriteOp α) : WriteOp α :=
  ExceptT.mk fun s =>
    let (result, s) := x.run s
    (result, s.release refs)

/-- The bytes of the bodies of an action, as it holds them, or written anew. -/
def heldOr (fresh : Ref → WriteOp (List Bytes)) (r : Ref) : WriteOp (List Bytes) := do
  match (← get).held.lookup r with
  | some bodies => return bodies
  | none => fresh r

/-- Writes an action, a branch with the displacement that it has. The fields before the sizes are
written before the bodies. -/
def action (fresh : Ref → WriteOp (List Bytes)) (r : Ref) : WriteOp (Except Fault Bytes) := do
  let record ← record r
  if record.reachesBodies then
    let bodies ← heldOr fresh r
    return record.serialize bodies
  else return record.serialize []

/-- Writes the bodies of the actions of a block, given the index of the first. -/
def holdAll (fresh : Ref → WriteOp (List Bytes)) : List Ref → Nat → WriteOp Unit
  | [], _ => return
  | r :: refs, index => do
    let bodies ← ExceptT.adapt (EncodeError.within index) (fresh r)
    modify (·.hold r bodies)
    holdAll fresh refs (index + 1)

/-- Writes the records of a block, branches without a displacement, given the index and the offset
of the first; those already written stand in reverse order. -/
def draftAll (fresh : Ref → WriteOp (List Bytes)) :
    List Ref → Nat → Nat → List Bytes → WriteOp (List Bytes)
  | [], _, _, done => return done.reverse
  | r :: refs, index, offset, done => do
    modify (·.displace r 0)
    let record ← record r
    match ← action fresh r with
    | .error fault => throw (Item.error ⟨record, []⟩ index offset fault)
    | .ok chunk => draftAll fresh refs (index + 1) (offset + chunk.length) (chunk :: done)

/-- Writes the branches of a block with their displacements, given the index of the first record;
the chunks already final stand in reverse order. -/
def linkAll (fresh : Ref → WriteOp (List Bytes)) (starts : Array Nat) :
    List Ref → List Bytes → Nat → List Bytes → WriteOp (List Bytes)
  | r :: refs, chunk :: chunks, index, done => do
    let record ← record r
    match record.operands with
    | .branch target _ =>
      match displacement starts index record target with
      | .error e => throw e
      | .ok distance =>
        modify (·.displace r distance)
        match ← action fresh r with
        | .error fault => throw (Item.error ⟨record, []⟩ index (starts.getD index 0) fault)
        | .ok chunk => linkAll fresh starts refs chunks (index + 1) (chunk :: done)
    | _ => linkAll fresh starts refs chunks (index + 1) (chunk :: done)
  | _, _, _, done => return done.reverse

/-- Writes a block in three passes, the bodies of its actions first. -/
def passes (fresh : Ref → WriteOp (List Bytes)) (refs : List Ref) : WriteOp Bytes := do
  holdAll fresh refs 0
  let chunks ← draftAll fresh refs 0 0 []
  let chunks ← linkAll fresh (starts chunks) refs chunks 0 []
  return chunks.flatten

/-- Writes a block, given how bodies are written. -/
def block (fresh : Ref → WriteOp (List Bytes)) (refs : List Ref) : WriteOp Bytes :=
  releasing refs (passes fresh refs)

/-- Writes the bodies of an action, down to the given depth. -/
def bodies : Nat → Ref → WriteOp (List Bytes)
  | 0, _ => return []
  | depth + 1, r => do
    match (← get).workspace.cells[r]? with
    | none => return []
    | some cell => cell.bodies.mapM (block (bodies depth))

end WriteOp

/-- What is done to write an action on its own. -/
abbrev SerializeOp (α : Type) := ExceptT SerializeError (StateM Writing) α

namespace SerializeOp

/-- What concerns the action itself, and not its bodies. -/
def own {α : Type} (x : Except Fault α) : SerializeOp α := liftM (x.mapError SerializeError.fault)

/-- Writes the bodies of an action, given how bodies are written. -/
def bodies (fresh : Ref → WriteOp (List Bytes)) (r : Ref) : SerializeOp (List Bytes) :=
  ExceptT.adapt SerializeError.body (WriteOp.heldOr fresh r)

/-- Writes an action with a length. The fields before the sizes are written before the bodies. -/
def long (fresh : Ref → WriteOp (List Bytes)) (r : Ref) (record : Record) : SerializeOp Bytes := do
  discard (own record.operands.fields)
  let sized ← bodies fresh r
  let header ← own (record.header (sized.map List.length))
  let written ← bodies fresh r
  return header ++ written.flatten

/-- Writes an action, a branch with the displacement that it has. -/
def action (fresh : Ref → WriteOp (List Bytes)) (r : Ref) : SerializeOp Bytes := do
  let record := (← get).workspace.recordOf r
  match record.kind.misuse? "serialize" with
  | some fault => throw (.fault fault)
  | none => if ← own record.isLong then long fresh r record else own (record.serialize [])

/-- The number of bytes of an action. That of an action without a length is known. -/
def size (fresh : Ref → WriteOp (List Bytes)) (r : Ref) : SerializeOp Nat := do
  let record := (← get).workspace.recordOf r
  if ← own record.isLong then List.length <$> action fresh r else return 1

end SerializeOp

namespace Workspace

/-- Writes a block in place, without a record that ends it. -/
def writeBlock (w : Workspace) (place : Place) : Except EncodeError Bytes × Writing :=
  (WriteOp.block (WriteOp.bodies w.cells.size) (w.contents place)).run { workspace := w }

/-- Writes a block in place, with a record that ends it. -/
def write (w : Workspace) (place : Place) : Except EncodeError Bytes × Writing :=
  let (result, s) := w.writeBlock place
  (result.map (· ++ [0]), s)

/-- Writes an action on its own in place. -/
def serialize (w : Workspace) (r : Ref) : Except SerializeError Bytes × Writing :=
  (SerializeOp.action (WriteOp.bodies w.cells.size) r).run { workspace := w }

/-- The number of bytes of an action on its own, found by writing it in place. -/
def size (w : Workspace) (r : Ref) : Except SerializeError Nat × Writing :=
  (SerializeOp.size (WriteOp.bodies w.cells.size) r).run { workspace := w }

end Workspace

end ActionBlock
