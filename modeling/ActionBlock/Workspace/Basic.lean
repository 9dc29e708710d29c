import ActionBlock.Action.Equality
import ActionBlock.Action.Render
import ActionBlock.Block.Displacement

/-!
# Workspaces

A workspace holds the actions that are being worked on, each under a reference, and an
outermost block, the root. Blocks list references, so that one action may occur at several
places, and a change to it shows at all of them.

An action of the workspace is unfolded into a tree of actions, whose identities are the
references. Reading, writing and listing are defined on trees; what they change is written back
to the workspace by identity.
-/

namespace ActionBlock

/-- Names an action of a workspace. -/
abbrev Ref := Nat

/-- An action of a workspace: its record, and its bodies as references. -/
structure Cell where
  record : Record
  bodies : List (List Ref)

/-- The actions that are being worked on. -/
structure Workspace where
  cells : Array Cell
  root : List Ref

/-- A block of a workspace: the root, or a body of an action, by its number. -/
inductive Place where
  | root
  | body (owner : Ref) (number : Nat)
  deriving DecidableEq, Repr

namespace Workspace

/-- The workspace without actions. -/
def empty : Workspace := ⟨#[], []⟩

/-- Adds an action that occurs nowhere yet. -/
def add (w : Workspace) (cell : Cell) : Ref × Workspace :=
  (w.cells.size, { w with cells := w.cells.push cell })

/-- Adds values, those that are no actions in the place of actions; the references already found
stand in reverse order. -/
def addMembers (w : Workspace) : List Value → List Ref → List Ref × Workspace
  | [], done => (done.reverse, w)
  | .action r _ :: members, done => w.addMembers members (r :: done)
  | v :: members, done =>
    let (r, w) := w.add ⟨.ofValue v, []⟩
    w.addMembers members (r :: done)

/-- Changes the record of an action. -/
def modifyRecord (w : Workspace) (r : Ref) (f : Record → Record) : Workspace :=
  { w with cells := w.cells.modify r fun cell => { cell with record := f cell.record } }

/-- The record of an action. -/
def record? (w : Workspace) (r : Ref) : Option Record := w.cells[r]?.map Cell.record

/-- The references of a block. -/
def contents (w : Workspace) : Place → List Ref
  | .root => w.root
  | .body owner number => (w.cells[owner]?.bind (·.bodies[number]?)).getD []

/-- Replaces the references of a block. -/
def setContents (w : Workspace) (place : Place) (refs : List Ref) : Workspace :=
  match place with
  | .root => { w with root := refs }
  | .body owner number =>
    { w with
      cells := w.cells.modify owner fun cell =>
        { cell with bodies := cell.bodies.set number refs } }

/-- What holds the actions of a block. -/
def form (w : Workspace) : Place → BodyForm
  | .root => .block
  | .body owner number => (w.record? owner).elim .block (·.form number)

/-! ### Trees -/

/-- Unfolds an action, its bodies down to the given depth. -/
def unfold (w : Workspace) : Nat → Ref → Action
  | 0, r => .mk (some r) ((w.record? r).getD (.ofValue .none)) []
  | depth + 1, r =>
    match w.cells[r]? with
    | none => .mk (some r) (.ofValue .none) []
    | some cell =>
      .mk (some r) cell.record (cell.bodies.map fun body => body.map (w.unfold depth))

/-- An action as a tree. No action lies deeper inside another than there are actions. -/
def action (w : Workspace) (r : Ref) : Action := w.unfold w.cells.size r

/-- An action as a value. -/
def value (w : Workspace) (r : Ref) : Value := .action r (w.action r).record.sketch

/-- A list of actions as trees. -/
def actions (w : Workspace) (refs : List Ref) : List Action := refs.map w.action

/-- A block as trees. -/
def block (w : Workspace) (place : Place) : List Action := w.actions (w.contents place)

mutual

/-- Adds the actions of a tree, each under a reference of its own. -/
def adopt (w : Workspace) : Action → Ref × Workspace
  | .mk _ record bodies =>
    let (bodies, w) := adoptBodies w bodies []
    w.add ⟨record, bodies⟩

/-- Adds the actions of bodies; the references of those already added stand in reverse order. -/
def adoptBodies (w : Workspace) :
    List (List Action) → List (List Ref) → List (List Ref) × Workspace
  | [], done => (done.reverse, w)
  | body :: bodies, done =>
    let (refs, w) := adoptBlock w body []
    adoptBodies w bodies (refs :: done)

/-- Adds the actions of a block; the references of those already added stand in reverse order. -/
def adoptBlock (w : Workspace) : List Action → List Ref → List Ref × Workspace
  | [], done => (done.reverse, w)
  | a :: actions, done =>
    let (r, w) := adopt w a
    adoptBlock w actions (r :: done)

end

/-- Makes a block the root. The actions of the root before it stay in the workspace. -/
def load (w : Workspace) (block : List Action) : Workspace :=
  let (refs, w) := adoptBlock w block []
  { w with root := refs }

/-- The workspace whose root is a block. -/
def ofBlock (block : List Action) : Workspace := empty.load block

/-! ### Writing -/

/-- Makes settings of displacements, one after the other. -/
def applySettings (w : Workspace) (settings : List Setting) : Workspace :=
  settings.foldl (fun w s => w.modifyRecord s.identity (Record.withDisplacement s.displacement)) w

/-- Writes a block, without a record that ends it. -/
def encodeBlock (w : Workspace) (place : Place) : Except EncodeError Bytes × Workspace :=
  let block := w.block place
  (ActionBlock.encodeBlock block, w.applySettings (settings block))

/-- Writes a block, with a record that ends it. -/
def encode (w : Workspace) (place : Place) : Except EncodeError Bytes × Workspace :=
  let block := w.block place
  (ActionBlock.encode block, w.applySettings (settings block))

end Workspace

end ActionBlock
