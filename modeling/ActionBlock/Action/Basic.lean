import ActionBlock.Opcode.Table
import ActionBlock.Push.Value

/-!
# Actions

An action is a record, which holds its operands, together with the bodies that follow the
record: blocks of actions, one for a function or a `with`, three for a `try`.

Every field of a record holds a value, and any value may be put there. Three fields are derived
and do not take part in the meaning of a record: the offset at which it was read, the
displacement of a branch, and the sizes that its bodies were declared with. A branch names the
action it lands on by its index in the block, the length of the block standing for the end of it.

An action may have an identity, by which it is told apart from others that look the same.
-/

namespace ActionBlock

/-- The flags of a function with registers. -/
structure FunctionFlags where
  preloadParent : Value := .bool false
  preloadRoot : Value := .bool false
  suppressSuper : Value := .bool false
  preloadSuper : Value := .bool false
  suppressArguments : Value := .bool false
  preloadArguments : Value := .bool false
  suppressThis : Value := .bool false
  preloadThis : Value := .bool false
  preloadGlobal : Value := .bool false

namespace FunctionFlags

/-- The flags of the first byte, the most significant bit first. -/
def first (f : FunctionFlags) : List Value :=
  [f.preloadParent, f.preloadRoot, f.suppressSuper, f.preloadSuper, f.suppressArguments,
    f.preloadArguments, f.suppressThis, f.preloadThis]

/-- All flags. -/
def toList (f : FunctionFlags) : List Value := f.first ++ [f.preloadGlobal]

/-- The names of all flags. -/
def names : List String :=
  ["preload_parent", "preload_root", "suppress_super", "preload_super", "suppress_arguments",
    "preload_arguments", "suppress_this", "preload_this", "preload_global"]

end FunctionFlags

/-- The operands of an action, bodies apart. -/
inductive Operands where
  | plain
  | payload (data : Value)
  | gotoFrame (frame : Value)
  | getUrl (url target : Value)
  | storeRegister (register : Value)
  | constantPool (pool : Value)
  | strictMode (mode : Value)
  | waitForFrame (frame skipCount : Value)
  | waitForFrame2 (skipCount : Value)
  | string (string : Value)
  | getUrl2 (method loadTarget loadVariables reserved : Value)
  | gotoFrame2 (play sceneBias reserved : Value)
  | push (values : Value)
  | branch (target displacement : Value)
  | defineFunction (name params : Value)
  | defineFunction2 (name params registerCount : Value) (flags : FunctionFlags)
      (reserved : Value)
  | withObject
  | tryCatch (catchTarget hasCatch hasFinally reserved : Value)

namespace Operands

/-- The names of the bodies that go with the operands. -/
def bodyNames : Operands → List String
  | defineFunction .. => Layout.defineFunction.bodyNames
  | defineFunction2 .. => Layout.defineFunction2.bodyNames
  | withObject => Layout.withObject.bodyNames
  | tryCatch .. => Layout.tryCatch.bodyNames
  | _ => []

/-- Whether bodies go with the operands. -/
def isContainer (o : Operands) : Bool := o.bodyNames ≠ []

/-- Whether the operands are those of a branch. -/
def isBranch : Operands → Bool
  | branch .. => true
  | _ => false

/-- Sets the displacement of a branch. -/
def withDisplacement (d : Int) : Operands → Operands
  | branch target _ => branch target (.int d)
  | o => o

/-- Sets the target of a branch. -/
def withTarget (target : Value) : Operands → Operands
  | branch _ displacement => branch target displacement
  | o => o

/-- The target of a branch that has one. -/
def target? : Operands → Option Value
  | branch target _ => if target.isNone then none else some target
  | _ => none

/-- The operands as values, bodies apart. -/
def toValues : Operands → Except Fault (List Value)
  | plain | withObject => .ok []
  | payload a | gotoFrame a | storeRegister a | strictMode a | waitForFrame2 a | string a
  | branch a _ => .ok [a]
  | getUrl a b | waitForFrame a b => .ok [a, b]
  | gotoFrame2 a b c => .ok [a, b, c]
  | getUrl2 a b c d | tryCatch a b c d => .ok [a, b, c, d]
  | constantPool list | push list => list.members
  | defineFunction name params => do
    let params ← params.members
    .ok [name, .tuple params]
  | defineFunction2 name params registerCount flags reserved => do
    let params ← params.members
    .ok [name, .tuple params, registerCount, .tuple (flags.toList ++ [reserved])]

end Operands

/-- What an action is. -/
inductive ActionKind where
  /-- An entry of a table. -/
  | listed (table : TableId) (entry : OpcodeEntry)
  /-- A code that is in no table. -/
  | unlisted (code : Int)
  /-- A value that is no action, in the place of one. -/
  | foreign (value : Value)
  /-- A value that is no list, in the place of a body. -/
  | formless (value : Value)

namespace ActionKind

/-- The action code. -/
def code : ActionKind → Int
  | listed _ entry => entry.code
  | unlisted code => code
  | foreign _ | formless _ => 0

/-- The name of the action. -/
def name : ActionKind → Text
  | listed _ entry => entry.mnemonic
  | unlisted code => "unknown_" ++ Numeral.code code
  | foreign _ | formless _ => []

/-- The word for a kind of action, in messages. -/
def word : ActionKind → Text
  | listed _ entry => entry.mnemonic
  | unlisted _ => "OpaqueInstruction"
  | foreign value | formless value => value.word

/-- The fault of asking for something that only actions have. -/
def misuse? (asked : Text) : ActionKind → Option Fault
  | listed .. | unlisted _ => none
  | foreign value => some (.lacks value.word asked)
  | formless _ => some .wrongKind

end ActionKind

/-- What holds the actions of a body. -/
inductive BodyForm where
  | block
  | list
  | tuple
  /-- Another value, whose members stand in the place of actions. -/
  | other (value : Value)

/-- The record of an action. -/
structure Record where
  kind : ActionKind
  operands : Operands
  /-- The action code, by default that of the kind. -/
  code : Value := .int kind.code
  /-- The name, by default that of the kind. -/
  name : Value := .text kind.name
  /-- Operand bytes after those that the layout reads. -/
  trailing : Value := .bytes []
  /-- The offset at which the record was read. -/
  offset : Value := .none
  /-- The sizes that the bodies were declared with when the record was read. -/
  declaredSizes : Value := .tuple []
  /-- What holds the actions of each body; a body for which nothing is said is a block. -/
  forms : List BodyForm := []

namespace Record

/-- The record that stands for a value in the place of an action. -/
def ofValue (value : Value) : Record := { kind := .foreign value, operands := .plain }

/-- What holds the actions of a body, given its number. -/
def form (r : Record) (number : Nat) : BodyForm := r.forms.getD number .block

/-- The action code as a number. -/
def codeNumber (r : Record) : Int := r.code.whole?.getD 0

/-- The name in messages. -/
def nameText (r : Record) : Text := r.name.plain.toOption.getD []

/-- Whether the record has a length and operands. -/
def isLong (r : Record) : Except Fault Bool :=
  (r.code.compareInt firstLongCode).map fun order => order.any (· ≠ .lt)

/-- Sets the displacement of a branch. -/
def withDisplacement (d : Int) (r : Record) : Record :=
  { r with operands := r.operands.withDisplacement d }

/-- Sets the target of a branch. -/
def withTarget (target : Value) (r : Record) : Record :=
  { r with operands := r.operands.withTarget target }

/-- How many values an action takes off the stack and puts on it, as far as is known. -/
def stackEffect (r : Record) : Except Fault (Int × Int) :=
  match r.operands with
  | .push values => values.size.map fun n => (0, n)
  | .defineFunction name _ | .defineFunction2 name .. => .ok (0, if name.truth then 0 else 1)
  | _ =>
    match r.kind with
    | .listed _ entry => .ok (entry.pops, entry.pushes)
    | .unlisted _ => .ok (0, 0)
    | .foreign value => .error (.lacks value.word "stack_effect")
    | .formless _ => .error .wrongKind

/-- The record of an action that is in no table. -/
def unlisted (code : Value) (payload : Bytes) : Except Fault Record := do
  let order ← code.compareInt firstLongCode
  match code.whole? with
  | none => .error .wrongKind
  | some n =>
    if order = some .lt ∧ payload ≠ [] then .error (.noRoomForOperands n)
    else .ok { kind := .unlisted n, operands := .payload (.bytes payload), code := code }

end Record

/-- An action: a record and the bodies that follow it. -/
inductive Action where
  | mk (identity : Option Nat) (record : Record) (bodies : List (List Action))

namespace Action

/-- What tells the action apart from others that look the same. -/
def identity : Action → Option Nat
  | mk identity _ _ => identity

/-- The record of the action. -/
def record : Action → Record
  | mk _ record _ => record

/-- The bodies of the action. -/
def bodies : Action → List (List Action)
  | mk _ _ bodies => bodies

/-- Whether the action is a branch. -/
def isBranch (a : Action) : Bool := a.record.operands.isBranch

end Action

/-- The depth of the stack after a straight run through actions, and the greatest on the way,
given both before it. -/
def stackDepthFrom : List Action → Int → Int → Except Fault (Int × Int)
  | [], depth, greatest => .ok (depth, greatest)
  | a :: actions, depth, greatest =>
    match a.record.stackEffect with
    | .error fault => .error fault
    | .ok (pops, pushes) =>
      let depth := depth + (pushes - pops)
      stackDepthFrom actions depth (max depth greatest)

/-- The depth of the stack after a straight run through a block, and the greatest on the way,
from the effects of its actions. -/
def stackDepth (block : List Action) : Except Fault (Int × Int) := stackDepthFrom block 0 0

end ActionBlock
