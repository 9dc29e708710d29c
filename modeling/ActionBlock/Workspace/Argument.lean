import ActionBlock.Text.Uppercase
import ActionBlock.Workspace.Basic

/-!
# Arguments

The values from which actions are made, and what becomes of them: a value to push has a type, a
parameter has a register, a body is a list of actions. `BuildError` says why an action cannot be
made from values, or changed.
-/

namespace ActionBlock

/-- Why an action cannot be made or changed. -/
inductive BuildError where
  /-- Too many arguments, too few, or of kinds that the action does not take. -/
  | mismatch
  /-- A value of a kind that cannot be pushed. -/
  | unpushable (kind : Text)
  /-- A name that is not the name of a method by which variables are sent. -/
  | noSuchMethod (name : Text)
  /-- A property that follows from others, and cannot be set. -/
  | derived (kind property : Text)
  /-- An action in the place of a body that cannot even be written on its own. -/
  | unsized (kept : SerializeError)
  /-- A value that cannot take the place it was given. -/
  | fault (kept : Fault)
  deriving DecidableEq, Repr

/-- The wording of an error. -/
def BuildError.message : BuildError → Text
  | mismatch => "wrong arguments"
  | unpushable kind => "cannot push a value of type " ++ kind
  | noSuchMethod name => "type object 'SendVarsMethod' has no attribute '" ++ name ++ "'"
  | derived kind property =>
    "property '" ++ property ++ "' of '" ++ kind ++ "' object has no setter"
  | unsized (.fault kept) => kept.message
  | unsized (.body e) => e.message
  | fault kept => kept.message

namespace Value

/-- The value to push that a value gives. A scalar has the type of its kind, and the types of
null and undefined stand for their values. -/
def toPushValue : Value → Except BuildError PushValue
  | pushed value type => .ok ⟨value, type⟩
  | none => .ok ⟨none, .null⟩
  | bool b => .ok ⟨bool b, .boolean⟩
  | int n => .ok ⟨int n, .integer⟩
  | double x => .ok ⟨double x, .double⟩
  | text t => .ok ⟨text t, .string⟩
  | pushType type =>
    if type.isUnit then .ok ⟨none, type⟩ else .error (.unpushable (pushType type).word)
  | v => .error (.unpushable v.word)

/-- The members of a list, as arguments. -/
def elements (v : Value) : Except BuildError (List Value) := v.members.mapError .fault

/-- The members of a body. A value without content is the empty block. Whether an action has
content is a matter of its size, if it has one; it has no members either way. -/
def bodyMembers (size : Ref → Except SerializeError Nat) : Value → Except BuildError (List Value)
  | block members => .ok members
  | action r _ =>
    match size r with
    | .error e => .error (.unsized e)
    | .ok _ => .error .mismatch
  | v => if v.truth then v.elements else .ok []

/-- The parameter that a value gives: a register and a name, or a name alone. -/
def toRegisterParam (v : Value) : Except BuildError Value :=
  match v.tupleMembers? with
  | Option.none => .ok (param (int 0) v)
  | some [register, name] => .ok (param register name)
  | some _ => .error .mismatch

/-- The method by which variables are sent, which may be given by its name. -/
def toMethod : Value → Except BuildError Value
  | text t =>
    let name := t.toUpper
    if name = [] then .ok (int 0)
    else if name = ("GET" : Text) then .ok (int 1)
    else if name = ("POST" : Text) then .ok (int 2)
    else .error (.noSuchMethod name)
  | v => .ok v

end Value

end ActionBlock
