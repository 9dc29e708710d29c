import ActionBlock.Workspace.Argument

/-!
# Changing actions

The fields of an action can be set one by one, by name, to any value. A field that an action does
not have may be set as well, and has no effect; what follows from other fields cannot be set. A
body that is set to something other than a block keeps what it was set to.

Constants are added to a pool, and values to a push.
-/

namespace ActionBlock

/-- Sets a flag by its name. -/
def FunctionFlags.set? (f : FunctionFlags) (name : String) (value : Value) :
    Option FunctionFlags :=
  match name with
  | "preload_parent" => some { f with preloadParent := value }
  | "preload_root" => some { f with preloadRoot := value }
  | "suppress_super" => some { f with suppressSuper := value }
  | "preload_super" => some { f with preloadSuper := value }
  | "suppress_arguments" => some { f with suppressArguments := value }
  | "preload_arguments" => some { f with preloadArguments := value }
  | "suppress_this" => some { f with suppressThis := value }
  | "preload_this" => some { f with preloadThis := value }
  | "preload_global" => some { f with preloadGlobal := value }
  | _ => none

/-- Sets an operand by the name of its field. -/
def Operands.set? (o : Operands) (field : String) (value : Value) : Option Operands :=
  match o, field with
  | .payload _, "payload" => some (.payload value)
  | .constantPool _, "pool" => some (.constantPool value)
  | .push _, "values" => some (.push value)
  | .branch _ displacement, "target" => some (.branch value displacement)
  | .branch target _, "displacement" => some (.branch target value)
  | .gotoFrame _, "frame" => some (.gotoFrame value)
  | .getUrl _ target, "url" => some (.getUrl value target)
  | .getUrl url _, "target" => some (.getUrl url value)
  | .storeRegister _, "register" => some (.storeRegister value)
  | .strictMode _, "mode" => some (.strictMode value)
  | .waitForFrame _ skipCount, "frame" => some (.waitForFrame value skipCount)
  | .waitForFrame frame _, "skip_count" => some (.waitForFrame frame value)
  | .waitForFrame2 _, "skip_count" => some (.waitForFrame2 value)
  | .string _, "string" => some (.string value)
  | .getUrl2 _ loadTarget loadVariables reserved, "method" =>
    some (.getUrl2 value loadTarget loadVariables reserved)
  | .getUrl2 method _ loadVariables reserved, "load_target" =>
    some (.getUrl2 method value loadVariables reserved)
  | .getUrl2 method loadTarget _ reserved, "load_variables" =>
    some (.getUrl2 method loadTarget value reserved)
  | .getUrl2 method loadTarget loadVariables _, "reserved" =>
    some (.getUrl2 method loadTarget loadVariables value)
  | .gotoFrame2 _ sceneBias reserved, "play" => some (.gotoFrame2 value sceneBias reserved)
  | .gotoFrame2 play _ reserved, "scene_bias" => some (.gotoFrame2 play value reserved)
  | .gotoFrame2 play sceneBias _, "reserved" => some (.gotoFrame2 play sceneBias value)
  | .defineFunction _ params, "function_name" => some (.defineFunction value params)
  | .defineFunction name _, "params" => some (.defineFunction name value)
  | .defineFunction2 name _ count flags reserved, "params" =>
    some (.defineFunction2 name value count flags reserved)
  | .defineFunction2 _ params count flags reserved, "function_name" =>
    some (.defineFunction2 value params count flags reserved)
  | .defineFunction2 name params _ flags reserved, "register_count" =>
    some (.defineFunction2 name params value flags reserved)
  | .defineFunction2 name params count flags _, "reserved" =>
    some (.defineFunction2 name params count flags value)
  | .defineFunction2 name params count flags reserved, field =>
    (flags.set? field value).map (.defineFunction2 name params count · reserved)
  | .tryCatch _ hasCatch hasFinally reserved, "catch_target" =>
    some (.tryCatch value hasCatch hasFinally reserved)
  | .tryCatch target _ hasFinally reserved, "has_catch" =>
    some (.tryCatch target value hasFinally reserved)
  | .tryCatch target hasCatch _ reserved, "has_finally" =>
    some (.tryCatch target hasCatch value reserved)
  | .tryCatch target hasCatch hasFinally _, "reserved" =>
    some (.tryCatch target hasCatch hasFinally value)
  | _, _ => none

/-- Sets a field of a record that is not an operand. -/
def Record.set? (r : Record) (field : String) (value : Value) : Option Record :=
  match field with
  | "opcode" => some { r with code := value }
  | "name" => some { r with name := value }
  | "trailing" => some { r with trailing := value }
  | "offset" => some { r with offset := value }
  | "decoded_sizes" => some { r with declaredSizes := value }
  | _ => none

/-- Says what holds the actions of a body. -/
def Record.withForm (r : Record) (number : Nat) (form : BodyForm) : Record :=
  { r with forms := ((List.range r.operands.bodyNames.length).map r.form).set number form }

/-- What holds the actions of a body that is set to a value. -/
def BodyForm.ofValue : Value → BodyForm
  | .block _ => block
  | .list _ => list
  | .tuple _ => tuple
  | v => other v

namespace Cell

/-- Sets a field that is not a body, by its name. -/
def set (c : Cell) (field : String) (value : Value) : Cell :=
  match c.record.set? field value with
  | some record => { c with record := record }
  | none =>
    match c.record.operands.set? field value with
    | some operands => { c with record := { c.record with operands := operands } }
    | none => c

/-- Replaces the operands of an action. -/
def withOperands (c : Cell) (operands : Operands) : Cell :=
  { c with record := { c.record with operands := operands } }

/-- The fault of an operation that an action does not have. -/
def lacks (c : Cell) (operation : Text) : BuildError :=
  .fault (.lacks c.record.kind.word operation)

/-- A list with a member added at its end. -/
def appended (list : Value) (member : Value) : Except BuildError Value :=
  match list with
  | .list members => .ok (.list (members ++ [member]))
  | other => .error (.fault (.lacks other.word "append"))

/-- The index of a constant in the pool that an action declares, after it was added if the pool
did not have it. -/
def addConstant (c : Cell) (value : Value) : Except BuildError (Nat × Cell) :=
  match c.record.operands with
  | .constantPool pool => do
    let constants ← pool.elements
    match constants.findIdx? (·.same value) with
    | some index => .ok (index, c)
    | none =>
      let pool ← appended pool value
      .ok (constants.length, c.withOperands (.constantPool pool))
  | _ => .error (c.lacks "add_constant")

/-- Adds a value to a push. -/
def addElement (c : Cell) (value : Value) : Except BuildError Cell :=
  match c.record.operands with
  | .push values => do
    discard (appended values .none)
    let value ← value.toPushValue
    let values ← appended values value.toValue
    .ok (c.withOperands (.push values))
  | _ => .error (c.lacks "add_element")

/-- Adds values to a push, up to the first that cannot be pushed. -/
def addElementsFrom (c : Cell) : List Value → Option BuildError × Cell
  | [] => (none, c)
  | value :: values =>
    match c.addElement value with
    | .ok c => c.addElementsFrom values
    | .error e => (some e, c)

/-- Adds the members of a list to a push, up to the first that cannot be pushed. -/
def addElements (c : Cell) (list : Value) : Option BuildError × Cell :=
  match c.record.operands with
  | .push _ =>
    match list.elements with
    | .ok values => c.addElementsFrom values
    | .error e => (some e, c)
  | _ => (some (c.lacks "add_elements"), c)

end Cell

namespace Workspace

/-- Replaces an action of a workspace. -/
def setCell (w : Workspace) (r : Ref) (cell : Cell) : Workspace :=
  { w with cells := w.cells.setIfInBounds r cell }

/-- The references of the members of a body that is set to a value. A value without members
stands in the place of the body as a whole. -/
def addBody (w : Workspace) (value : Value) : List Ref × Workspace :=
  match value.members with
  | .ok members => w.addMembers members []
  | .error _ =>
    let (r, w) := w.add ⟨{ kind := .formless value, operands := .plain }, []⟩
    ([r], w)

/-- Sets a field of an action by its name. -/
def setField (w : Workspace) (r : Ref) (field : String) (value : Value) :
    Except BuildError Workspace :=
  match w.cells[r]? with
  | none => .ok w
  | some cell =>
    let isTry := cell.record.operands.bodyNames.length > 1
    if field = "has_length" ∨ (field = "catch_in_register" ∧ isTry) then
      .error (.derived cell.record.kind.word field)
    else
      match cell.record.operands.bodyNames.idxOf? field with
      | none => .ok (w.setCell r (cell.set field value))
      | some number =>
        let (refs, w) := w.addBody value
        let record := cell.record.withForm number (.ofValue value)
        .ok (w.setCell r ⟨record, cell.bodies.set number refs⟩)

/-- A body of an action, by its name. -/
def bodyPlace (w : Workspace) (r : Ref) (name : String) : Except BuildError Place :=
  match w.cells[r]? with
  | none => .error .mismatch
  | some cell =>
    match cell.record.operands.bodyNames.idxOf? name with
    | some number => .ok (.body r number)
    | none => .error (cell.lacks name)

end Workspace

end ActionBlock
