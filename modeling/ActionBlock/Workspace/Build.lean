import ActionBlock.Workspace.Argument

/-!
# Making actions

Each layout has a signature: the parameters from which its operands and bodies are made, with
the values that they have if they are left out. Arguments are given in the order of the
parameters or by name. Pushes and constant pools take any number of arguments in order instead.
-/

namespace ActionBlock

/-- A parameter, with the value that it has if it is left out. -/
structure Parameter where
  name : String
  fallback : Option Value := none

namespace Parameter

/-- The arguments of parameters: first those in order, then those by name. -/
def bind :
    List Parameter → List Value → List (String × Value) →
      Except BuildError (List Value)
  | [], [], _ => .ok []
  | [], _ :: _, _ => .error .mismatch
  | p :: ps, a :: given, named =>
    if (named.lookup p.name).isSome then .error .mismatch
    else (bind ps given named).map (a :: ·)
  | p :: ps, [], named =>
    match (named.lookup p.name).or p.fallback with
    | some a => (bind ps [] named).map (a :: ·)
    | none => .error .mismatch

/-- A parameter that is a number, zero if left out. -/
def zero (name : String) : Parameter := ⟨name, some (.int 0)⟩

/-- A parameter that is a flag, not set if left out. -/
def flag (name : String) : Parameter := ⟨name, some (.bool false)⟩

/-- A parameter that is a string, empty if left out. -/
def string (name : String) : Parameter := ⟨name, some (.text [])⟩

/-- A parameter that may be missing. -/
def optional (name : String) : Parameter := ⟨name, some .none⟩

/-- A parameter that is a list, empty if left out. -/
def list (name : String) : Parameter := ⟨name, some (.tuple [])⟩

end Parameter

namespace Layout

/-- The parameters of a layout, or none if it takes any number of arguments. -/
def signature? : Layout → Option (List Parameter)
  | plain => some []
  | gotoFrame => some [⟨"frame", none⟩]
  | getUrl => some [.string "url", .string "target"]
  | storeRegister => some [⟨"register", none⟩]
  | constantPool | push => none
  | strictMode => some [⟨"mode", some (.int 1)⟩]
  | waitForFrame => some [⟨"frame", none⟩, .zero "skip_count"]
  | waitForFrame2 => some [⟨"skip_count", none⟩]
  | string => some [⟨"string", none⟩]
  | getUrl2 =>
    some [.zero "method", .flag "load_target", .flag "load_variables", .zero "reserved"]
  | gotoFrame2 => some [.flag "play", .optional "scene_bias", .zero "reserved"]
  | branch => some [.optional "target"]
  | defineFunction => some [.string "name", .list "params", .optional "body"]
  | defineFunction2 =>
    some ([.string "name", .list "params", .zero "register_count", .optional "body"] ++
      FunctionFlags.names.map .flag ++ [.zero "reserved"])
  | withObject => some [.optional "body"]
  | tryCatch =>
    some [.string "catch_target", .optional "try_body", .optional "catch_body",
      .optional "finally_body", .optional "has_catch", .optional "has_finally",
      .zero "reserved"]

/-- The arguments of a layout, in the order of its parameters. -/
def bind (l : Layout) (given : List Value) (named : List (String × Value)) :
    Except BuildError (List Value) :=
  match l.signature? with
  | none => if named.isEmpty then .ok given else .error .mismatch
  | some parameters =>
    if named.all fun (name, _) => parameters.any (·.name = name) then
      Parameter.bind parameters given named
    else .error .mismatch

/-- Whether a part of a `try` is present: as said, or else if its body is not empty. -/
def presence (said : Value) (body : List Value) : Value :=
  if said.isNone then .bool (!body.isEmpty) else said

/-- The flags of a function with registers. -/
def flags : List Value → Except BuildError FunctionFlags
  | [preloadParent, preloadRoot, suppressSuper, preloadSuper, suppressArguments,
      preloadArguments, suppressThis, preloadThis, preloadGlobal] =>
    .ok ⟨preloadParent, preloadRoot, suppressSuper, preloadSuper, suppressArguments,
      preloadArguments, suppressThis, preloadThis, preloadGlobal⟩
  | _ => .error .mismatch

/-- The operands that the arguments of a layout without bodies give. -/
def makeOperands (l : Layout) (arguments : List Value) : Except BuildError Operands :=
  match l, arguments with
  | plain, [] => .ok .plain
  | gotoFrame, [frame] => .ok (.gotoFrame frame)
  | getUrl, [url, target] => .ok (.getUrl url target)
  | storeRegister, [register] => .ok (.storeRegister register)
  | constantPool, constants => .ok (.constantPool (.list constants))
  | strictMode, [mode] => .ok (.strictMode mode)
  | waitForFrame, [frame, skipCount] => .ok (.waitForFrame frame skipCount)
  | waitForFrame2, [skipCount] => .ok (.waitForFrame2 skipCount)
  | string, [s] => .ok (.string s)
  | getUrl2, [method, loadTarget, loadVariables, reserved] => do
    let method ← method.toMethod
    .ok (.getUrl2 method loadTarget loadVariables reserved)
  | gotoFrame2, [play, sceneBias, reserved] => .ok (.gotoFrame2 play sceneBias reserved)
  | push, values => do
    let values ← values.mapM Value.toPushValue
    .ok (.push (.list (values.map PushValue.toValue)))
  | branch, [target] => .ok (.branch target (.int 0))
  | _, _ => .error .mismatch

/-- The operands and the members of the bodies that the arguments of a layout give, given how the
members of a body are found. -/
def make (l : Layout) (body : Value → Except BuildError (List Value)) (arguments : List Value) :
    Except BuildError (Operands × List (List Value)) :=
  match l, arguments with
  | defineFunction, [name, params, content] => do
    let params ← params.elements
    let content ← body content
    .ok (.defineFunction name (.list params), [content])
  | defineFunction2, name :: params :: registerCount :: content :: rest => do
    let params ← params.elements
    let params ← params.mapM Value.toRegisterParam
    let content ← body content
    let flags ← flags rest.dropLast
    .ok (.defineFunction2 name (.list params) registerCount flags (rest.getLastD .none),
      [content])
  | withObject, [content] => do
    let content ← body content
    .ok (.withObject, [content])
  | tryCatch, [catchTarget, tryBody, catchBody, finallyBody, hasCatch, hasFinally, reserved] => do
    let tryBody ← body tryBody
    let catchBody ← body catchBody
    let finallyBody ← body finallyBody
    .ok (.tryCatch catchTarget (presence hasCatch catchBody) (presence hasFinally finallyBody)
      reserved, [tryBody, catchBody, finallyBody])
  | l, arguments => (l.makeOperands arguments).map fun operands => (operands, [])

end Layout

namespace Workspace

/-- Adds the members of bodies; the references of those already added stand in reverse order. -/
def addBodies (w : Workspace) : List (List Value) → List (List Ref) → List (List Ref) × Workspace
  | [], done => (done.reverse, w)
  | body :: bodies, done =>
    let (refs, w) := w.addMembers body []
    w.addBodies bodies (refs :: done)

/-- Adds the action of an entry that arguments give. -/
def create (w : Workspace) (table : TableId) (entry : OpcodeEntry) (given : List Value)
    (named : List (String × Value)) : Except BuildError (Ref × Workspace) := do
  let arguments ← entry.layout.bind given named
  let (operands, bodies) ←
    entry.layout.make (Value.bodyMembers fun r => (w.action r).size) arguments
  let (bodies, w) := w.addBodies bodies []
  .ok (w.add ⟨{ kind := .listed table entry, operands := operands }, bodies⟩)

/-- Adds an action whose code is in no table. -/
def createUnlisted (w : Workspace) (code : Value) (payload : Bytes) :
    Except BuildError (Ref × Workspace) := do
  let record ← (Record.unlisted code payload).mapError .fault
  .ok (w.add ⟨record, []⟩)

end Workspace

end ActionBlock
