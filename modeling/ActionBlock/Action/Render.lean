import ActionBlock.Action.Basic

/-!
# Actions as text

An action is shown by its name and its operands. Names of functions and other strings are
quoted; the names of parameters are shown as they are.
-/

namespace ActionBlock

namespace Operands

/-- The name of the method by which variables are sent. The methods are looked up by their
numbers, so a value that cannot serve as a key is a fault; any other value stands for itself. -/
def methodName (method : Value) : Except Fault Text := do
  let t ← method.plain
  if !method.isKey then .error .wrongKind
  else if method.same (.int 0) then .ok "none"
  else if method.same (.int 1) then .ok "GET"
  else if method.same (.int 2) then .ok "POST"
  else .ok (if t = [] then "none" else t)

/-- Texts with a comma between each two. Only texts can be joined. -/
def joined (parts : List Value) : Except Fault Text := do
  let ts ← parts.mapM fun
    | .text t => Except.ok t
    | _ => .error .wrongKind
  .ok (Text.join ", " ts)

/-- A parameter of a function with registers: its register, unless it is zero, and its name. -/
def registerParam : Value → Except Fault Value
  | .param register name =>
    if register.truth then do
      let n ← register.decimal
      let t ← name.plain
      .ok (.text ("r:" ++ n ++ "=" ++ t))
    else .ok name
  | other => .error (.lacks other.word "register")

/-- The words for the flags that are set, each after a separator. -/
def flagWords (flags : List (Text × Value)) : Text :=
  flags.flatMap fun (word, flag) => if flag.truth then ", " ++ word else []

/-- The operands of a function, given its parameters as they are shown. -/
def functionText (name : Value) (params : List Value) : Except Fault Text := do
  let params ← joined params
  let name ← name.quoted
  .ok (name ++ " (" ++ params ++ ")")

/-- The operands of a function with registers. -/
def function2Text (name params registerCount : Value) (flags : FunctionFlags) :
    Except Fault Text := do
  let params ← params.members
  let params ← params.mapM registerParam
  let function ← functionText name params
  let count ← registerCount.decimal
  let set := (FunctionFlags.names.zip flags.toList).filter (·.2.truth)
  let words := Text.join " " (set.map (Text.ofString ·.1))
  .ok (function ++ ", registers=" ++ count ++ Text.afterSeparator ", " words)

/-- The place of the caught value of a `try`. -/
def catchText (target : Value) : Except Fault Text :=
  if target.whole?.isSome then target.decimal.map ("r:" ++ ·) else target.quoted

/-- The operands of a branch. The limit on digits is left out for a target: a target is the index of
an action, and a block never has so many of them. -/
def branchText (target displacement : Value) : Except Fault Text :=
  if target.isNone then displacement.number.bind Scalar.signedNumeral
  else target.number.map fun n => "-> " ++ Numeral.int n

/-- The operands of a jump to a frame. -/
def gotoFrame2Text (play sceneBias : Value) : Except Fault Text :=
  let verb : Text := if play.truth then "play" else "stop"
  if sceneBias.isNone then .ok verb
  else sceneBias.decimal.map fun n => verb ++ ", scene_bias=" ++ n

/-- Two texts with a comma between them. -/
def pairText (a b : Except Fault Text) : Except Fault Text := do
  let s ← a
  let t ← b
  .ok (s ++ ", " ++ t)

/-- The members of a list with a comma between each two, given how a member is shown. -/
def listText (list : Value) (shown : Value → Except Fault Text) : Except Fault Text := do
  let members ← list.members
  let ts ← members.mapM shown
  .ok (Text.join ", " ts)

/-- The operands as text. -/
def render : Operands → Except Fault Text
  | plain | withObject => .ok []
  | payload data => data.toByteArray.map Bytes.hex
  | gotoFrame n | strictMode n | waitForFrame2 n => n.decimal
  | getUrl url target => pairText url.quoted target.quoted
  | storeRegister register => register.decimal.map ("r:" ++ ·)
  | constantPool pool => listText pool Value.quoted
  | waitForFrame frame skipCount => pairText frame.decimal skipCount.decimal
  | string s => s.quoted
  | getUrl2 method loadTarget loadVariables _ =>
    (methodName method).map
      (· ++ flagWords [("load_target", loadTarget), ("load_variables", loadVariables)])
  | gotoFrame2 play sceneBias _ => gotoFrame2Text play sceneBias
  | push values => listText values Value.pushText
  | branch target displacement => branchText target displacement
  | defineFunction name params => params.members.bind (functionText name)
  | defineFunction2 name params registerCount flags _ =>
    function2Text name params registerCount flags
  | tryCatch catchTarget hasCatch hasFinally _ =>
    (catchText catchTarget).map
      (· ++ flagWords [("catch", hasCatch), ("finally", hasFinally)])

end Operands

namespace Record

/-- The action as listings show it. Without operands this is its name, of whatever kind. -/
def title (r : Record) : Except Fault Value :=
  match r.kind.misuse? "to_mnemonic_text" with
  | some fault => .error fault
  | none => do
    let t ← r.operands.render
    if t = [] then .ok r.name
    else
      let name ← r.name.plain
      .ok (.text (name ++ " " ++ t))

/-- The action as listings show it, as text. -/
def render (r : Record) : Except Fault Text := do
  let t ← r.title
  t.plain

/-- The action as messages show it. -/
def describe (r : Record) : Except Fault Text :=
  match r.kind with
  | .foreign value | .formless value => value.quoted
  | .listed .. | .unlisted _ => do
    let t ← r.operands.render
    let name ← r.name.plain
    let code ← r.code.codeText
    .ok ("<" ++ name ++ " (" ++ code ++ ")" ++ Text.afterSeparator " " t ++ ">")

/-- The action as it is held as a value. -/
def sketch (r : Record) : Sketch :=
  match r.describe with
  | .ok t => { word := r.kind.word, text := t }
  | .error fault => { word := r.kind.word, text := [], fault := fault }

end Record

end ActionBlock
