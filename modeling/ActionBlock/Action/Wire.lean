import ActionBlock.Action.Basic

/-!
# Records as bytes

The operands of a record are its fields, the sizes of its bodies, and for a `try` the place of
the caught value after them. Numbers of two bytes have their least significant byte first,
strings end with a zero byte, and flags are packed from the most significant bit of a byte on.

A record of a code below `0x80` is its code. Any other record is its code, the length of its
operands, and the operands, with bytes that no field reads at their end; the bodies follow and
are not counted in the length.
-/

namespace ActionBlock

-- Powers are those of the core library, whatever else is imported.
attribute [local instance (high)] instPowNat

namespace Operands

/-! ### Writing -/

/-- The byte with the given bits, the most significant bit first. -/
def packFlags (flags : List Bool) : Nat := flags.foldl (fun n b => 2 * n + b.toNat) 0

/-- A field of one byte. -/
def ui8 (v : Value) : Except Fault Bytes := (v.fit 8 false).map fun n => [UInt8.ofNat n]

/-- A field of two bytes. -/
def ui16 (v : Value) : Except Fault Bytes := (v.fit 16 false).map (Bytes.littleEndian 2)

/-- A field of two bytes for a count. -/
def count (n : Nat) : Except Fault Bytes :=
  (Scalar.fitInt 16 false n).map (Bytes.littleEndian 2)

/-- Fields one after the other, given how each is written. -/
def each (write : Value → Except Fault Bytes) (vs : List Value) : Except Fault Bytes :=
  (vs.mapM write).map List.flatten

/-- A field of two bytes for the number of members of a list. -/
def sizeOf (list : Value) : Except Fault Bytes := do
  let n ← list.size
  count n

/-- The members of a list one after the other, given how each is written. -/
def membersOf (write : Value → Except Fault Bytes) (list : Value) : Except Fault Bytes := do
  let members ← list.members
  each write members

/-- Two fields, one after the other. -/
def both (a b : Except Fault Bytes) : Except Fault Bytes := do
  let x ← a
  let y ← b
  .ok (x ++ y)

/-- A parameter of a function with registers. -/
def registerParamBytes (v : Value) : Except Fault Bytes := do
  let (register, name) ← v.pair
  both (ui8 register) name.string

/-- The byte of a request for a file: flags, reserved bits, and the method. -/
def getUrl2Bytes (method loadTarget loadVariables reserved : Value) : Except Fault Bytes := do
  let reserved ← reserved.fit 4 false
  let method ← method.fit 2 false
  .ok [UInt8.ofNat (packFlags [loadVariables.truth, loadTarget.truth] * 64 + reserved * 4 +
    method)]

/-- A jump to a frame: reserved bits and flags, and the bias if there is one. -/
def gotoFrame2Bytes (play sceneBias reserved : Value) : Except Fault Bytes := do
  let reserved ← reserved.fit 6 false
  let flags := UInt8.ofNat (reserved * 4 + packFlags [!sceneBias.isNone, play.truth])
  let bias ← if sceneBias.isNone then .ok [] else ui16 sceneBias
  .ok (flags :: bias)

/-- A function: its name and its parameters. -/
def functionBytes (name params : Value) : Except Fault Bytes := do
  let name ← name.string
  let size ← sizeOf params
  let params ← membersOf Value.string params
  .ok (name ++ size ++ params)

/-- A function with registers: its name, the number of its registers, its flags, and its
parameters. -/
def function2Bytes (name params registerCount : Value) (flags : FunctionFlags)
    (reserved : Value) : Except Fault Bytes := do
  let name ← name.string
  let size ← sizeOf params
  let registerCount ← ui8 registerCount
  let reserved ← reserved.fit 7 false
  let first := UInt8.ofNat (packFlags (flags.first.map Value.truth))
  let second := UInt8.ofNat (reserved * 2 + flags.preloadGlobal.truth.toNat)
  let params ← membersOf registerParamBytes params
  .ok (name ++ size ++ registerCount ++ [first, second] ++ params)

/-- The flags of a `try`. The caught value goes to a register if its place is a number. -/
def tryBytes (catchTarget hasCatch hasFinally reserved : Value) : Except Fault Bytes := do
  let reserved ← reserved.fit 5 false
  .ok [UInt8.ofNat (reserved * 8 +
    packFlags [catchTarget.whole?.isSome, hasFinally.truth, hasCatch.truth])]

/-- The fields before the sizes of the bodies. -/
def fields : Operands → Except Fault Bytes
  | plain | withObject => .ok []
  | payload data => data.toByteString
  | gotoFrame frame => ui16 frame
  | getUrl url target => both url.string target.string
  | storeRegister n | strictMode n | waitForFrame2 n => ui8 n
  | constantPool pool => both (sizeOf pool) (membersOf Value.string pool)
  | waitForFrame frame skipCount => both (ui16 frame) (ui8 skipCount)
  | string s => s.string
  | getUrl2 method loadTarget loadVariables reserved =>
    getUrl2Bytes method loadTarget loadVariables reserved
  | gotoFrame2 play sceneBias reserved => gotoFrame2Bytes play sceneBias reserved
  | push values => membersOf Value.pushBytes values
  | branch _ displacement => (displacement.fit 16 true).map (Bytes.littleEndian 2)
  | defineFunction name params => functionBytes name params
  | defineFunction2 name params registerCount flags reserved =>
    function2Bytes name params registerCount flags reserved
  | tryCatch catchTarget hasCatch hasFinally reserved =>
    tryBytes catchTarget hasCatch hasFinally reserved

/-- The sizes of the bodies. -/
def sizes (sizes : List Nat) : Except Fault Bytes := (sizes.mapM count).map List.flatten

/-- The fields after the sizes of the bodies. -/
def closing : Operands → Except Fault Bytes
  | tryCatch catchTarget _ _ _ =>
    if catchTarget.whole?.isSome then ui8 catchTarget else catchTarget.string
  | _ => .ok []

end Operands

/-- The longest operands of a record. -/
def longestOperands : Nat := 65535

/-- The byte of an action code. -/
def Value.codeByte : Value → Except Fault UInt8
  | .double _ => .error .codeNotAnInteger
  | v =>
    match v.whole? with
    | .none => .error .wrongKind
    | .some n =>
      if 0 ≤ n ∧ n ≤ 255 then .ok (UInt8.ofNat n.toNat)
      else if -2 ^ (63 : Nat) ≤ n ∧ n < 2 ^ (63 : Nat) then .error .codeNotAByte
      else .error .codeOutOfRange

/-- A byte string at the end of operands. -/
def Value.trailingBytes : Value → Except Fault Bytes
  | .bytes b => .ok b
  | _ => .error .wrongKind

namespace Record

/-- The operands of a record whose bodies have the given sizes. -/
def operandBytes (r : Record) (sizes : List Nat) : Except Fault Bytes := do
  let fields ← r.operands.fields
  let sizes ← Operands.sizes sizes
  let closing ← r.operands.closing
  let trailing ← r.trailing.trailingBytes
  .ok (fields ++ sizes ++ closing ++ trailing)

/-- The bytes of a record with a length, whose bodies have the given sizes. -/
def header (r : Record) (sizes : List Nat) : Except Fault Bytes := do
  let operands ← r.operandBytes sizes
  if longestOperands < operands.length then
    .error (.recordTooLong r.nameText operands.length)
  else
    let code ← r.code.codeByte
    .ok (code :: (Bytes.littleEndian 2 operands.length ++ operands))

/-- The bytes of a record with a length, and of its bodies. -/
def serializeLong (r : Record) (bodies : List Bytes) : Except Fault Bytes :=
  (r.header (bodies.map List.length)).map (· ++ bodies.flatten)

/-- The bytes of a record and of its bodies. -/
def serialize (r : Record) (bodies : List Bytes) : Except Fault Bytes :=
  match r.kind.misuse? "jumplike" with
  | some fault => .error fault
  | none => do
    if ← r.isLong then r.serializeLong bodies
    else
      let code ← r.code.codeByte
      .ok [code]

end Record

/-! ### Reading -/

/-- The bit of a byte at a position counted from the least significant bit. -/
def flagAt (b : UInt8) (position : Nat) : Value := .bool (b.toNat.testBit position)

/-- The flags of a function with registers, given its two bytes of flags. -/
def FunctionFlags.ofBytes (first second : UInt8) : FunctionFlags where
  preloadParent := flagAt first 7
  preloadRoot := flagAt first 6
  suppressSuper := flagAt first 5
  preloadSuper := flagAt first 4
  suppressArguments := flagAt first 3
  preloadArguments := flagAt first 2
  suppressThis := flagAt first 1
  preloadThis := flagAt first 0
  preloadGlobal := flagAt second 0

/-- Reads a parameter of a function with registers. -/
def Reader.registerParam : Reader Value := do
  let register ← Reader.ui8
  let name ← Reader.text
  pure (Value.param (.int register) (.text name))

namespace Layout

/-- Reads operands, and the sizes of the bodies with them. -/
def read : Layout → Reader (Operands × List Nat)
  | plain => pure (.plain, [])
  | gotoFrame => do
    let frame ← Reader.ui16
    pure (.gotoFrame (.int frame), [])
  | getUrl => do
    let url ← Reader.text
    let target ← Reader.text
    pure (.getUrl (.text url) (.text target), [])
  | storeRegister => do
    let register ← Reader.ui8
    pure (.storeRegister (.int register), [])
  | constantPool => do
    let size ← Reader.ui16
    let pool ← Reader.times size Reader.text
    pure (.constantPool (.list (pool.map .text)), [])
  | strictMode => do
    let mode ← Reader.ui8
    pure (.strictMode (.int mode), [])
  | waitForFrame => do
    let frame ← Reader.ui16
    let skipCount ← Reader.ui8
    pure (.waitForFrame (.int frame) (.int skipCount), [])
  | waitForFrame2 => do
    let skipCount ← Reader.ui8
    pure (.waitForFrame2 (.int skipCount), [])
  | string => do
    let string ← Reader.text
    pure (.string (.text string), [])
  | getUrl2 => do
    let b ← Reader.byte
    pure (.getUrl2 (.int (b.toNat % 4)) (flagAt b 6) (flagAt b 7) (.int (b.toNat / 4 % 16)), [])
  | gotoFrame2 => do
    let b ← Reader.byte
    let bias ← if b.toNat.testBit 1 then (fun (n : Nat) => Value.int n) <$> Reader.ui16
      else pure Value.none
    pure (.gotoFrame2 (flagAt b 0) bias (.int (b.toNat / 4)), [])
  | push => do
    let values ← PushValue.readAll
    pure (.push (.list (values.map PushValue.toValue)), [])
  | branch => do
    let displacement ← Reader.si16
    pure (.branch .none (.int displacement), [])
  | defineFunction => do
    let name ← Reader.text
    let size ← Reader.ui16
    let params ← Reader.times size Reader.text
    let body ← Reader.ui16
    pure (.defineFunction (.text name) (.list (params.map .text)), [body])
  | defineFunction2 => do
    let name ← Reader.text
    let size ← Reader.ui16
    let registerCount ← Reader.ui8
    let first ← Reader.byte
    let second ← Reader.byte
    let params ← Reader.times size Reader.registerParam
    let body ← Reader.ui16
    pure (.defineFunction2 (.text name) (.list params) (.int registerCount)
      (.ofBytes first second) (.int (second.toNat / 2)), [body])
  | withObject => do
    let body ← Reader.ui16
    pure (.withObject, [body])
  | tryCatch => do
    let b ← Reader.byte
    let tryBody ← Reader.ui16
    let catchBody ← Reader.ui16
    let finallyBody ← Reader.ui16
    let target ← if b.toNat.testBit 2 then (fun (n : Nat) => Value.int n) <$> Reader.ui8
      else Value.text <$> Reader.text
    pure (.tryCatch target (flagAt b 0) (flagAt b 1) (.int (b.toNat / 8)),
      [tryBody, catchBody, finallyBody])

end Layout

end ActionBlock
