import ActionBlock.Action.Wire
import ActionBlock.Bits.Stream

/-!
# Operands read from a stream

The operands of a record are a stream of their own, from which they are read with the operations of
the stream: single bits, numbers of some bits, floating point numbers, texts and byte strings. The
values of a push are read one after the other until the stream ends or a byte is no type; that byte
is read already then, and the cursor is set back before it.

An operation of the stream may fail in many ways, and a value that was read is still to be made.
`Layout.read` takes the same operands off a byte string, which is faster and can only fail by
running out of bytes.
-/

namespace ActionBlock

open BitStream

namespace BitStream

/-- Reads a number of one byte. -/
def readUI8 : BitOp Int := readInt 8 false .big

/-- Reads a number of two bytes. -/
def readUI16 : BitOp Int := readInt 16 false .little

/-- Reads a number of values. -/
def times {α : Type} (n : Int) (op : BitOp α) : BitOp (List α) := repeatOp op n.toNat []

end BitStream

namespace PushType

/-- The number of 64 bits that bytes denote, the second half of them first. -/
def doubleOfWords (raw : Bytes) : Except Fault Double :=
  let bytes := swapWords raw
  if bytes.length ≠ 8 then .error (.shortFloat 8) else .ok (floatOfBytes false bytes)

/-- Reads a value of a type from a stream. -/
def scan (t : PushType) : BitOp Scalar :=
  match t with
  | string => Scalar.text <$> readText
  | float => Scalar.double <$> readFloat (.int 32) (.text "<")
  | null | undefined => pure .none
  | register | constant8 => Scalar.int <$> readUI8
  | boolean => (fun n => if n = 0 ∨ n = 1 then Scalar.bool (n = 1) else Scalar.int n) <$> readUI8
  | double => do
    let raw ← readBytes 8
    let x ← doubleOfWords raw
    pure (.double x)
  | integer => Scalar.int <$> readInt 32 true .little
  | constant16 => Scalar.int <$> readUI16

end PushType

namespace PushValue

/-- Reads values from a stream to its end, or to a byte that is not the number of a type. The values
already read stand in reverse order. Each value takes a byte at least, so that the number of bits
bounds the number of values. -/
def scanFrom : Nat → List PushValue → BitOp (List PushValue)
  | 0, _ => throw .exhausted
  | more + 1, done => do
    if (← get).available ≤ 0 then pure done.reverse
    else
      let number ← readUI8
      match PushType.ofNumber? number.toNat with
      | none =>
        seek (-8) .current
        pure done.reverse
      | some type =>
        let value ← type.scan
        let made ← PushValue.make (.scalar value) type
        scanFrom more (made :: done)

/-- Reads values from a stream to its end, or to a byte that is not the number of a type. -/
def scanAll : BitOp (List PushValue) := do
  let s ← get
  scanFrom (s.available.toNat + 1) []

end PushValue

/-- Reads a parameter of a function with registers from a stream. -/
def scanRegisterParam : BitOp Value := do
  let register ← readUI8
  let name ← readText
  pure (.param (.int register) (.text name))

namespace Layout

/-- Reads operands from a stream, and the sizes of the bodies with them. -/
def scan : Layout → BitOp (Operands × List Nat)
  | plain => pure (.plain, [])
  | gotoFrame => do
    let frame ← readUI16
    pure (.gotoFrame (.int frame), [])
  | getUrl => do
    let url ← readText
    let target ← readText
    pure (.getUrl (.text url) (.text target), [])
  | storeRegister => do
    let register ← readUI8
    pure (.storeRegister (.int register), [])
  | constantPool => do
    let size ← readUI16
    let pool ← times size readText
    pure (.constantPool (.list (pool.map .text)), [])
  | strictMode => do
    let mode ← readUI8
    pure (.strictMode (.int mode), [])
  | waitForFrame => do
    let frame ← readUI16
    let skipCount ← readUI8
    pure (.waitForFrame (.int frame) (.int skipCount), [])
  | waitForFrame2 => do
    let skipCount ← readUI8
    pure (.waitForFrame2 (.int skipCount), [])
  | string => do
    let string ← readText
    pure (.string (.text string), [])
  | getUrl2 => do
    let loadVariables ← readBit
    let loadTarget ← readBit
    let reserved ← readInt 4 false .big
    let method ← readInt 2 false .big
    pure (.getUrl2 (.int method) (.bool loadTarget) (.bool loadVariables) (.int reserved), [])
  | gotoFrame2 => do
    let reserved ← readInt 6 false .big
    let hasBias ← readBit
    let play ← readBit
    let bias ← if hasBias then Value.int <$> readUI16 else pure .none
    pure (.gotoFrame2 (.bool play) bias (.int reserved), [])
  | push => do
    let values ← PushValue.scanAll
    pure (.push (.list (values.map PushValue.toValue)), [])
  | branch => do
    let displacement ← readInt 16 true .little
    pure (.branch .none (.int displacement), [])
  | defineFunction => do
    let name ← readText
    let size ← readUI16
    let params ← times size readText
    let body ← readUI16
    pure (.defineFunction (.text name) (.list (params.map .text)), [body.toNat])
  | defineFunction2 => do
    let name ← readText
    let size ← readUI16
    let registerCount ← readUI8
    let preloadParent ← readBit
    let preloadRoot ← readBit
    let suppressSuper ← readBit
    let preloadSuper ← readBit
    let suppressArguments ← readBit
    let preloadArguments ← readBit
    let suppressThis ← readBit
    let preloadThis ← readBit
    let reserved ← readInt 7 false .big
    let preloadGlobal ← readBit
    let params ← times size scanRegisterParam
    let body ← readUI16
    let flags : FunctionFlags :=
      { preloadParent := .bool preloadParent
        preloadRoot := .bool preloadRoot
        suppressSuper := .bool suppressSuper
        preloadSuper := .bool preloadSuper
        suppressArguments := .bool suppressArguments
        preloadArguments := .bool preloadArguments
        suppressThis := .bool suppressThis
        preloadThis := .bool preloadThis
        preloadGlobal := .bool preloadGlobal }
    pure (.defineFunction2 (.text name) (.list params) (.int registerCount) flags (.int reserved),
      [body.toNat])
  | withObject => do
    let body ← readUI16
    pure (.withObject, [body.toNat])
  | tryCatch => do
    let reserved ← readInt 5 false .big
    let inRegister ← readBit
    let hasFinally ← readBit
    let hasCatch ← readBit
    let sizes ← times 3 readUI16
    let target ← if inRegister then Value.int <$> readUI8 else Value.text <$> readText
    pure (.tryCatch target (.bool hasCatch) (.bool hasFinally) (.int reserved),
      sizes.map Int.toNat)

end Layout

/-- Reads the whole bytes that are left after operands. -/
def scanTrailing : BitOp Bytes := do
  skipFlush
  let s ← get
  if 8 ≤ s.available then readBytes (s.available / 8) else pure []

end ActionBlock
