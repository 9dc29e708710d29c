import ActionBlock.Push.Type
import ActionBlock.Reader
import ActionBlock.Value.Field

/-!
# Push values

The values that a push action puts on the stack, each with its type. A value of the type of
32-bit numbers is rounded when it is made, so that it is held as it will be written.
-/

namespace ActionBlock

namespace PushType

/-- The halves of a byte string of eight, the second half first. The high word of a 64-bit
number is stored first. -/
def swapWords (bytes : Bytes) : Bytes := bytes.drop 4 ++ bytes.take 4

/-- The bytes of a value of a type. -/
def write (t : PushType) (value : Value) : Except Fault Bytes :=
  match t with
  | string => value.string
  | float => value.toSingle.map fun x => Bytes.littleEndian 4 x.bits.toNat
  | null | undefined => .ok []
  | register | boolean | constant8 => do
    let n ← value.toInt
    let bits ← Scalar.fitInt 8 false n
    .ok [UInt8.ofNat bits]
  | double => value.toDouble.map fun x => swapWords (Bytes.littleEndian 8 x.bits.toNat)
  | integer => (value.fit 32 true).map (Bytes.littleEndian 4)
  | constant16 => (value.fit 16 false).map (Bytes.littleEndian 2)

/-- Reads a value of a type. -/
def read (t : PushType) : Reader Scalar :=
  match t with
  | string => Scalar.text <$> Reader.text
  | float => (fun n => Scalar.double (.ofSingle ⟨UInt32.ofNat n⟩)) <$> Reader.number 4
  | null | undefined => pure .none
  | register | constant8 => (fun (n : Nat) => Scalar.int n) <$> Reader.ui8
  | boolean =>
    (fun (n : Nat) => if n < 2 then Scalar.bool (n = 1) else Scalar.int n) <$> Reader.ui8
  | double =>
    (fun b => Scalar.double ⟨UInt64.ofNat (Bytes.ofLittleEndian (swapWords b))⟩) <$>
      Reader.take 8
  | integer => Scalar.int <$> Reader.si32
  | constant16 => (fun (n : Nat) => Scalar.int n) <$> Reader.ui16

end PushType

/-- A value with its type. -/
structure PushValue where
  value : Value
  type : PushType

namespace PushValue

/-- The value and its type as one value. -/
def toValue (v : PushValue) : Value := .pushed v.value v.type

/-- The value of a type that a value gives. -/
def make (value : Value) (type : PushType) : Except Fault PushValue :=
  match type with
  | .float => value.toSingle.map fun x => ⟨.double (.ofSingle x), type⟩
  | _ => .ok ⟨value, type⟩

/-- The value that names a register. -/
def register (index : Value) : PushValue := ⟨index, .register⟩

/-- The value that names a constant, of the shorter type if the index has room in it. -/
def constant (index : Value) : Except Fault PushValue := do
  let order ← index.compareInt 256
  .ok ⟨index, if order = some .lt then .constant8 else .constant16⟩

/-- The value with a type that a member of a push is. What is not made as such may still be a
pair of a value and a type; `asked` is what is asked of the type. -/
def ofValue (asked : Text) : Value → Except Fault PushValue
  | .pushed value type => .ok ⟨value, type⟩
  | v => do
    let (value, type) ← v.pair
    match type with
    | .pushType type => .ok ⟨value, type⟩
    | other => .error (.lacks other.word asked)

/-- The text of a value. -/
def render (v : PushValue) : Except Fault Text := v.type.render v.value v.value.quoted

/-- A value as messages show it. -/
def describe (v : PushValue) : Except Fault Text := v.toValue.quoted

/-- The bytes of a value after the number of its type. -/
def write (v : PushValue) : Except Fault Bytes :=
  (v.type.write v.value).map (UInt8.ofNat v.type.number :: ·)

/-- Reads values as long as the next byte is the number of a type, and leaves the rest. The
values already read stand in reverse order; the number of bytes bounds the number of values. -/
def readFrom : Nat → List PushValue → Reader (List PushValue)
  | 0, done => pure done.reverse
  | more + 1, done => fun bytes =>
    match bytes with
    | [] => some (done.reverse, [])
    | b :: rest =>
      match PushType.ofNumber? b.toNat with
      | none => some (done.reverse, bytes)
      | some type => do
        let (value, rest) ← type.read rest
        readFrom more (⟨.scalar value, type⟩ :: done) rest

/-- Reads values to the end, or to a byte that is not the number of a type. -/
def readAll : Reader (List PushValue) := fun bytes => readFrom (bytes.length + 1) [] bytes

end PushValue

/-- The text of a member of a push. -/
def Value.pushText (v : Value) : Except Fault Text := do
  let p ← PushValue.ofValue "text" v
  p.render

/-- The bytes of a member of a push. -/
def Value.pushBytes (v : Value) : Except Fault Bytes := do
  let p ← PushValue.ofValue "id" v
  p.write

end ActionBlock
