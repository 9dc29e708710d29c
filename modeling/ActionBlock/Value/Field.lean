import ActionBlock.Value.Render

/-!
# Values in fields

What a field makes of the value that it holds. A field for integers has a width in bits and
holds the numbers that fit, a field for strings holds texts and byte strings without a zero byte,
and a byte string is given by itself, by its length, or by the list of its bytes.
-/

namespace ActionBlock.Value

-- Powers are those of the core library, whatever else is imported.
attribute [local instance (high)] instPowNat

/-! ### Numbers -/

/-- The integer that a value stands for, numerals included. -/
def toInt : Value → Except Fault Int
  | scalar s => s.toInt
  | _ => .error .wrongKind

/-- The bits of a value in a field for integers. -/
def fit (width : Nat) (signed : Bool) : Value → Except Fault Nat
  | scalar s => s.fit width signed
  | _ => .error .wrongKind

/-- The number that a value is in a field of 64 bits. -/
def toDouble : Value → Except Fault Double
  | scalar s => s.toDouble
  | _ => .error .notANumber

/-- The number that a value is in a field of 32 bits. -/
def toSingle : Value → Except Fault Single
  | scalar s => s.toSingle
  | _ => .error .notANumber

/-! ### Strings -/

/-- The bytes of a value in a field for strings, the zero byte at the end included. A list that has
the byte string of a single zero byte among its members counts as a string with one in it. -/
def string (v : Value) : Except Fault Bytes :=
  match v with
  | scalar s => s.string
  | v => do
    let members ← v.members
    if members.any (·.same (bytes [0])) then
      let t ← v.quoted
      .error (.containsNul t)
    else .error .wrongKind

/-- The byte that a member of a byte string is, given the fault if it is none. -/
def byte (fault : Fault) (v : Value) : Except Fault UInt8 :=
  match v.whole? with
  | some n => if 0 ≤ n ∧ n ≤ 255 then .ok (UInt8.ofNat n.toNat) else .error fault
  | Option.none => .error .wrongKind

/-- The byte string that a value gives, of a kind for which a word is given. A list of bytes gives
the string of them, and a number that many zero bytes. -/
def toBytes (wanted : Text) (fault : Fault) (v : Value) : Except Fault Bytes :=
  match v with
  | bytes b => .ok b
  | none | double _ | pushType _ | action .. => .error (.notAByteString v.word wanted)
  | text _ => .error .wrongKind
  | v =>
    match v.whole? with
    | some n =>
      if n < -2 ^ (63 : Nat) ∨ 2 ^ (63 : Nat) ≤ n then .error .countTooLarge
      else if n < 0 then .error .negativeCount
      else .ok (List.replicate n.toNat 0)
    | Option.none => do
      let members ← v.members
      members.mapM (byte fault)

/-- The byte string that a value gives. -/
def toByteString (v : Value) : Except Fault Bytes := v.toBytes "bytes" .memberNotAByte

/-- The bytes of a value to be shown one by one. -/
def toByteArray (v : Value) : Except Fault Bytes := v.toBytes "bytearray" .notAByte

end ActionBlock.Value
