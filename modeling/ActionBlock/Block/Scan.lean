import ActionBlock.Action.Scan
import ActionBlock.Block.Decode

/-!
# Reading blocks at the cursor

A block is read from a bit stream with the operations of the stream, one record after another: the
code, the length and the operands are taken at the cursor wherever it is, at the start of a byte or
between two. Offsets are those of the bytes that the cursor is in. Where bits are missing from the
operands, the block is truncated; any other fault of an operation is an error as it is.

`Decoder.readBlock` takes the whole bytes ahead of the cursor out of the stream first, which is
faster.
-/

namespace ActionBlock

/-- A step of reading a block from a stream. It may report events, which stand the latest first. -/
abbrev ScanOp (α : Type) := ExceptT DecodeError (StateM (BitStream × List Event)) α

namespace ScanOp

/-- The stream as it is. -/
def stream : ScanOp BitStream := do
  let (s, _) ← get
  pure s

/-- The offset of the byte that the cursor is in. -/
def offset : ScanOp Int := do
  let s ← stream
  pure (s.cursor / 8)

/-- Performs an operation on the stream, with an error for when it fails. The error may tell what
the fault is, and what the stream is like then. -/
def perform {α : Type} (op : BitOp α) (error : Fault → BitStream → DecodeError) : ScanOp α := do
  let (s, events) ← get
  let (result, s) := op.run s
  set (s, events)
  match result with
  | .ok a => pure a
  | .error fault => throw (error fault s)

/-- Reports events. -/
def report (new : List Event) : ScanOp Unit :=
  modify fun (s, events) => (s, new ++ events)

end ScanOp

/-- Reads operands of the given length, for a record at the given offset. -/
def scanPayload (limit : Option Int) (offset code length : Int) : ScanOp BitStream := do
  let stop := offset + 3 + length
  match limit.filter fun limit => limit < stop with
  | some limit => throw (.truncated (.enclosing (stop - limit)) offset (some code))
  | none =>
    ScanOp.perform (BitStream.readStream length) fun fault s =>
      if fault.isOutside then
        .truncated (.operands length.toNat (s.available / 8).toNat) offset (some code)
      else .fault fault offset

/-- Reads the operands of a record at the given offset, whose code was just read. -/
def scanOperands (limit : Option Int) (offset code : Int) : ScanOp BitStream := do
  if code < firstLongCode then pure .empty
  else
    let s ← ScanOp.stream
    if s.available < 16 || limit.any (· < offset + 3) then
      throw (.truncated .length offset (some code))
    else
      let length ← ScanOp.perform (BitStream.readInt 16 false .little) fun fault _ =>
        .fault fault offset
      scanPayload limit offset code length

/-- The record of an entry of a table, whose operands are read from their stream. -/
def scanListed (table : TableId) (entry : OpcodeEntry) (offset code : Int) (operands : BitStream) :
    Except DecodeError Frame :=
  match entry.layout.scan.run operands with
  | (.error fault, _) =>
    .error <|
      if fault.isOutside then .truncated (.field entry.mnemonic) offset (some code)
      else .fault fault offset
  | (.ok (fields, sizes), rest) =>
    match scanTrailing.run rest with
    | (.error fault, _) => .error (.fault fault offset)
    | (.ok trailing, _) => .ok (.listed table entry offset fields sizes trailing)

/-- The record of a code that the table does not list, with its operands as they are. -/
def scanUnlisted (offset code : Int) (operands : BitStream) : Except DecodeError Frame :=
  match Record.unlisted (.int code) operands.serialize with
  | .error fault => .error (.fault fault offset)
  | .ok record => .ok ⟨{ record with offset := .int offset }, []⟩

/-- The record with a code and a stream of operands. -/
def Decoder.scanFrame (d : Decoder) (offset code : Int) (operands : BitStream) :
    Except DecodeError Frame :=
  match d.table.find? code with
  | some entry => scanListed d.table.id entry offset code operands
  | none =>
    if d.strict then .error (.unknownCode code offset) else scanUnlisted offset code operands

/-- Reads the next record of a block, or finds the block's end. -/
def Decoder.scanRecord (d : Decoder) (limit : Option Int) : ScanOp (Option Frame) := do
  let offset ← ScanOp.offset
  if limit.any (· ≤ offset) then pure none
  else
    let s ← ScanOp.stream
    if s.available < 8 then
      throw (.truncated (limit.elim .noEnd fun limit => .body (limit - offset)) offset none)
    else
      let code ← ScanOp.perform BitStream.readByte fun fault _ => .fault fault offset
      if limit.isNone && code = 0 then pure none
      else
        let operands ← scanOperands limit offset code.toNat
        let frame ← d.scanFrame offset code.toNat operands
        pure (some frame)

/-- Resolves the branches of a block that ends at an offset. -/
def finishScan (placed : List Placed) (stop : Int) : ScanOp (List Action) := do
  let actions ← resolve placed stop
  ScanOp.report [.block actions.length (actions.filter Action.isBranch).length stop]
  pure actions

mutual

/-- Reads the actions of a block up to its limit, or else up to a record that ends it. The actions
already read stand in reverse order. -/
def Decoder.scanActions (d : Decoder) (limit : Option Int) (steps : Nat) (done : List Placed) :
    ScanOp (List Action) := do
  match steps with
  | 0 => throw (.exhausted (← ScanOp.offset))
  | steps + 1 =>
    let offset ← ScanOp.offset
    match ← d.scanRecord limit with
    | none => finishScan done.reverse offset
    | some frame =>
      ScanOp.report (frame.event? offset).toList
      let bodies ← d.scanBodies limit steps frame.record frame.bodySizes []
      d.scanActions limit steps (⟨offset, .mk none frame.record bodies⟩ :: done)

/-- Reads the bodies of an action, given their names and sizes. The bodies already read stand in
reverse order. -/
def Decoder.scanBodies (d : Decoder) (limit : Option Int) (steps : Nat) (record : Record)
    (sizes : List (String × Nat)) (done : List (List Action)) : ScanOp (List (List Action)) := do
  match sizes, steps with
  | [], _ => pure done.reverse
  | _, 0 => throw (.exhausted (← ScanOp.offset))
  | (bodyName, size) :: sizes, steps + 1 =>
    let offset ← ScanOp.offset
    let s ← ScanOp.stream
    if s.available < size * 8 || limit.any (· < offset + size) then
      throw (.truncated (.bodyBytes bodyName record.nameText size (s.available / 8).toNat) offset
        record.codeNumber)
    else
      let body ← d.scanActions (some (offset + size)) steps []
      d.scanBodies limit steps record sizes (body :: done)

end

/-- Reads a block at the cursor of a bit stream: a body of the given number of bytes, or else a
block with an end of its own. Each step takes a byte at least, so the number of bytes bounds the
number of steps. -/
def Decoder.scanBlock (d : Decoder) (s : BitStream) (size : Option Int) : Decoded :=
  let limit := size.map (s.cursor / 8 + ·)
  let steps := (s.available / 8).toNat + 1
  let (result, s, events) := (d.scanActions limit steps []).run (s, [])
  ⟨result.map fun actions => (actions, s.cursor), events.reverse⟩

end ActionBlock
