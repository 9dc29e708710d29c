import ActionBlock.Action.Wire
import ActionBlock.Bits.Stream

/-!
# Reading blocks

A block of actions is read in two steps. The first frames the records, reads their operands
and the bodies that follow them, and notes the offset of each. The second turns the
displacement of each branch into the index of the action that it lands on.

A block ends at a record with code zero, or, if it is a body, at a given offset. Every record
and body has to lie within the bytes there are and before the end of the body around it.
Action codes that the table does not list are kept with their operands as they are, or refused
by a strict decoder.
-/

namespace ActionBlock

/-! ### Errors and events -/

/-- What ended before it was complete. -/
inductive Shortfall where
  /-- A block without a record that ends it. -/
  | noEnd
  /-- A body, by a number of bytes. -/
  | body (missing : Int)
  /-- The length of a record. -/
  | length
  /-- The body around a record, by a number of bytes. -/
  | enclosing (excess : Int)
  /-- The operands of a record. -/
  | operands (declared available : Nat)
  /-- The operands of a record, in the midst of a field. -/
  | field (mnemonic : Text)
  /-- The bytes for a body. -/
  | bodyBytes (bodyName : String) (name : Text) (declared available : Nat)
  deriving DecidableEq, Repr

/-- The wording of a shortfall. -/
def Shortfall.message : Shortfall → Text
  | noEnd => "action block ends without an END action"
  | body missing => "body ends " ++ Numeral.int missing ++ " bytes early"
  | length => "missing record length"
  | enclosing excess =>
    "action runs " ++ Numeral.int excess ++ " bytes past the end of its body"
  | operands declared available =>
    "record declares " ++ Numeral.nat declared ++ " operand bytes, " ++ Numeral.nat available ++
      " available"
  | field mnemonic => "operands of " ++ mnemonic ++ " end early"
  | bodyBytes bodyName name declared available =>
    bodyName ++ " of " ++ name ++ " declares " ++ Numeral.nat declared ++ " bytes, " ++
      Numeral.nat available ++ " available"

/-- Why a block cannot be read. -/
inductive DecodeError where
  /-- An action code that the table does not list. -/
  | unknownCode (code offset : Int)
  /-- Bytes that end too early. -/
  | truncated (shortfall : Shortfall) (offset : Int) (code : Option Int)
  /-- A branch that lands on no action of its block. -/
  | badLanding (name : Text) (code offset destination : Int)
  /-- A fault that is none of these. -/
  | fault (kept : Fault) (offset : Int)
  /-- Steps that ended before the block did. -/
  | exhausted (offset : Int)
  deriving DecidableEq, Repr

namespace DecodeError

/-- The offset that an error concerns. -/
def offset : DecodeError → Int
  | unknownCode _ offset | truncated _ offset _ | badLanding _ _ offset _
  | fault _ offset | exhausted offset => offset

/-- The action code that an error concerns. -/
def code : DecodeError → Option Int
  | unknownCode code _ | badLanding _ code _ _ => some code
  | truncated _ _ code => code
  | fault .. | exhausted _ => none

/-- The wording of an error. -/
def message (e : DecodeError) : Text :=
  match e with
  | unknownCode .. => located "unknown action code" e.code e.offset
  | truncated shortfall _ _ => located shortfall.message e.code e.offset
  | badLanding name _ _ destination =>
    located (name ++ " lands on offset " ++ Numeral.int destination ++
      ", which is not the start of an action") e.code e.offset
  | fault kept _ => kept.message
  | exhausted _ => located "action block not read to its end" e.code e.offset

end DecodeError

/-- What a decoder reports on its way. -/
inductive Event where
  /-- An action code that the table does not list was kept. -/
  | unknown (code offset : Int)
  /-- A block was read. -/
  | block (actions branches : Nat) (stop : Int)
  /-- Bytes after the end of the outermost block are not read. -/
  | ignored (bytes : Int)
  /-- The outermost block was read. -/
  | finished (actions kept : Nat)
  deriving DecidableEq, Repr

namespace Event

/-- Whether an event is a warning, and not of interest only to those who look into details. -/
def isWarning : Event → Bool
  | unknown .. | ignored .. => true
  | block .. | finished .. => false

/-- The wording of an event. -/
def message : Event → Text
  | unknown code offset =>
    (DecodeError.unknownCode code offset).message ++ ", keeping it as an opaque action"
  | block actions branches stop =>
    "decoded a block of " ++ Numeral.nat actions ++ " actions, " ++ Numeral.nat branches ++
      " branches, at offset " ++ Numeral.int stop
  | ignored bytes => "ignoring " ++ Numeral.int bytes ++ " bytes after the END action"
  | finished actions kept =>
    "decoded " ++ Numeral.nat actions ++ " actions (" ++ Numeral.nat kept ++ " unknown)"

/-- The line of the log for an event. -/
def logLine (e : Event) : Text :=
  (if e.isWarning then "WARNING" else "DEBUG") ++ ":swfaction.actions.decoder: " ++ e.message

/-- The error that a strict decoder would have raised for an event. -/
def diagnostic? : Event → Option DecodeError
  | unknown code offset => some (.unknownCode code offset)
  | _ => none

end Event

/-! ### Framing records -/

/-- Reads blocks with the actions of a table. -/
structure Decoder where
  table : OpcodeTable
  strict : Bool

/-- The bytes that are left to read, and the offset of the first of them. If reading began before
the start of an array of bytes, single bytes are counted from its end up to the start; but
several bytes at once are a slice of the array, which is shorter where it runs across the
start. -/
structure Input where
  offset : Int
  rest : Bytes
  array : Option Bytes := none
  deriving DecidableEq, Repr

namespace Input

/-- Takes bytes off the input, if there are that many. -/
def take? (i : Input) (n : Nat) : Option (Bytes × Input) :=
  match Bytes.splitExact n i.rest with
  | none => none
  | some (front, rest) =>
    let front := i.array.elim front fun a => BitStream.slice a i.offset (i.offset + n)
    some (front, { i with offset := i.offset + n, rest := rest })

end Input

/-- Takes operands of the given length off the input, for a record at the given offset. -/
def takeOperands (limit : Option Int) (offset code : Int) (length : Nat) (input : Input) :
    Except DecodeError (Bytes × Input) :=
  let stop := input.offset + length
  match limit.filter fun limit => limit < stop with
  | some limit => .error (.truncated (.enclosing (stop - limit)) offset (some code))
  | none =>
    match input.take? length with
    | some (operands, next) => .ok (operands, next)
    | none => .error (.truncated (.operands length input.rest.length) offset (some code))

/-- Takes the operands of a record at the given offset off the input, which begins after its
code. -/
def frameOperands (limit : Option Int) (offset code : Int) (input : Input) :
    Except DecodeError (Bytes × Input) :=
  if code < firstLongCode then .ok ([], input)
  else if limit.any (· < input.offset + 2) then .error (.truncated .length offset (some code))
  else
    match input.take? 2 with
    | some (length, next) =>
      takeOperands limit offset code (Bytes.ofLittleEndian length) next
    | none => .error (.truncated .length offset (some code))

/-- A record as it was read, with the sizes that it declares for its bodies. -/
structure Frame where
  record : Record
  sizes : List Nat

namespace Frame

/-- The record of a code that the table does not list, with its operands as they are. -/
def unlisted (offset code : Int) (operands : Bytes) : Frame where
  record :=
    { kind := .unlisted code
      operands := .payload (.bytes operands)
      offset := .int offset }
  sizes := []

/-- The record of an entry of a table, with the operands that were read and the bytes after
them. -/
def listed (table : TableId) (entry : OpcodeEntry) (offset : Int) (operands : Operands)
    (sizes : List Nat) (trailing : Bytes) : Frame where
  record :=
    { kind := .listed table entry
      operands := operands
      trailing := .bytes trailing
      offset := .int offset
      declaredSizes := .list (sizes.map fun (n : Nat) => .int n) }
  sizes := sizes

end Frame

/-- The record with a code and operands. -/
def Decoder.record (d : Decoder) (offset code : Int) (operands : Bytes) :
    Except DecodeError Frame :=
  match d.table.find? code with
  | none =>
    if d.strict then .error (.unknownCode code offset)
    else .ok (.unlisted offset code operands)
  | some entry =>
    match entry.layout.read operands with
    | none => .error (.truncated (.field entry.mnemonic) offset (some code))
    | some ((operands, sizes), trailing) =>
      .ok (.listed d.table.id entry offset operands sizes trailing)

namespace Frame

/-- The event for a record, if any. -/
def event? (f : Frame) (offset : Int) : Option Event :=
  match f.record.kind with
  | .unlisted code => some (.unknown code offset)
  | _ => none

/-- The names of the bodies that follow a record, with the sizes that it declares. -/
def bodySizes (f : Frame) : List (String × Nat) := f.record.operands.bodyNames.zip f.sizes

end Frame

/-! ### Resolving branches -/

/-- An action with the offset at which it was read. -/
structure Placed where
  start : Int
  action : Action

/-- The displacement of a branch as it was read. -/
def Operands.displacement? : Operands → Option Int
  | branch _ displacement => displacement.whole?
  | _ => none

/-- Sets the target of a branch. -/
def Action.withTarget (target : Nat) : Action → Action
  | .mk identity record bodies => .mk identity (record.withTarget (.int target)) bodies

/-- Resolves the branches among actions, given where each ends and where the actions of the
whole block start; those already resolved stand in reverse order. -/
def resolveFrom (starts : List Int) :
    List Placed → List Int → List Action → Except DecodeError (List Action)
  | placed :: rest, stop :: stops, done =>
    let a := placed.action
    match a.record.operands.displacement? with
    | none => resolveFrom starts rest stops (a :: done)
    | some displacement =>
      match starts.idxOf? (stop + displacement) with
      | some target => resolveFrom starts rest stops (a.withTarget target :: done)
      | none =>
        .error (.badLanding a.record.nameText a.record.codeNumber placed.start
          (stop + displacement))
  | _, _, done => .ok done.reverse

/-- Resolves the branches of a block, given the offset of its end. -/
def resolve (block : List Placed) (stop : Int) : Except DecodeError (List Action) :=
  let starts := block.map Placed.start ++ [stop]
  resolveFrom starts block (starts.drop 1) []

/-! ### Blocks -/

/-- An outcome, and the events up to it, the latest first. -/
abbrev Outcome (α : Type) := Except DecodeError α × List Event

/-- The actions of a block with their branches unresolved, the offset of the block's end, and
the input after the block. -/
structure Framed where
  actions : List Placed
  stop : Int
  next : Input

/-- Resolves the branches of a block. -/
def Framed.finish : Outcome Framed → Outcome (List Action × Input)
  | (.error e, events) => (.error e, events)
  | (.ok framed, events) =>
    match resolve framed.actions framed.stop with
    | .error e => (.error e, events)
    | .ok actions =>
      let branches := (actions.filter Action.isBranch).length
      (.ok (actions, framed.next), .block actions.length branches framed.stop :: events)

/-- What stands next in a block. -/
inductive Upcoming where
  /-- The end of the block, and the input after it. -/
  | finish (next : Input)
  /-- A record, and the input after it. -/
  | record (frame : Frame) (next : Input)
  /-- Bytes that make no record. -/
  | failure (error : DecodeError)

/-- Looks at what stands next in a block with a limit, or else with a record that ends it. -/
def Decoder.upcoming (d : Decoder) (limit : Option Int) (input : Input) : Upcoming :=
  if limit.any (· ≤ input.offset) then .finish input
  else
    match input.rest with
    | [] =>
      let shortfall := limit.elim .noEnd fun limit => .body (limit - input.offset)
      .failure (.truncated shortfall input.offset none)
    | code :: rest =>
      let next := { input with offset := input.offset + 1, rest := rest }
      if limit.isNone && code = 0 then .finish next
      else
        match frameOperands limit input.offset code.toNat next with
        | .error e => .failure e
        | .ok (operands, next) =>
          match d.record input.offset code.toNat operands with
          | .error e => .failure e
          | .ok frame => .record frame next

mutual

/-- Frames the actions of a block up to its limit, or else up to a record that ends it. The
actions already framed stand in reverse order. Each step takes a byte at least, so the number
of bytes bounds the number of steps. -/
def Decoder.frame (d : Decoder) (limit : Option Int) (steps : Nat) (input : Input)
    (done : List Placed) (events : List Event) : Outcome Framed :=
  match steps with
  | 0 => (.error (.exhausted input.offset), events)
  | steps + 1 =>
    match d.upcoming limit input with
    | .failure e => (.error e, events)
    | .finish next => (.ok ⟨done.reverse, input.offset, next⟩, events)
    | .record frame next =>
      let events := (frame.event? input.offset).toList ++ events
      match d.bodies limit steps frame.record frame.bodySizes next [] events with
      | (.error e, events) => (.error e, events)
      | (.ok (bodies, next), events) =>
        let placed := ⟨input.offset, .mk none frame.record bodies⟩
        d.frame limit steps next (placed :: done) events

/-- Reads the bodies of an action, given their names and sizes. The bodies already read stand in
reverse order. -/
def Decoder.bodies (d : Decoder) (limit : Option Int) (steps : Nat) (record : Record)
    (sizes : List (String × Nat)) (input : Input) (done : List (List Action))
    (events : List Event) : Outcome (List (List Action) × Input) :=
  match sizes, steps with
  | [], _ => (.ok (done.reverse, input), events)
  | _, 0 => (.error (.exhausted input.offset), events)
  | (bodyName, size) :: sizes, steps + 1 =>
    if !Bytes.hasAtLeast size input.rest || limit.any (· < input.offset + size) then
      let shortfall := .bodyBytes bodyName record.nameText size input.rest.length
      (.error (.truncated shortfall input.offset record.codeNumber), events)
    else
      match Framed.finish (d.frame (some (input.offset + size)) steps input [] events) with
      | (.error e, events) => (.error e, events)
      | (.ok (body, next), events) =>
        d.bodies limit steps record sizes next (body :: done) events

end

/-- Reads a block, up to a limit if there is one. -/
def Decoder.block (d : Decoder) (limit : Option Int) (input : Input) :
    Outcome (List Action × Input) :=
  Framed.finish (d.frame limit (input.rest.length + 1) input [] [])

/-! ### Reading from a bit stream -/

/-- The result of reading a block from a bit stream: the block and where the cursor is after it,
and the events in their order. -/
structure Decoded where
  result : Except DecodeError (List Action × Int)
  events : List Event

namespace Decoded

/-- The action codes that were kept although the table does not list them. -/
def diagnostics (d : Decoded) : List DecodeError := d.events.filterMap Event.diagnostic?

end Decoded

/-- What is read from the cursor of a bit stream on. -/
def Input.ofStream (s : BitStream) : Input :=
  { offset := s.cursor / 8
    rest := s.wholeBytes
    array := if s.cursor < 0 ∧ s.isAligned then some s.bytes else none }

/-- Reads a block at the cursor of a bit stream: a body of the given number of bytes, or else a
block with an end of its own. -/
def Decoder.readBlock (d : Decoder) (s : BitStream) (size : Option Int) : Decoded :=
  let input := Input.ofStream s
  let limit := size.map (input.offset + ·)
  if input.offset < -s.bytes.length ∧ 8 ≤ s.available ∧ limit.all (input.offset < ·) then
    ⟨.error (.fault .beforeStart input.offset), []⟩
  else
    match d.block limit input with
    | (.error e, events) => ⟨.error e, events.reverse⟩
    | (.ok (actions, next), events) =>
      ⟨.ok (actions, s.cursor + 8 * (next.offset - input.offset)), events.reverse⟩

/-- Reads the outermost block at the cursor of a bit stream. -/
def Decoder.read (d : Decoder) (s : BitStream) : Decoded :=
  let run := d.readBlock s none
  match run.result with
  | .error _ => run
  | .ok (actions, cursor) =>
    let left := s.length - cursor
    let ignored : List Event := if left = 0 then [] else [.ignored (left / 8)]
    { run with
      events := run.events ++ ignored ++ [.finished actions.length run.diagnostics.length] }

/-- Whether reading a block consults the table: the first record is not the end of the block,
and it is complete. -/
def Decoder.consults (s : BitStream) : Bool :=
  match s.wholeBytes with
  | [] => false
  | code :: rest => code ≠ 0 && (frameOperands none 0 code.toNat ⟨1, rest, none⟩).isOk

end ActionBlock
