import ActionBlock.Block.Decode
import ActionBlock.Block.Listing
import ActionBlock.CommandLine.Folder
import ActionBlock.CommandLine.HexDump
import ActionBlock.Opcode.Standard

/-!
# The dump command

The command lists the block of actions that a file holds from an offset on. Options come first;
then the name of the file, and the offset if it is not zero. Errors are shown together with the
usage, after what the decoder has reported.

The size of the data is shown in the first unit of which there are less than 1024, with one place.
Sizes beyond the last unit are not shown.
-/

namespace ActionBlock

/-! ### Sizes -/

namespace SizeText

-- Powers are those of the core library, whatever else is imported.
attribute [local instance (high)] instPowNat

/-- The units, each 1024 of the one before. -/
def units : List Text := [" bytes", "KiB", "MiB", "GiB", "TiB"]

/-- A number of bytes in one of the given units, the first of which is a power of 1024. -/
def inUnits (x : Double) (power : Nat) : List Text → Option Text
  | [] => none
  | unit :: units =>
    if x.compareInt? (1024 ^ (power + 1)) = some .lt then some (x.onePlace power ++ unit)
    else inUnits x (power + 1) units

/-- A size, if there is a unit for it. -/
def text (size : Scalar) : Except Fault (Option Text) :=
  match size.whole?, size with
  | some n, _ => (Double.ofInt? n).elim (.error .beyondDouble) fun x => .ok (inUnits x 0 units)
  | none, .double x => .ok (inUnits x 0 units)
  | none, _ => .error .wrongKind

end SizeText

/-! ### The command -/

namespace CommandLine

/-- What the command is asked to do. -/
structure Call where
  /-- Whether all that the decoder reports is shown, and not only warnings. -/
  verbose : Bool := false
  /-- Whether unknown action codes are refused. -/
  strict : Bool := false
  /-- Whether a hex dump comes first. -/
  hexDump : Bool := false
  file : Text := []
  offset : Int := 0
  deriving DecidableEq, Repr

/-- Why the arguments of the command make no call. -/
inductive UsageError where
  | unknownOption (option : Text)
  | wrongCount
  | badOffset (offset : Text)
  deriving DecidableEq, Repr

/-- The wording of an error. -/
def UsageError.message : UsageError → Text
  | unknownOption option => "unknown option " ++ option
  | wrongCount => "expected a filename and an optional offset"
  | badOffset offset => "bad offset " ++ Quoted.text offset

/-- The usage of the command. -/
def usage : Text :=
  "\nsa-actiondump [-v] [-s] [-x] filename [offset]\n\n" ++
    "disassemble the raw AVM1 action block stored in filename, starting\n" ++
    "at the given byte offset (0 by default).\n\n" ++
    "  -v  log debugging output\n" ++
    "  -s  fail on unknown action codes\n" ++
    "  -x  print a hex dump of the block first\n"

/-- Reads the arguments after the options. -/
def parseOperands (call : Call) : List Text → Except UsageError Call
  | [file] => .ok { call with file := file }
  | [file, offset] =>
    match Numeral.read? offset with
    | some n => .ok { call with file := file, offset := n }
    | none => .error (.badOffset offset)
  | _ => .error .wrongCount

/-- Reads arguments, given what the options before them say. -/
def parseFrom (call : Call) : List Text → Except UsageError Call
  | [] => parseOperands call []
  | argument :: rest =>
    if argument.head? ≠ some (CodePoint.ofChar '-') then parseOperands call (argument :: rest)
    else if argument = ("-v" : Text) then parseFrom { call with verbose := true } rest
    else if argument = ("-s" : Text) then parseFrom { call with strict := true } rest
    else if argument = ("-x" : Text) then parseFrom { call with hexDump := true } rest
    else .error (.unknownOption argument)

/-- Reads the arguments of the command. -/
def parse (arguments : List Text) : Except UsageError Call := parseFrom {} arguments

/-- What the command leaves behind: its exit status, and what it has written. -/
structure Report where
  status : Nat
  out : Text
  err : Text
  deriving DecidableEq, Repr

/-- Text in lines. -/
def unlines (lines : List Text) : Text := lines.flatMap (· ++ "\n")

/-- The report of an error. -/
def failure (log : List Text) (message : Text) : Report :=
  ⟨2, [], unlines (log ++ ["error: " ++ message, usage])⟩

/-- The data of a file from an offset on. -/
def dataFrom (offset : Int) (data : Bytes) : Except FileError Bytes :=
  if offset < 0 then .error .badOffset else .ok (data.drop offset.toNat)

/-- The log of the decoder. -/
def log (verbose : Bool) (events : List Event) : List Text :=
  (events.filter fun e => verbose || e.isWarning).map Event.logLine

/-- The lines that show a block. -/
def shown (call : Call) (data : Bytes) (actions : List Action) (unknown : Nat) :
    Except Fault (List Text) := do
  let size ← SizeText.text (.int data.length)
  let header := "actions in " ++ Folder.baseName call.file ++ " at offset " ++
    Numeral.int call.offset ++ ", " ++ size.getD "None"
  let dump : List Text ←
    if call.hexDump then (HexDump.lines data call.offset 16).map (· ++ [[]]) else .ok []
  let lines ← listing actions
  let summary := "// " ++ Numeral.nat actions.length ++ " actions, " ++ Numeral.nat unknown ++
    " unknown action codes"
  .ok (header :: dump ++ lines ++ [[], summary])

/-- The report of a call, given the data of its file. -/
def report (call : Call) (file : Except FileError Bytes) : Report :=
  match file.bind (dataFrom call.offset) with
  | .error e => failure [] e.message
  | .ok data =>
    let run := (Decoder.mk .shared call.strict).read (.ofBytes data)
    let log := log call.verbose run.events
    match run.result with
    | .error e => failure log e.message
    | .ok (actions, _) =>
      match shown call data actions run.diagnostics.length with
      | .error fault => failure log fault.message
      | .ok lines => ⟨0, unlines lines, unlines log⟩

/-- Runs the command, given how files are read. -/
def run (read : Text → Except FileError Bytes) (arguments : List Text) : Report :=
  match parse arguments with
  | .error e => failure [] e.message
  | .ok call => report call (read call.file)

end CommandLine

end ActionBlock
