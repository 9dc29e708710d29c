import ActionBlock.Fault

/-!
# Opcode tables

A table lists the actions that are known: for each action code a mnemonic, the usual effect on
the stack, and the layout of the operands. Codes below `0x80` are records of a single byte and
have no operands. Mnemonics are compared without underscores at their end.

A table is open for registration until it is first consulted. Every consultation closes it,
one that finds nothing too, and a closed table never changes again. When a table is closed, a
class is made of each entry: it is named by the mnemonic, and derived from a base with options. A
table with an entry of which no class can be made cannot be closed, and whoever consults it is told
so.
-/

namespace ActionBlock

/-- The first action code whose records have a length and operands. -/
def firstLongCode : Int := 0x80

/-- How the operands of an action are laid out in its record. -/
inductive Layout where
  | plain
  | gotoFrame
  | getUrl
  | storeRegister
  | constantPool
  | strictMode
  | waitForFrame
  | waitForFrame2
  | string
  | getUrl2
  | gotoFrame2
  | push
  | branch
  | defineFunction
  | defineFunction2
  | withObject
  | tryCatch
  deriving DecidableEq, Repr

/-- The names of the bodies that follow a record. -/
def Layout.bodyNames : Layout → List String
  | .defineFunction | .defineFunction2 | .withObject => ["body"]
  | .tryCatch => ["try_body", "catch_body", "finally_body"]
  | _ => []

/-- Why no class can be made of a base and options, however it is named: what is wrong with them is
found out before the name is looked at, or only afterwards. -/
structure Refusal where
  message : Text
  beforeName : Bool
  deriving DecidableEq, Repr

/-- What the class of an entry is made of. The base is the class for a layout, or one of one's own;
what comes of it and of the options is known by what comes of making a class. -/
structure Making where
  ownBase : Bool := false
  refusal? : Option Refusal := none
  deriving DecidableEq, Repr

/-- An entry of an opcode table. -/
structure OpcodeEntry where
  code : Int
  mnemonic : Text
  pops : Int
  pushes : Int
  hasOperands : Bool
  layout : Layout
  making : Making := {}
  deriving DecidableEq, Repr

/-- A mnemonic as tables hold it. -/
def normalMnemonic (mnemonic : Text) : Text := mnemonic.dropTrailing (CodePoint.ofChar '_')

namespace OpcodeEntry

/-- The entry for an action whose class is made of the base for a layout, without options. -/
def make (code : Int) (mnemonic : Text) (pops pushes : Int) (layout : Layout) : OpcodeEntry :=
  { code := code
    mnemonic := normalMnemonic mnemonic
    pops := pops
    pushes := pushes
    hasOperands := firstLongCode ≤ code
    layout := layout }

/-- The entry with its mnemonic and its flag for operands as tables hold them. -/
def normal (e : OpcodeEntry) : OpcodeEntry :=
  { e with mnemonic := normalMnemonic e.mnemonic, hasOperands := firstLongCode ≤ e.code }

/-- Whether the base of an entry is the class of all actions. -/
def hasPlainBase (e : OpcodeEntry) : Bool := e.layout = .plain && !e.making.ownBase

/-- An entry as messages show it. -/
def describe (e : OpcodeEntry) : Text :=
  "<OpcodeDescriptor " ++ e.mnemonic ++ " (" ++ Numeral.code e.code ++ ")>"

end OpcodeEntry

/-- Why a table cannot take or give an entry. -/
inductive OpcodeError where
  /-- The table was consulted before. -/
  | frozen (mnemonic : Text) (code : Int)
  /-- The code is no byte. -/
  | codeNotAByte (code : Int)
  /-- The code is no byte, and has more digits than are shown. -/
  | codeTooLongToShow
  /-- The code has an entry, of the given mnemonic. -/
  | codeTaken (code : Int) (mnemonic : Text)
  /-- The mnemonic has an entry. -/
  | mnemonicTaken (mnemonic : Text)
  /-- The code has no room for operands. -/
  | noRoomForOperands (code : Int)
  /-- The code has no entry. -/
  | unknownCode (code : Int)
  /-- The mnemonic has no entry. -/
  | unknownMnemonic (mnemonic : Text)
  /-- No class was made under the mnemonic. -/
  | noClass (mnemonic : Text)
  /-- A class cannot be named by a mnemonic with a NUL. -/
  | nulInName
  /-- A class cannot be named by a mnemonic with surrogates. -/
  | unencodableName (run : Utf8.Unencodable)
  /-- No class can be made of the base and the options of an entry. -/
  | refused (refusal : Refusal)
  deriving DecidableEq, Repr

namespace OpcodeError

/-- The wording of an error. -/
def message : OpcodeError → Text
  | frozen mnemonic code =>
    "cannot register " ++ Quoted.text mnemonic ++ ", the opcode table is frozen (opcode=" ++
      Numeral.code code ++ ")"
  | codeNotAByte code => "action code " ++ Numeral.int code ++ " does not fit in a byte"
  | codeTooLongToShow => Fault.tooLongToShow.message
  | codeTaken code mnemonic =>
    "action code " ++ Numeral.code code ++ " is already registered as " ++ Quoted.text mnemonic
  | mnemonicTaken mnemonic => "mnemonic " ++ Quoted.text mnemonic ++ " is already registered"
  | noRoomForOperands code =>
    "action code " ++ Numeral.code code ++ " is below " ++ Numeral.code firstLongCode ++
      " and cannot carry operands"
  | unknownCode code => "unknown action code (opcode=" ++ Numeral.code code ++ ")"
  | unknownMnemonic mnemonic => "unknown mnemonic " ++ Quoted.text mnemonic
  | noClass mnemonic => Quoted.text mnemonic
  | nulInName => "type name must not contain null characters"
  | unencodableName run => Fault.unencodableMessage run
  | refused refusal => refusal.message

end OpcodeError

/-- Why a mnemonic cannot name a class, if it cannot. -/
def classNameError? (mnemonic : Text) : Option OpcodeError :=
  match Utf8.surrogates? mnemonic with
  | some run => some (.unencodableName run)
  | none => if mnemonic.contains 0 then some .nulInName else none

/-- Why no class can be made of an entry, if none can. -/
def OpcodeEntry.classError? (e : OpcodeEntry) : Option OpcodeError :=
  let refused := e.making.refusal?.map .refused
  if e.making.refusal?.any Refusal.beforeName then refused
  else (classNameError? e.mnemonic).or refused

/-- What tells tables apart: actions made with different tables are different. -/
inductive TableId where
  | shared
  | own (n : Nat)
  deriving DecidableEq, Repr

/-- A table of actions. -/
structure OpcodeTable where
  id : TableId
  /-- The entries in the order of registration, among which those of codes are found. -/
  entries : List OpcodeEntry
  /-- The entries by their mnemonics. -/
  mnemonics : List (Text × OpcodeEntry)
  /-- The entries of which classes were made, by the names of the classes. -/
  classes : List (Text × OpcodeEntry)
  frozen : Bool
  deriving DecidableEq, Repr

/-- What is done with a table: it gives a value or an error, and leaves a table either way. -/
abbrev TableOp (α : Type) := ExceptT OpcodeError (StateM OpcodeTable) α

namespace OpcodeTable

/-- The table without entries. -/
def empty (id : TableId) : OpcodeTable := ⟨id, [], [], [], false⟩

/-- The entry of a code. -/
def find? (t : OpcodeTable) (code : Int) : Option OpcodeEntry :=
  t.entries.find? (·.code = code)

/-- The entry of a mnemonic. -/
def findMnemonic? (t : OpcodeTable) (mnemonic : Text) : Option OpcodeEntry :=
  t.mnemonics.lookup (normalMnemonic mnemonic)

/-- Whether a code has an entry. -/
def hasCode (t : OpcodeTable) (code : Int) : Bool := (t.find? code).isSome

/-- Whether a mnemonic has an entry. -/
def hasMnemonic (t : OpcodeTable) (mnemonic : Text) : Bool := (t.findMnemonic? mnemonic).isSome

/-- The number of entries. -/
def size (t : OpcodeTable) : Nat := t.entries.length

/-- The entries in the order of their codes. -/
def toList (t : OpcodeTable) : List OpcodeEntry :=
  t.entries.mergeSort fun a b => a.code ≤ b.code

/-- Entries by their mnemonics. -/
def keyed (entries : List OpcodeEntry) : List (Text × OpcodeEntry) :=
  entries.map fun e => (e.mnemonic, e)

/-- Adds an entry. -/
def register (entry : OpcodeEntry) : TableOp OpcodeEntry := do
  let t ← get
  if t.frozen then throw (.frozen entry.mnemonic entry.code)
  else if ¬ (0 ≤ entry.code ∧ entry.code ≤ 255) then
    throw (if Numeral.isShown entry.code then .codeNotAByte entry.code else .codeTooLongToShow)
  else
    let entry := entry.normal
    match t.find? entry.code with
    | some other => throw (.codeTaken entry.code other.mnemonic)
    | none =>
      if (t.mnemonics.lookup entry.mnemonic).isSome then throw (.mnemonicTaken entry.mnemonic)
      else if ¬ entry.hasOperands ∧ ¬ entry.hasPlainBase then
        throw (.noRoomForOperands entry.code)
      else
        modify fun t => { t with entries := t.entries ++ [entry] }
        modify fun t => { t with mnemonics := t.mnemonics ++ [(entry.mnemonic, entry)] }
        return entry

/-- Closes the table, and makes the classes of its entries up to the first that has none. -/
def freeze : TableOp Unit := do
  let t ← get
  if t.frozen then return ()
  else
    let made := t.entries.takeWhile fun e => e.classError?.isNone
    modify fun t => { t with classes := keyed made }
    match t.entries.findSome? OpcodeEntry.classError? with
    | some e => throw e
    | none => modify fun t => { t with frozen := true }

/-- Consults the table for a code. -/
def lookup (code : Int) : TableOp OpcodeEntry := do
  freeze
  let t ← get
  match t.find? code with
  | some entry => return entry
  | none => throw (.unknownCode code)

/-- Consults the table for a mnemonic. -/
def lookupMnemonic (mnemonic : Text) : TableOp OpcodeEntry := do
  freeze
  let t ← get
  match t.findMnemonic? mnemonic with
  | some entry => return entry
  | none => throw (.unknownMnemonic (normalMnemonic mnemonic))

/-- Consults the table for the class of an entry, by its mnemonic as it is. -/
def instructionClass (entry : OpcodeEntry) : TableOp OpcodeEntry := do
  freeze
  let t ← get
  match t.classes.lookup entry.mnemonic with
  | some entry => return entry
  | none => throw (.noClass entry.mnemonic)

/-- Consults the table for the class of a mnemonic. -/
def getInstruction (mnemonic : Text) : TableOp OpcodeEntry := do
  let entry ← lookupMnemonic mnemonic
  instructionClass entry

end OpcodeTable

end ActionBlock
