import ActionBlock.Action.Wire

/-!
# Writing blocks

A block is written from the inside out. The bodies come first, which fixes the sizes that the
records around them declare. Then every record is written with its branch, if it is one, left
without a displacement, which fixes where each record starts. Then the branches are written
again, with the distance to the start of the action that each of them names.

An action that cannot be written is reported with its index, with the offset at which it would
have started in its block, and with the indices of the actions around it.
-/

namespace ActionBlock

/-! ### Errors -/

/-- What about an action does not fit. -/
inductive Misfit where
  /-- An operand, or the record as a whole. -/
  | operand (fault : Fault)
  /-- The distance to the target of a branch. -/
  | distance (bytes : Int)
  deriving DecidableEq, Repr

/-- Why a block cannot be written. -/
inductive EncodeError where
  /-- An action that does not fit its record. -/
  | overflow (misfit : Misfit) (name : Text) (code : Int) (offset index : Nat)
      (enclosing : List Nat)
  /-- A branch without a target in its block. -/
  | noTarget (name : Text) (code : Int) (offset index : Nat) (target : Scalar)
  /-- A value of a kind that its field cannot hold. -/
  | misuse (fault : Fault) (index : Nat)
  deriving DecidableEq, Repr

namespace EncodeError

/-- The index, in its block, of the action that an error concerns. -/
def index : EncodeError → Nat
  | overflow _ _ _ _ index _ | noTarget _ _ _ index _ | misuse _ index => index

/-- The error as the block around the body sees it, in which the body belongs to the action with
the given index. -/
def within (container : Nat) : EncodeError → EncodeError
  | overflow misfit name code offset index enclosing =>
    overflow misfit name code offset index (container :: enclosing)
  | e => e

/-- The indices that lead to the action that an error concerns. -/
def path : EncodeError → List Nat
  | overflow _ _ _ _ index enclosing => enclosing ++ [index]
  | _ => []

/-- The wording of an error. -/
def message (e : EncodeError) : Text :=
  match e with
  | overflow misfit name code offset index _ =>
    let place := name ++ " at index " ++ Numeral.nat index
    let wording : Text := match misfit with
      | .operand fault => "cannot encode " ++ place ++ ": " ++ fault.message
      | .distance bytes => place ++ " is " ++ Numeral.int bytes ++ " bytes away from its target"
    let nested : Text :=
      if e.path.length ≤ 1 then []
      else " in nested action " ++ Text.join "/" (e.path.map Numeral.nat)
    located wording (some code) (some offset) ++ nested
  | noTarget name code offset index _ =>
    located (name ++ " at index " ++ Numeral.nat index ++ " has no valid target") (some code)
      (some offset)
  | misuse fault _ => fault.message

end EncodeError

/-! ### One block -/

/-- A record with the bytes of its bodies. -/
structure Item where
  record : Record
  bodies : List Bytes

/-- The error for a record that cannot be written. -/
def Item.error (item : Item) (index offset : Nat) (fault : Fault) : EncodeError :=
  if fault.isMisuse then .misuse fault index
  else .overflow (.operand fault) item.record.nameText item.record.codeNumber offset index []

/-- The bytes of a record and its bodies, with a displacement if it is a branch. -/
def Item.serialize (item : Item) (displacement : Int) : Except Fault Bytes :=
  (item.record.withDisplacement displacement).serialize item.bodies

/-- Writes records, branches without a displacement, given the index and the offset of the
first; those already written stand in reverse order. -/
def provisionalFrom : List Item → Nat → Nat → List Bytes → Except EncodeError (List Bytes)
  | [], _, _, done => .ok done.reverse
  | item :: items, index, offset, done =>
    match item.serialize 0 with
    | .error fault => .error (item.error index offset fault)
    | .ok chunk => provisionalFrom items (index + 1) (offset + chunk.length) (chunk :: done)

/-- Writes the records of a block, branches without a displacement. -/
def provisional (items : List Item) : Except EncodeError (List Bytes) :=
  provisionalFrom items 0 0 []

/-- Where chunks start that are laid end to end from an offset on, and where the last one ends;
the starts already found stand in reverse order. -/
def startsFrom : List Bytes → Nat → List Nat → List Nat
  | [], offset, done => (offset :: done).reverse
  | chunk :: chunks, offset, done =>
    startsFrom chunks (offset + chunk.length) (offset :: done)

/-- Where the records of a block start, and where the block ends. -/
def starts (chunks : List Bytes) : Array Nat := (startsFrom chunks 0 []).toArray

/-- The least and the greatest displacement of a branch. -/
def displacementRange : Int × Int := (-0x8000, 0x7FFF)

/-- The distance from the end of the record with an index to the start of another. -/
def distance (starts : Array Nat) (index target : Nat) : Int :=
  (starts.getD target 0 : Int) - starts.getD (index + 1) 0

/-- The displacement of a branch with an index and a target, given where records start. The
target has to be a number between zero and the number of actions, and an integer. -/
def displacement (starts : Array Nat) (index : Nat) (record : Record) (target : Value) :
    Except EncodeError Int :=
  let start := starts.getD index 0
  match target with
  | .scalar s =>
    let noTarget := .error (.noTarget record.nameText record.codeNumber start index s)
    if s = .none then noTarget
    else
      match s.compareInt 0, s.compareInt (starts.size - 1) with
      | .ok low, .ok high =>
        if low.all (· = .lt) || high.all (· = .gt) then noTarget
        else
          match s.whole? with
          | none => .error (.misuse .wrongKind index)
          | some t =>
            let d := distance starts index t.toNat
            if displacementRange.1 ≤ d ∧ d ≤ displacementRange.2 then .ok d
            else
              .error (.overflow (.distance d) record.nameText record.codeNumber start index [])
      | .error fault, _ | _, .error fault => .error (.misuse fault index)
  | _ => .error (.misuse .wrongKind index)

/-- Writes branches with their displacements, given the index of the first record; the chunks
already final stand in reverse order. -/
def linkFrom (starts : Array Nat) :
    List Item → List Bytes → Nat → List Bytes → Except EncodeError (List Bytes)
  | item :: items, chunk :: chunks, index, done =>
    match item.record.operands with
    | .branch target _ =>
      match displacement starts index item.record target with
      | .error e => .error e
      | .ok distance =>
        match item.serialize distance with
        | .error fault => .error (item.error index (starts.getD index 0) fault)
        | .ok chunk => linkFrom starts items chunks (index + 1) (chunk :: done)
    | _ => linkFrom starts items chunks (index + 1) (chunk :: done)
  | _, _, _, done => .ok done.reverse

/-- The chunks of the records of a block. -/
def link (items : List Item) (chunks : List Bytes) : Except EncodeError (List Bytes) :=
  linkFrom (starts chunks) items chunks 0 []

/-- The bytes of a block whose bodies are written. -/
def assemble (items : List Item) : Except EncodeError Bytes := do
  let chunks ← provisional items
  let chunks ← link items chunks
  .ok chunks.flatten

/-! ### Blocks with their bodies -/

mutual

/-- Writes the bodies of the actions of a block, given the index of the first; the records whose
bodies are already written stand in reverse order. -/
def encodeItems : List Action → Nat → List Item → Except EncodeError (List Item)
  | [], _, done => .ok done.reverse
  | .mk _ record bodies :: actions, index, done =>
    match encodeBodies bodies [] with
    | .error e => .error (e.within index)
    | .ok bytes => encodeItems actions (index + 1) (⟨record, bytes⟩ :: done)

/-- Writes bodies; those already written stand in reverse order. -/
def encodeBodies : List (List Action) → List Bytes → Except EncodeError (List Bytes)
  | [], done => .ok done.reverse
  | body :: bodies, done =>
    match encodeItems body 0 [] with
    | .error e => .error e
    | .ok items =>
      match assemble items with
      | .error e => .error e
      | .ok bytes => encodeBodies bodies (bytes :: done)

end

/-- The bytes of a block, without a record that ends it. -/
def encodeBlock (block : List Action) : Except EncodeError Bytes := do
  let items ← encodeItems block 0 []
  assemble items

/-- The bytes of an outermost block, with the record that ends it. -/
def encode (block : List Action) : Except EncodeError Bytes :=
  (encodeBlock block).map (· ++ [0])

/-! ### One action on its own -/

/-- Why an action cannot be written on its own. -/
inductive SerializeError where
  /-- A fault of the action itself. -/
  | fault (fault : Fault)
  /-- An error in one of its bodies. -/
  | body (error : EncodeError)
  deriving DecidableEq, Repr

/-- The bytes of an action with its bodies, a branch with the displacement that it has. The
fields before the sizes are written before the bodies. -/
def Action.serialize (a : Action) : Except SerializeError Bytes :=
  match a.record.isLong with
  | .error fault => .error (.fault fault)
  | .ok false => (a.record.serialize []).mapError .fault
  | .ok true =>
    match a.record.operands.fields with
    | .error fault => .error (.fault fault)
    | .ok _ =>
      match encodeBodies a.bodies [] with
      | .error e => .error (.body e)
      | .ok bodies => (a.record.serialize bodies).mapError .fault

/-- The number of bytes of an action with its bodies. -/
def Action.size (a : Action) : Except SerializeError Nat :=
  match a.record.isLong with
  | .error fault => .error (.fault fault)
  | .ok false => .ok 1
  | .ok true => a.serialize.map List.length

end ActionBlock
