import ActionBlock.Block.Encode

/-!
# Displacements left behind

Writing a block sets the displacement of every branch on the way: to zero when the record is
written for the first time, and to the distance to its target when it is written again. A
failure leaves the displacements set until then. The displacements are listed in the order in
which they are set, so that the last one counts for an action that occurs more than once.

The written bodies of an action are held until the block around it is written. If the action also
occurs in a body that is written meanwhile, they are let go of at the end of that body, and are
written anew for the record of the action.
-/

namespace ActionBlock

/-- A displacement set for the action with an identity. -/
structure Setting where
  identity : Nat
  displacement : Int
  deriving DecidableEq, Repr

/-- Whether writing a record comes to the sizes of its bodies. -/
def Record.reachesBodies (r : Record) : Bool :=
  match r.kind.misuse? "jumplike", r.isLong with
  | none, .ok true => r.operands.fields.isOk
  | _, _ => false

/-- What writing has left behind so far: the settings, the last one first, and the identities of
the actions whose written bodies are held. -/
structure Residue where
  settings : List Setting := []
  held : List Nat := []

namespace Residue

/-- Sets the displacement of an action, if it has an identity. -/
def set (left : Residue) (identity : Option Nat) (displacement : Int) : Residue :=
  { left with settings := (identity.map (⟨·, displacement⟩)).toList ++ left.settings }

/-- Holds the bodies of an action, if it has any and has an identity, in place of what was held for
it. -/
def hold (left : Residue) (identity : Option Nat) (bodies : List (List Action)) : Residue :=
  { left with
    held := (if bodies.isEmpty then [] else identity.toList)
      ++ left.held.filter (some · ≠ identity) }

/-- Whether the bodies of an action are held. Those of an action without an identity are, since it
occurs only once. -/
def holds (left : Residue) (identity : Option Nat) : Bool := identity.all left.held.contains

/-- Writes the bodies of an action anew if its record asks for them and they are not held, given
what writing them leaves behind. -/
def renew (left : Residue) (identity : Option Nat) (record : Record)
    (anew : Residue → Residue) : Residue :=
  if record.reachesBodies && !left.holds identity then anew left else left

/-- Lets go of the bodies of the actions of a block. -/
def release (left : Residue) (block : List Action) : Residue :=
  let identities := block.filterMap Action.identity
  { left with held := left.held.filter (!identities.contains ·) }

end Residue

mutual

/-- What writing the bodies of actions leaves behind, up to the first body that cannot be
written. -/
def holdBodies : List Action → Residue → Residue
  | [], left => left
  | .mk identity _ bodies :: actions, left =>
    let left := bodyResidue bodies left
    match encodeBodies bodies [] with
    | .error _ => left
    | .ok _ => holdBodies actions (left.hold identity bodies)

/-- What a first writing of records leaves behind, given the index of the first, and the index of
the record at which it fails, if it does. -/
def firstResidue (failure : Option Nat) : List Action → Nat → Residue → Residue
  | [], _, left => left
  | .mk identity record bodies :: actions, index, left =>
    let left := if record.operands.isBranch then left.set identity 0 else left
    let left := left.renew identity (record.withDisplacement 0) (bodyResidue bodies)
    if failure = some index then left else firstResidue failure actions (index + 1) left

/-- What a second writing of branches leaves behind, given where records start and the index of the
first, up to the first branch that cannot be linked. -/
def secondResidue (starts : Array Nat) : List Action → Nat → Residue → Residue
  | [], _, left => left
  | .mk identity record bodies :: actions, index, left =>
    match record.operands with
    | .branch target _ =>
      match displacement starts index record target with
      | .error _ => left
      | .ok distance =>
        let left := left.set identity distance
        let left := left.renew identity (record.withDisplacement distance) (bodyResidue bodies)
        secondResidue starts actions (index + 1) left
    | _ => secondResidue starts actions (index + 1) left

/-- What writing bodies leaves behind, up to the first that cannot be written. -/
def bodyResidue : List (List Action) → Residue → Residue
  | [], left => left
  | body :: bodies, left =>
    let left := holdBodies body left
    let left :=
      match encodeItems body 0 [] with
      | .error _ => left
      | .ok items =>
        match provisional items with
        | .error e => firstResidue (some e.index) body 0 left
        | .ok chunks => secondResidue (starts chunks) body 0 (firstResidue none body 0 left)
    match encodeBlock body with
    | .error _ => left.release body
    | .ok _ => bodyResidue bodies (left.release body)

end

/-- The settings that writing a block makes, in their order. -/
def settings (block : List Action) : List Setting :=
  (bodyResidue [block] {}).settings.reverse

end ActionBlock
