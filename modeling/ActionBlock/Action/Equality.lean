import ActionBlock.Action.Basic

/-!
# Equality of actions

Two actions are equal if they are made from the same entry of the same table, their codes,
their operands and the bytes after them are equal, and so are their bodies. Names and derived
fields do not count. Operands are compared as values, and an action is always equal to itself:
one that holds a NaN is equal to no other, but two occurrences of it are equal.

Blocks of different lengths differ. Otherwise their actions are compared in order, up to the first
that differ or cannot be compared.
-/

namespace ActionBlock

/-- Equality of flags. -/
def FunctionFlags.same (f g : FunctionFlags) : Bool := Value.sameAll f.toList g.toList

namespace Operands

/-- Equality of operands, numbers by their value. -/
def same : Operands → Operands → Bool
  | plain, plain => true
  | payload a, payload b => a.same b
  | gotoFrame a, gotoFrame b => a.same b
  | getUrl a a', getUrl b b' => a.same b && a'.same b'
  | storeRegister a, storeRegister b => a.same b
  | constantPool as, constantPool bs => as.sameMembers bs
  | strictMode a, strictMode b => a.same b
  | waitForFrame a a', waitForFrame b b' => a.same b && a'.same b'
  | waitForFrame2 a, waitForFrame2 b => a.same b
  | string a, string b => a.same b
  | getUrl2 a₁ a₂ a₃ a₄, getUrl2 b₁ b₂ b₃ b₄ =>
    a₁.same b₁ && a₂.same b₂ && a₃.same b₃ && a₄.same b₄
  | gotoFrame2 a₁ a₂ a₃, gotoFrame2 b₁ b₂ b₃ => a₁.same b₁ && a₂.same b₂ && a₃.same b₃
  | push as, push bs => as.sameMembers bs
  | branch s _, branch t _ => s.same t
  | defineFunction a as, defineFunction b bs => a.same b && as.sameMembers bs
  | defineFunction2 a as m f r, defineFunction2 b bs n g s =>
    a.same b && as.sameMembers bs && m.same n && f.same g && r.same s
  | withObject, withObject => true
  | tryCatch a₁ a₂ a₃ a₄, tryCatch b₁ b₂ b₃ b₄ =>
    a₁.same b₁ && a₂.same b₂ && a₃.same b₃ && a₄.same b₄
  | _, _ => false

end Operands

/-- Equality of kinds. Actions of codes that are in no table are all of one kind. -/
def ActionKind.same : ActionKind → ActionKind → Bool
  | listed table entry, listed table' entry' => table = table' && entry = entry'
  | unlisted _, unlisted _ => true
  | foreign a, foreign b | formless a, formless b => a.same b
  | _, _ => false

/-- Equality of what holds the actions of a body. A list is as good as a block. -/
def BodyForm.same : BodyForm → BodyForm → Bool
  | block, block | block, list | list, block | list, list | tuple, tuple => true
  | other a, other b => a.same b
  | _, _ => false

/-- For each body of two records, whether it is held alike. -/
def Record.sameForms (a b : Record) : List Bool :=
  (List.range a.operands.bodyNames.length).map fun number =>
    (a.form number).same (b.form number)

/-- Equality of operands. Both are taken as values first, which fails where a list is expected
and something else is found. -/
def Operands.compare (a b : Operands) : Except Fault Bool := do
  discard a.toValues
  discard b.toValues
  .ok (a.same b)

mutual

/-- Equality of actions, names and derived fields apart. -/
def Action.same : Action → Action → Except Fault Bool
  | .mk i r as, .mk j s bs =>
    if i.isSome && i = j then .ok true
    else if r.kind.same s.kind && r.code.same s.code then
      match r.operands.compare s.operands with
      | .ok true =>
        match sameBodies (r.sameForms s) as bs with
        | .ok true => .ok (r.trailing.same s.trailing)
        | other => other
      | other => other
    else .ok false

/-- Equality of bodies one by one, given which are held alike. -/
def sameBodies : List Bool → List (List Action) → List (List Action) → Except Fault Bool
  | [], [], [] => .ok true
  | true :: forms, a :: as, b :: bs =>
    if a.length = b.length then
      match sameActions a b with
      | .ok true => sameBodies forms as bs
      | other => other
    else .ok false
  | _, _, _ => .ok false

/-- Equality of lists of actions, one by one. -/
def sameActions : List Action → List Action → Except Fault Bool
  | [], [] => .ok true
  | a :: as, b :: bs =>
    match a.same b with
    | .ok true => sameActions as bs
    | other => other
  | _, _ => .ok false

end

/-- Equality of blocks. -/
def sameBlock (a b : List Action) : Except Fault Bool :=
  if a.length = b.length then sameActions a b else .ok false

end ActionBlock
