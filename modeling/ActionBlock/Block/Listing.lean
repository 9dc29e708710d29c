import ActionBlock.Action.Render

/-!
# Listings

The listing of a block has a line for each action: its index, and the action as text. Bodies
follow their action, indented by a further tab; an action with several bodies has a line with
the name of each body that is not empty before it.

A constant is shown together with the string that it names in the pool in scope: the pool
declared last before it, in its own block or else around it. A pool declared in a body does
not reach beyond the body.
-/

namespace ActionBlock

namespace Listing

/-- The constant of a pool at an index, which counts from the end if it is negative. -/
def constant (pool : List Value) (index : Value) : Except Fault Value :=
  match index.whole? with
  | none => .error .wrongKind
  | some n =>
    let n := if n < 0 then n + pool.length else n
    match (if n < 0 then none else pool[n.toNat]?) with
    | some v => .ok v
    | none => .error .noSuchConstant

/-- The text of a constant that a value names in a pool, after a sign, if the value is below the
number of constants. -/
def constantText (pool value : Value) : Except Fault Text := do
  let constants ← pool.members
  let order ← value.compareInt constants.length
  if order = some .lt then
    let v ← constant constants value
    let t ← v.quoted
    .ok ("=" ++ t)
  else .ok []

/-- A pushed value, with the string that it names in a pool. -/
def valueText (pool : Value) (v : Value) : Except Fault Text := do
  let p ← PushValue.ofValue "text" v
  let t ← p.render
  let named ← if p.type.isConstant then constantText pool p.value else .ok []
  .ok (t ++ named)

/-- An action as text, given the pool in scope. -/
def actionText (pool : Option Value) (r : Record) : Except Fault Text :=
  match pool, r.operands with
  | some pool, .push values => do
    let t ← Operands.listText values (valueText pool)
    let name ← r.name.plain
    .ok (name ++ " " ++ t)
  | _, _ => r.render

/-- The pool in scope after an action. -/
def scope (pool : Option Value) (r : Record) : Option Value :=
  match r.operands with
  | .constantPool constants => if constants.isNone then none else some constants
  | _ => pool

/-- The tabs before a line. -/
def indent (depth : Nat) : Text := List.replicate depth (CodePoint.ofChar '\t')

mutual

/-- Lists actions, given the index of the first; the lines already listed stand in reverse
order. -/
def linesFrom (depth : Nat) :
    List Action → Nat → Option Value → List Text → Except Fault (List Text)
  | [], _, _, done => .ok done
  | .mk _ record bodies :: actions, index, pool, done =>
    let pool := scope pool record
    match actionText pool record with
    | .error fault => .error fault
    | .ok t =>
      let line := indent depth ++ Numeral.nat index ++ "\t" ++ t
      let labels := if bodies.length > 1 then record.operands.bodyNames else []
      match bodyLines depth bodies labels pool (line :: done) with
      | .error fault => .error fault
      | .ok done => linesFrom depth actions (index + 1) pool done

/-- Lists bodies, each after its label if they have labels. -/
def bodyLines (depth : Nat) :
    List (List Action) → List String → Option Value → List Text →
      Except Fault (List Text)
  | [], _, _, done => .ok done
  | body :: bodies, labels, pool, done =>
    let label : List Text := match labels with
      | name :: _ => if body.isEmpty then [] else [indent depth ++ "\t" ++ name ++ ":"]
      | [] => []
    match linesFrom (depth + 1) body 0 pool (label ++ done) with
    | .error fault => .error fault
    | .ok done => bodyLines depth bodies (labels.drop 1) pool done

end

end Listing

/-- The lines of the listing of a block. -/
def listing (block : List Action) : Except Fault (List Text) :=
  (Listing.linesFrom 0 block 0 none []).map List.reverse

end ActionBlock
