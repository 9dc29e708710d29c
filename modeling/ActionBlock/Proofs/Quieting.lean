import ActionBlock.Proofs.Fields

/-!
# Where writing changes bytes

The one thing that reading bytes and writing the result changes is a signalling NaN among the
pushed numbers of 32 bits, which becomes quiet. `floatOffsets` says where these numbers stand in
the data that a block was read from, and `Bytes.quieted` sets the quiet bit of each of them that
is a signalling NaN.

`Requieted` is the same for a part of the data, in a form that goes together: two adjacent parts
of the data make one.
-/

namespace ActionBlock

/-! ### The places of pushed numbers -/

/-- The number of 32 bits that stands at an offset. -/
def Single.ofBytesAt (data : Bytes) (offset : Nat) : Single :=
  ⟨UInt32.ofNat (Bytes.ofLittleEndian ((data.drop offset).take 4))⟩

/-- The offsets of the numbers of 32 bits among pushed values that are laid end to end from an
offset on, each after the number of its type. -/
def pushFloatOffsets : List Value → Nat → List Nat
  | [], _ => []
  | v :: vs, offset =>
    let own : List Nat := match v with
      | .pushed _ .float => [offset + 1]
      | _ => []
    own ++ pushFloatOffsets vs (offset + (v.pushBytes.toOption.getD []).length)

/-- The offsets of the numbers of 32 bits among operands that begin at an offset. -/
def Operands.floatOffsets (o : Operands) (offset : Nat) : List Nat :=
  match o with
  | push (.list vs) => pushFloatOffsets vs offset
  | _ => []

/-- The offsets of the numbers of 32 bits that a record pushes, by the offset at which the record
was read. The operands follow the code and the length. -/
def Record.floatOffsets (r : Record) : List Nat :=
  match r.offset with
  | .int offset => r.operands.floatOffsets (offset.toNat + 3)
  | _ => []

mutual

/-- The offsets of the numbers of 32 bits that an action pushes, or the actions in its bodies. -/
def Action.floatOffsets : Action → List Nat
  | .mk _ record bodies => record.floatOffsets ++ bodiesFloatOffsets bodies

/-- The offsets of the numbers of 32 bits that the actions of bodies push. -/
def bodiesFloatOffsets : List (List Action) → List Nat
  | [] => []
  | body :: bodies => blockFloatOffsets body ++ bodiesFloatOffsets bodies

/-- The offsets of the numbers of 32 bits that the actions of a block push. -/
def blockFloatOffsets : List Action → List Nat
  | [] => []
  | a :: actions => a.floatOffsets ++ blockFloatOffsets actions

end

/-! ### Setting the quiet bits -/

/-- The byte at a position, with the quiet bit set if it is the byte with the quiet bit of a
signalling NaN at one of the offsets. The quiet bit is bit 22 of the number. -/
def quietedByte (data : Bytes) (floats : List Nat) (position : Nat) (b : UInt8) : UInt8 :=
  if floats.any fun o => position = o + 2 && (Single.ofBytesAt data o).isSignalling then
    b ||| 0x40
  else b

/-- The data with the quiet bits set of the signalling NaNs at the given offsets. -/
def Bytes.quieted (data : Bytes) (floats : List Nat) : Bytes :=
  data.mapIdx (quietedByte data floats)

/-- The data itself, if there is no signalling NaN at the offsets. -/
theorem Bytes.quieted_eq_self {data : Bytes} {floats : List Nat}
    (h : ∀ o ∈ floats, (Single.ofBytesAt data o).isSignalling = false) :
  data.quieted floats = data
  := by
  have hbyte : quietedByte data floats = fun _ b => b := by
    funext i b
    have hany : ¬ floats.any (fun o => i = o + 2 && (Single.ofBytesAt data o).isSignalling) := by
      simp only [List.any_eq_true, Bool.and_eq_true, not_exists, not_and]
      rintro o ho -
      rw [h o ho]
      decide
    rw [quietedByte, if_neg hany]
  rw [quieted, hbyte]
  simp [List.mapIdx_eq_iff]

/-- The given bytes are those of the data from a start on, with the quiet bits set of the
signalling NaNs at the given offsets, all of which lie in that part of the data. -/
structure Requieted (data : Bytes) (floats : List Nat) (start : Nat) (out : Bytes) : Prop where
  within : ∀ o ∈ floats, start ≤ o ∧ o + 4 ≤ start + out.length
  get : ∀ i < out.length,
    out[i]? = data[start + i]?.map (quietedByte data floats (start + i))

namespace Requieted

variable {data out : Bytes} {floats : List Nat} {start : Nat}

/-- A part of the data without pushed numbers is as it was. -/
theorem raw {front : Bytes} (tail : Bytes) (h : data.drop start = front ++ tail) :
  Requieted data [] start front
  := by
  constructor
  · simp
  · intro i hi
    have hget : data[start + i]? = front[i]? := by
      rw [← List.getElem?_drop, h, List.getElem?_append_left hi]
    rw [hget, List.getElem?_eq_getElem hi]
    rfl

/-- Only the offset two bytes before a position makes a difference to it. -/
theorem quietedByte_congr {floats' : List Nat} {i : Nat} (b : UInt8)
    (h : ∀ o, i = o + 2 → (o ∈ floats ↔ o ∈ floats')) :
  quietedByte data floats i b = quietedByte data floats' i b
  := by
  have hany : floats.any (fun o => i = o + 2 && (Single.ofBytesAt data o).isSignalling)
      = floats'.any (fun o => i = o + 2 && (Single.ofBytesAt data o).isSignalling) := by
    apply Bool.eq_iff_iff.mpr
    simp only [List.any_eq_true, Bool.and_eq_true, decide_eq_true_eq]
    constructor
    · rintro ⟨o, ho, hi, hs⟩
      exact ⟨o, (h o hi).mp ho, hi, hs⟩
    · rintro ⟨o, ho, hi, hs⟩
      exact ⟨o, (h o hi).mpr ho, hi, hs⟩
  simp only [quietedByte, hany]

/-- Two adjacent parts make one. -/
theorem append {floats' : List Nat} {out' : Bytes} (h : Requieted data floats start out)
    (h' : Requieted data floats' (start + out.length) out') :
  Requieted data (floats ++ floats') start (out ++ out')
  := by
  constructor
  · intro o ho
    rw [List.length_append]
    obtain ho | ho := List.mem_append.mp ho
    · have := h.within o ho
      omega
    · have := h'.within o ho
      omega
  · intro i hi
    by_cases hleft : i < out.length
    · rw [List.getElem?_append_left hleft, h.get i hleft]
      congr 1
      funext b
      apply quietedByte_congr
      intro o ho
      have hnot : o ∉ floats' := fun hmem => by
        have := h'.within o hmem
        omega
      simp [hnot]
    · push Not at hleft
      rw [List.length_append] at hi
      rw [List.getElem?_append_right hleft, h'.get _ (by omega),
        show start + out.length + (i - out.length) = start + i by omega]
      congr 1
      funext b
      apply quietedByte_congr
      intro o ho
      have hnot : o ∉ floats := fun hmem => by
        have := h.within o hmem
        omega
      simp [hnot]

/-- A part that begins with the data is a front of the data with its quiet bits set. -/
theorem eq_take (h : Requieted data floats 0 out) :
  out = (data.quieted floats).take out.length
  := by
  apply List.ext_getElem?
  intro i
  by_cases hi : i < out.length
  · rw [h.get i hi, List.getElem?_take_of_lt hi, Bytes.quieted, List.getElem?_mapIdx, zero_add]
  · push Not at hi
    rw [List.getElem?_eq_none hi, List.getElem?_eq_none]
    apply le_trans (List.length_take_le _ _) hi

end Requieted

end ActionBlock
