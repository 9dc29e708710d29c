import ActionBlock.Block.Encode
import ActionBlock.Proofs.Operands

/-!
# What writing a block produces

The bytes of a block are chunks laid end to end, one for each action, and a chunk is a record
followed by its bodies. The length of a chunk does not depend on the displacement of a branch, so
the starts that the first writing finds are the starts of the final chunks. Hence a block can be
written if and only if there are chunks, each of which is the record of its action with the
distances that follow from the chunks themselves.
-/

namespace ActionBlock

/-! ### Records -/

/-- A code that can be written is an integer, and a byte. -/
theorem Value.codeByte_eq_ok_iff {v : Value} {b : UInt8} :
  v.codeByte = .ok b ↔ v.whole? = some (b.toNat : Int)
  := by
  have hb := b.toNat_lt
  have hbyte : ∀ n : Int, (if 0 ≤ n ∧ n ≤ 255 then .ok (UInt8.ofNat n.toNat)
      else if -2 ^ 63 ≤ n ∧ n < 2 ^ 63 then .error .codeNotAByte
      else .error .codeOutOfRange : Except Fault UInt8) = .ok b
        ↔ some n = some (b.toNat : Int) := by
    intro n
    split
    · rename_i hrange
      rw [Except.ok.injEq, ← UInt8.toNat_inj, Bytes.toNat_ofNat (by omega), Option.some.injEq]
      omega
    · rename_i hrange
      rw [Option.some.injEq]
      constructor
      · intro h
        split at h <;> cases h
      · intro h
        omega
  obtain ⟨_ | t | n | _ | _ | _⟩ | _ := v
  · simp [codeByte, whole?, Scalar.whole?]
  · apply hbyte
  · apply hbyte
  all_goals simp [codeByte, whole?, Scalar.whole?]

theorem Value.codeByte_int_eq_ok_iff {n : Int} {b : UInt8} :
  Value.codeByte (.int n) = .ok b ↔ n = b.toNat
  := by
  rw [codeByte_eq_ok_iff]
  apply Option.some_inj

/-- Integers are compared as such. -/
theorem Scalar.compareInt_of_whole {s : Scalar} {t : Int} (h : s.whole? = some t) (n : Int) :
  s.compareInt n = .ok (some (compare t n))
  := by
  cases s with
  | bool b => rw [← Option.some.inj h, compareInt]
  | int m => rw [← Option.some.inj h, compareInt]
  | _ => cases h

namespace Record

/-- A record is long from the first long code on. -/
theorem isLong_of_whole {r : Record} {n : Int} (h : r.code.whole? = some n) :
  r.isLong = .ok (decide (firstLongCode ≤ n))
  := by
  have hne : (compare n firstLongCode ≠ .lt) ↔ firstLongCode ≤ n := by
    rw [ne_eq, compare_lt_iff_lt, not_lt]
  cases hcode : r.code with
  | scalar s =>
    rw [hcode] at h
    simp only [isLong, hcode, Value.compareInt, Scalar.compareInt_of_whole h, Except.map,
      Option.any_some, decide_eq_decide.mpr hne]
  | _ =>
    rw [hcode] at h
    cases h

theorem isLong_of_code {r : Record} {n : Int} (h : r.code = .int n) :
  r.isLong = .ok (decide (firstLongCode ≤ n))
  := by
  apply isLong_of_whole
  rw [h]
  rfl

/-- The record of a long code is the code, the length of the operands, and the operands. -/
theorem header_eq_ok_iff {r : Record} {sizes : List Nat} {bytes : Bytes} :
  r.header sizes = .ok bytes
    ↔ ∃ operands code, r.operandBytes sizes = .ok operands
      ∧ operands.length < 2 ^ 16 ∧ r.code.codeByte = .ok code
      ∧ bytes = code :: (Bytes.littleEndian 2 operands.length ++ operands)
  := by
  simp only [header, bind_eq_ok_iff]
  constructor
  · rintro ⟨operands, hoperands, h⟩
    split at h
    · cases h
    · rename_i hlen
      obtain ⟨code, hcode, hbytes⟩ := bind_eq_ok_iff.mp h
      refine ⟨operands, code, hoperands, ?_, hcode, (Except.ok.inj hbytes).symm⟩
      rw [longestOperands] at hlen
      omega
  · rintro ⟨operands, code, hoperands, hlen, hcode, rfl⟩
    refine ⟨operands, hoperands, ?_⟩
    rw [if_neg (by rw [longestOperands]; omega), bind_eq_ok_iff]
    exact ⟨code, hcode, rfl⟩

/-- A long record is followed by its bodies, whose sizes are among the operands. -/
theorem serializeLong_eq_ok_iff {r : Record} {bodies : List Bytes} {bytes : Bytes} :
  r.serializeLong bodies = .ok bytes
    ↔ ∃ operands code, r.operandBytes (bodies.map List.length) = .ok operands
      ∧ operands.length < 2 ^ 16 ∧ r.code.codeByte = .ok code
      ∧ bytes = code :: (Bytes.littleEndian 2 operands.length ++ operands ++ bodies.flatten)
  := by
  simp only [serializeLong, map_eq_ok_iff, header_eq_ok_iff]
  constructor
  · rintro ⟨_, ⟨operands, code, hoperands, hlen, hcode, rfl⟩, rfl⟩
    exact ⟨operands, code, hoperands, hlen, hcode, rfl⟩
  · rintro ⟨operands, code, hoperands, hlen, hcode, rfl⟩
    exact ⟨_, ⟨operands, code, hoperands, hlen, hcode, rfl⟩, rfl⟩

/-- A record is its code, or its code, the length of its operands, its operands and its bodies. -/
theorem serialize_eq_ok_iff {r : Record} {bodies : List Bytes} {bytes : Bytes} :
  r.serialize bodies = .ok bytes
    ↔ r.kind.misuse? "jumplike" = none
      ∧ (r.isLong = .ok false ∧ (∃ code, r.code.codeByte = .ok code ∧ bytes = [code])
        ∨ r.isLong = .ok true ∧ r.serializeLong bodies = .ok bytes)
  := by
  rw [serialize]
  split
  · rename_i fault hfault
    simp [hfault]
  · rename_i hfault
    simp only [hfault, true_and, bind_eq_ok_iff]
    constructor
    · rintro ⟨long, hlong, h⟩
      cases long with
      | false =>
        obtain ⟨code, hcode, hbytes⟩ := bind_eq_ok_iff.mp h
        exact .inl ⟨hlong, code, hcode, (Except.ok.inj hbytes).symm⟩
      | true => exact .inr ⟨hlong, h⟩
    · rintro (⟨hlong, code, hcode, rfl⟩ | ⟨hlong, h⟩)
      · exact ⟨false, hlong, bind_eq_ok_iff.mpr ⟨code, hcode, rfl⟩⟩
      · exact ⟨true, hlong, h⟩

end Record

/-! ### Displacements -/

namespace Operands

/-- Of two displacements the last one stays. -/
theorem withDisplacement_withDisplacement (o : Operands) (c d : Int) :
  (o.withDisplacement c).withDisplacement d = o.withDisplacement d
  := by
  cases o <;> rfl

/-- Only a branch has a displacement to set. -/
theorem withDisplacement_of_not_branch {o : Operands} (h : o.isBranch = false) (d : Int) :
  o.withDisplacement d = o
  := by
  cases o <;> first | rfl | cases h

theorem exists_branch_of_isBranch {o : Operands} (h : o.isBranch = true) :
  ∃ target displacement, o = .branch target displacement
  := by
  cases o with
  | branch target displacement => exact ⟨target, displacement, rfl⟩
  | _ => cases h

/-- What is a branch with a displacement was one before, to the same target. -/
theorem eq_branch_of_withDisplacement {o : Operands} {d : Int}
    {target displacement : Value} (h : o.withDisplacement d = .branch target displacement) :
  ∃ old, o = .branch target old ∧ displacement = .int d
  := by
  cases o with
  | branch target' old =>
    obtain ⟨rfl, rfl⟩ := branch.inj h
    exact ⟨old, rfl, rfl⟩
  | _ => cases h

/-- The displacement of a branch does not change the number of bytes. -/
theorem exists_wire_withDisplacement {o : Operands} {ns : List Nat} {bytes : Bytes} {d : Int}
    {bits : Nat} (h : o.wire ns = .ok bytes) (hd : Scalar.fitInt 16 true d = .ok bits) :
  ∃ out, (o.withDisplacement d).wire ns = .ok out ∧ out.length = bytes.length
  := by
  cases hbranch : o.isBranch with
  | false => exact ⟨bytes, by rw [withDisplacement_of_not_branch hbranch, h], rfl⟩
  | true =>
    cases o with
    | branch target old =>
      obtain ⟨front, back, hfront, hns, hback, rfl⟩ := wire_eq_ok_iff.mp h
      obtain ⟨old, -, rfl⟩ := map_eq_ok_iff.mp hfront
      refine ⟨_, wire_eq_ok_iff.mpr ⟨Bytes.littleEndian 2 bits, back, ?_, hns, hback, rfl⟩, ?_⟩
      · exact map_eq_ok_iff.mpr ⟨bits, hd, rfl⟩
      · simp
    | _ => cases hbranch

/-- A displacement has no bearing on the bodies. -/
theorem bodyNames_withDisplacement (o : Operands) (d : Int) :
  (o.withDisplacement d).bodyNames = o.bodyNames
  := by
  cases o <;> rfl

/-- A target has no bearing on the bodies. -/
theorem bodyNames_withTarget (o : Operands) (t : Value) :
  (o.withTarget t).bodyNames = o.bodyNames
  := by
  cases o <;> rfl

/-- A branch that was given a target has it. -/
theorem target_of_withTarget {o : Operands} {t target old : Value}
    (h : o.withTarget t = .branch target old) :
  target = t
  := by
  cases o with
  | branch => exact (branch.inj h).1.symm
  | _ => cases h

/-- A displacement that is written fits. -/
theorem displacement_range {o : Operands} {ns : List Nat} {bytes : Bytes} {d : Int}
    (h : o.wire ns = .ok bytes) (hd : o.displacement? = some d) :
  displacementRange.1 ≤ d ∧ d ≤ displacementRange.2
  := by
  cases o with
  | branch target old =>
    obtain ⟨front, back, hfront, -, -, -⟩ := wire_eq_ok_iff.mp h
    obtain ⟨bits, hbits, -⟩ := map_eq_ok_iff.mp hfront
    rw [Value.fit_of_whole hd] at hbits
    obtain ⟨hlow, hhigh, -⟩ := Scalar.fitInt_eq_ok_iff.mp hbits
    exact ⟨hlow, hhigh⟩
  | _ => cases hd

end Operands

namespace Record

theorem withDisplacement_withDisplacement (r : Record) (c d : Int) :
  (r.withDisplacement c).withDisplacement d = r.withDisplacement d
  := by
  simp only [withDisplacement, Operands.withDisplacement_withDisplacement]

theorem withDisplacement_of_not_branch {r : Record} (h : r.operands.isBranch = false) (d : Int) :
  r.withDisplacement d = r
  := by
  simp only [withDisplacement, Operands.withDisplacement_of_not_branch h]

/-- Targets and displacements are set independently. -/
theorem withDisplacement_withTarget (r : Record) (t : Value) (d : Int) :
  (r.withTarget t).withDisplacement d = (r.withDisplacement d).withTarget t
  := by
  obtain ⟨kind, operands, code, name, trailing, offset, sizes, forms⟩ := r
  cases operands <;> rfl

/-- Setting the displacement that a branch has changes nothing. -/
theorem serialize_withDisplacement_self {r : Record} {d : Int} (bodies : List Bytes)
    (h : r.operands.displacement? = some d) :
  (r.withDisplacement d).serialize bodies = r.serialize bodies
  := by
  obtain ⟨kind, operands, code, name, trailing, offset, sizes, forms⟩ := r
  cases operands with
  | branch target old =>
    obtain ⟨s⟩ | _ := old
    · obtain _ | b | n | _ | _ | _ := s
      all_goals first | cases h; rfl | cases h
    all_goals cases h
  | _ => cases h

/-- The target of a branch is not written. -/
theorem serialize_withTarget (r : Record) (t : Value) (bodies : List Bytes) :
  (r.withTarget t).serialize bodies = r.serialize bodies
  := by
  obtain ⟨kind, operands, code, name, trailing, offset, sizes, forms⟩ := r
  cases operands <;> rfl

/-- A record has as many bytes with one displacement as with another. -/
theorem exists_serialize_withDisplacement {r : Record} {bodies : List Bytes} {bytes : Bytes}
    {d : Int} {bits : Nat} (h : r.serialize bodies = .ok bytes)
    (hd : Scalar.fitInt 16 true d = .ok bits) :
  ∃ out, (r.withDisplacement d).serialize bodies = .ok out ∧ out.length = bytes.length
  := by
  obtain ⟨hkind, ⟨hlong, code, hcode, rfl⟩ | ⟨hlong, h⟩⟩ := serialize_eq_ok_iff.mp h
  · exact ⟨[code], serialize_eq_ok_iff.mpr ⟨hkind, .inl ⟨hlong, code, hcode, rfl⟩⟩, rfl⟩
  · obtain ⟨operands, code, hoperands, hlen, hcode, rfl⟩ := serializeLong_eq_ok_iff.mp h
    obtain ⟨w, t, hw, ht, rfl⟩ := operandBytes_eq_ok_iff.mp hoperands
    obtain ⟨w', hw', hlen'⟩ := Operands.exists_wire_withDisplacement hw hd
    have hbytes : (r.withDisplacement d).operandBytes (bodies.map List.length) = .ok (w' ++ t) :=
      operandBytes_eq_ok_iff.mpr ⟨w', t, hw', ht, rfl⟩
    have hlong' := serializeLong_eq_ok_iff.mpr
      ⟨w' ++ t, code, hbytes, by simpa [hlen'] using hlen, hcode, rfl⟩
    refine ⟨_, serialize_eq_ok_iff.mpr ⟨hkind, .inr ⟨hlong, hlong'⟩⟩, ?_⟩
    simp [hlen']

end Record

/-! ### Where chunks start -/

/-- The starts of chunks, after those done already: each is the length of the chunks before it. -/
theorem startsFrom_eq (chunks : List Bytes) (offset : Nat) (done : List Nat) :
  startsFrom chunks offset done
    = done.reverse ++ (List.range (chunks.length + 1)).map
      fun i => offset + (chunks.take i).flatten.length
  := by
  induction chunks generalizing offset done with
  | nil => simp [startsFrom]
  | cons chunk chunks ih =>
    rw [startsFrom, ih, List.length_cons, List.range_succ_eq_map (n := chunks.length + 1)]
    simp [Function.comp_def, add_assoc]

theorem size_starts (chunks : List Bytes) :
  (starts chunks).size = chunks.length + 1
  := by
  simp [starts, startsFrom_eq]

/-- A chunk starts after the chunks before it. -/
theorem starts_getD {chunks : List Bytes} {i : Nat} (h : i ≤ chunks.length) :
  (starts chunks).getD i 0 = (chunks.take i).flatten.length
  := by
  have hi : i < chunks.length + 1 := Nat.lt_succ_of_le h
  simp [starts, startsFrom_eq, Array.getD_eq_getD_getElem?, hi]

/-- Chunks of the same lengths start at the same offsets. -/
theorem starts_congr {chunks chunks' : List Bytes}
    (h : List.Forall₂ (fun x y : Bytes => x.length = y.length) chunks chunks') :
  starts chunks = starts chunks'
  := by
  have hfrom : ∀ offset done, startsFrom chunks offset done = startsFrom chunks' offset done := by
    induction h with
    | nil => exact fun _ _ => rfl
    | cons hlen _ ih =>
      intro offset done
      rw [startsFrom, startsFrom, hlen, ih]
  rw [starts, starts, hfrom]

/-! ### Linking -/

/-- A branch is written if its target is the index of an action, or of the end of the block, and
the distance to it fits. -/
theorem displacement_eq_ok_iff {starts : Array Nat} {index : Nat} {record : Record} {target : Value}
    {d : Int} :
  displacement starts index record target = .ok d
    ↔ ∃ t : Nat, target.whole? = some (t : Int) ∧ t < starts.size ∧ d = distance starts index t
      ∧ displacementRange.1 ≤ d ∧ d ≤ displacementRange.2
  := by
  cases target with
  | scalar s =>
    constructor
    · intro h
      simp only [displacement] at h
      split at h
      · cases h
      split at h
      · rename_i low high hlow hhigh
        split at h
        · cases h
        rename_i hbetween
        split at h
        · cases h
        rename_i t ht
        split at h
        · rename_i hrange
          rw [Scalar.compareInt_of_whole ht, Except.ok.injEq] at hlow hhigh
          subst hlow hhigh
          simp only [Option.all_some, Bool.or_eq_true, decide_eq_true_eq, not_or,
            compare_lt_iff_lt, compare_gt_iff_gt, not_lt] at hbetween
          obtain ⟨n, rfl⟩ := Int.eq_ofNat_of_zero_le hbetween.1
          obtain rfl := Except.ok.inj h
          exact ⟨n, ht, by omega, rfl, hrange⟩
        · cases h
      · cases h
      · cases h
    · rintro ⟨t, ht, hsize, rfl, hrange⟩
      have hnone : s ≠ .none := by
        rintro rfl
        cases ht
      have hbetween : ¬ ((t : Int) < 0 ∨ (starts.size : Int) - 1 < t) := by
        omega
      have hwhole : s.whole? = some (t : Int) := ht
      simp only [displacement, if_neg hnone, Scalar.compareInt_of_whole hwhole, hwhole,
        Option.all_some, Bool.or_eq_true, decide_eq_true_eq, compare_lt_iff_lt, compare_gt_iff_gt,
        if_neg hbetween, Int.toNat_natCast, if_pos hrange]
  | _ => simp [displacement, Value.whole?]

/-- The bytes of a record in a block whose records start at the given offsets. A branch is
written with the distance to its target. -/
def Item.Written (starts : Array Nat) (index : Nat) (item : Item) (chunk : Bytes) : Prop :=
  ∃ d, item.serialize d = .ok chunk
    ∧ ∀ target old, item.record.operands = .branch target old →
      displacement starts index item.record target = .ok d

/-- The bytes of records in a block whose records start at the given offsets, from an index
on. -/
inductive Linked (starts : Array Nat) : Nat → List Item → List Bytes → Prop where
  | nil {index : Nat} : Linked starts index [] []
  | cons {index : Nat} {item : Item} {items : List Item} {chunk : Bytes} {chunks : List Bytes}
      (hitem : item.Written starts index chunk) (hitems : Linked starts (index + 1) items chunks) :
      Linked starts index (item :: items) (chunk :: chunks)

/-- The first pass writes every record without a displacement, after those done already. -/
theorem provisionalFrom_eq_ok_iff {items : List Item} {index offset : Nat}
    {done chunks : List Bytes} :
  provisionalFrom items index offset done = .ok chunks
    ↔ ∃ new, List.Forall₂ (fun item chunk => item.serialize 0 = .ok chunk) items new
      ∧ chunks = done.reverse ++ new
  := by
  induction items generalizing index offset done with
  | nil => simp [provisionalFrom, eq_comm]
  | cons item items ih =>
    rw [provisionalFrom]
    cases hitem : item.serialize 0 with
    | error fault => simp [List.forall₂_cons_left_iff, hitem]
    | ok chunk =>
      simp only [ih, List.forall₂_cons_left_iff, hitem, Except.ok.injEq]
      constructor
      · rintro ⟨new, hnew, rfl⟩
        exact ⟨chunk :: new, ⟨chunk, new, rfl, hnew, rfl⟩, by simp⟩
      · rintro ⟨_, ⟨_, new, rfl, hnew, rfl⟩, rfl⟩
        exact ⟨new, hnew, by simp⟩

/-- A chunk has the length that it had without a displacement. -/
theorem Item.Written.exists_provisional {starts : Array Nat} {index : Nat} {item : Item}
    {chunk : Bytes} (h : item.Written starts index chunk) :
  ∃ first, item.serialize 0 = .ok first ∧ first.length = chunk.length
  := by
  obtain ⟨d, hd, -⟩ := h
  have hzero : Scalar.fitInt 16 true 0 = .ok 0 := rfl
  obtain ⟨first, hfirst, hlen⟩ := Record.exists_serialize_withDisplacement hd hzero
  rw [Record.withDisplacement_withDisplacement] at hfirst
  exact ⟨first, hfirst, hlen⟩

/-- The second pass links the records of a block, after those done already. -/
theorem linkFrom_eq_ok_iff {starts : Array Nat} {items : List Item} {chunks : List Bytes}
    {index : Nat} {done out : List Bytes}
    (h : List.Forall₂ (fun item chunk => item.serialize 0 = .ok chunk) items chunks) :
  linkFrom starts items chunks index done = .ok out
    ↔ ∃ new, Linked starts index items new ∧ out = done.reverse ++ new
  := by
  induction h generalizing index done with
  | nil =>
    simp only [linkFrom, Except.ok.injEq]
    constructor
    · rintro rfl
      exact ⟨[], .nil, by simp⟩
    · rintro ⟨new, hnew, rfl⟩
      cases hnew
      simp
  | @cons item chunk items chunks hitem _ ih =>
    constructor
    · intro h
      rw [linkFrom] at h
      split at h
      · rename_i target old hbranch
        split at h
        · cases h
        rename_i d hd
        split at h
        · cases h
        rename_i chunk' hchunk
        obtain ⟨new, hnew, rfl⟩ := ih.mp h
        refine ⟨chunk' :: new, .cons ⟨d, hchunk, ?_⟩ hnew, by simp⟩
        intro target' old' hbranch'
        rw [hbranch] at hbranch'
        obtain ⟨rfl, -⟩ := Operands.branch.inj hbranch'
        exact hd
      · rename_i hplain
        obtain ⟨new, hnew, rfl⟩ := ih.mp h
        exact ⟨chunk :: new, .cons ⟨0, hitem, fun t o h => absurd h (hplain t o)⟩ hnew, by simp⟩
    · rintro ⟨_, hlinked, rfl⟩
      obtain _ | ⟨⟨d, hd, htarget⟩, hitems⟩ := hlinked
      rw [linkFrom]
      split
      · rename_i target old hbranch
        simp only [htarget _ _ hbranch, hd]
        exact ih.mpr ⟨_, hitems, by simp⟩
      · rename_i hplain
        have hbranch : item.record.operands.isBranch = false := by
          cases hop : item.record.operands with
          | branch target old => exact absurd hop (hplain target old)
          | _ => rfl
        rw [Item.serialize, Record.withDisplacement_of_not_branch hbranch] at hd hitem
        obtain rfl := Except.ok.inj (hitem.symm.trans hd)
        exact ih.mpr ⟨_, hitems, by simp⟩

/-- Linked records have the lengths that they had in the first pass. -/
theorem Linked.forall₂_provisional {starts : Array Nat} {index : Nat} {items : List Item}
    {chunks : List Bytes} (h : Linked starts index items chunks) :
  ∃ first, List.Forall₂ (fun item chunk => item.serialize 0 = .ok chunk) items first
    ∧ List.Forall₂ (fun x y : Bytes => x.length = y.length) first chunks
  := by
  induction h with
  | nil => exact ⟨[], .nil, .nil⟩
  | cons hitem _ ih =>
    obtain ⟨x, hx, hlen⟩ := hitem.exists_provisional
    obtain ⟨first, hfirst, hlens⟩ := ih
    exact ⟨x :: first, .cons hx hfirst, .cons hlen hlens⟩

/-- Records are written as chunks that are linked to where they themselves start. -/
theorem provisional_bind_link_eq_ok_iff {items : List Item} {chunks : List Bytes} :
  provisional items >>= link items = .ok chunks ↔ Linked (starts chunks) 0 items chunks
  := by
  simp only [bind_eq_ok_iff, provisional, provisionalFrom_eq_ok_iff, List.reverse_nil,
    List.nil_append, exists_eq_right', link]
  constructor
  · rintro ⟨first, hfirst, hlink⟩
    obtain ⟨_, hlinked, rfl⟩ := (linkFrom_eq_ok_iff hfirst).mp hlink
    obtain ⟨first', hfirst', hlens⟩ := hlinked.forall₂_provisional
    have hunique : Relator.RightUnique fun (item : Item) chunk => item.serialize 0 = .ok chunk :=
      fun _ _ _ h h' => Except.ok.inj (h.symm.trans h')
    obtain rfl := List.right_unique_forall₂' hunique hfirst hfirst'
    rwa [starts_congr hlens] at hlinked
  · intro hlinked
    obtain ⟨first, hfirst, hlens⟩ := hlinked.forall₂_provisional
    rw [← starts_congr hlens] at hlinked
    exact ⟨first, hfirst, (linkFrom_eq_ok_iff hfirst).mpr ⟨chunks, hlinked, rfl⟩⟩

/-- A block is assembled in two passes. -/
theorem assemble_eq_map (items : List Item) :
  assemble items = (provisional items >>= link items).map List.flatten
  := by
  rw [assemble]
  cases provisional items with
  | error e => rfl
  | ok chunks => rfl

/-- A block is written as the chunks of its records, linked to where they themselves start. -/
theorem assemble_eq_ok_iff {items : List Item} {bytes : Bytes} :
  assemble items = .ok bytes
    ↔ ∃ chunks, Linked (starts chunks) 0 items chunks ∧ bytes = chunks.flatten
  := by
  simp only [assemble_eq_map, map_eq_ok_iff, provisional_bind_link_eq_ok_iff, @eq_comm _ bytes]

/-! ### Blocks -/

theorem encodeBlock_eq_ok_iff {block : List Action} {bytes : Bytes} :
  encodeBlock block = .ok bytes
    ↔ ∃ items, encodeItems block 0 [] = .ok items ∧ assemble items = .ok bytes
  := bind_eq_ok_iff

/-- The first body is written before the others. -/
theorem encodeBodies_cons_eq_ok_iff {body : List Action} {bodies : List (List Action)}
    {done out : List Bytes} :
  encodeBodies (body :: bodies) done = .ok out
    ↔ ∃ bytes, encodeBlock body = .ok bytes ∧ encodeBodies bodies (bytes :: done) = .ok out
  := by
  rw [encodeBodies]
  cases hitems : encodeItems body 0 [] with
  | error e => simp [encodeBlock_eq_ok_iff, hitems]
  | ok items => cases hbytes : assemble items <;> simp [encodeBlock_eq_ok_iff, hitems, hbytes]

/-- The bytes of bodies are those of each. -/
theorem encodeBodies_eq_ok_iff {bodies : List (List Action)} {done out : List Bytes} :
  encodeBodies bodies done = .ok out
    ↔ ∃ new, List.Forall₂ (fun body bytes => encodeBlock body = .ok bytes) bodies new
      ∧ out = done.reverse ++ new
  := by
  induction bodies generalizing done with
  | nil => simp [encodeBodies, eq_comm]
  | cons body bodies ih =>
    simp only [encodeBodies_cons_eq_ok_iff, ih, List.forall₂_cons_left_iff]
    constructor
    · rintro ⟨bytes, hbytes, new, hnew, rfl⟩
      exact ⟨bytes :: new, ⟨bytes, new, hbytes, hnew, rfl⟩, by simp⟩
    · rintro ⟨_, ⟨bytes, new, hbytes, hnew, rfl⟩, rfl⟩
      exact ⟨bytes, hbytes, new, hnew, by simp⟩

/-- The record of an action with the bytes of its bodies. -/
def Action.Itemized (a : Action) (item : Item) : Prop :=
  item.record = a.record
    ∧ List.Forall₂ (fun body bytes => encodeBlock body = .ok bytes) a.bodies item.bodies

/-- The bodies of an item are those of the action, written. -/
theorem Action.Itemized.encodeBodies_eq {a : Action} {item : Item} (h : a.Itemized item) :
  encodeBodies a.bodies [] = .ok item.bodies
  := encodeBodies_eq_ok_iff.mpr ⟨item.bodies, h.2, rfl⟩

/-- The bodies of the first action are written before those of the others. -/
theorem encodeItems_cons_eq_ok_iff {a : Action} {actions : List Action} {index : Nat}
    {done items : List Item} :
  encodeItems (a :: actions) index done = .ok items
    ↔ ∃ item, a.Itemized item ∧ encodeItems actions (index + 1) (item :: done) = .ok items
  := by
  obtain ⟨identity, record, bodies⟩ := a
  rw [encodeItems]
  constructor
  · intro h
    split at h
    · cases h
    · rename_i bytes hbytes
      obtain ⟨_, hbodies, rfl⟩ := encodeBodies_eq_ok_iff.mp hbytes
      exact ⟨⟨record, _⟩, ⟨rfl, hbodies⟩, h⟩
  · rintro ⟨⟨_, bytes⟩, ⟨rfl, hbodies⟩, h⟩
    have hbytes : encodeBodies bodies [] = .ok bytes :=
      encodeBodies_eq_ok_iff.mpr ⟨bytes, hbodies, rfl⟩
    simpa only [hbytes] using h

/-- The items of a block are its actions with their bodies written, after those done already. -/
theorem encodeItems_eq_ok_iff {actions : List Action} {index : Nat} {done items : List Item} :
  encodeItems actions index done = .ok items
    ↔ ∃ new, List.Forall₂ Action.Itemized actions new ∧ items = done.reverse ++ new
  := by
  induction actions generalizing index done with
  | nil => simp [encodeItems, eq_comm]
  | cons a actions ih =>
    simp only [encodeItems_cons_eq_ok_iff, ih, List.forall₂_cons_left_iff]
    constructor
    · rintro ⟨item, hitem, new, hnew, rfl⟩
      exact ⟨item :: new, ⟨item, new, hitem, hnew, rfl⟩, by simp⟩
    · rintro ⟨_, ⟨item, new, hitem, hnew, rfl⟩, rfl⟩
      exact ⟨item, hitem, new, hnew, by simp⟩

/-- A block is written as linked chunks, one for each of its actions, which hold the bytes of the
bodies. -/
theorem encodeBlock_eq_ok_iff_linked {block : List Action} {bytes : Bytes} :
  encodeBlock block = .ok bytes
    ↔ ∃ items chunks, List.Forall₂ Action.Itemized block items
      ∧ Linked (starts chunks) 0 items chunks ∧ bytes = chunks.flatten
  := by
  simp only [encodeBlock_eq_ok_iff, encodeItems_eq_ok_iff, assemble_eq_ok_iff, List.reverse_nil,
    List.nil_append, exists_eq_right']
  constructor
  · rintro ⟨items, hitems, chunks, hlinked, rfl⟩
    exact ⟨items, chunks, hitems, hlinked, rfl⟩
  · rintro ⟨items, chunks, hitems, hlinked, rfl⟩
    exact ⟨items, hitems, chunks, hlinked, rfl⟩

/-- A block is written and ended by a code zero. -/
theorem encode_eq_ok_iff {block : List Action} {bytes : Bytes} :
  encode block = .ok bytes ↔ ∃ body, encodeBlock block = .ok body ∧ bytes = body ++ [0]
  := by
  simp only [encode, map_eq_ok_iff, @eq_comm _ bytes]

/-! ### One action on its own -/

namespace Action

/-- An action on its own is written as its record with the bytes of its bodies. -/
theorem serialize_of_itemized {a : Action} {item : Item} {chunk : Bytes} (hitem : a.Itemized item)
    (h : a.record.serialize item.bodies = .ok chunk) :
  a.serialize = .ok chunk
  := by
  obtain ⟨hkind, ⟨hlong, code, hcode, rfl⟩ | ⟨hlong, hchunk⟩⟩ := Record.serialize_eq_ok_iff.mp h
  · have hshort : a.record.serialize [] = .ok [code] :=
      Record.serialize_eq_ok_iff.mpr ⟨hkind, .inl ⟨hlong, code, hcode, rfl⟩⟩
    rw [serialize, hlong]
    simp only [hshort]
    rfl
  · obtain ⟨operands, code, hoperands, -⟩ := Record.serializeLong_eq_ok_iff.mp hchunk
    obtain ⟨w, t, hwire, -⟩ := Record.operandBytes_eq_ok_iff.mp hoperands
    obtain ⟨front, back, hfields, -⟩ := Operands.wire_eq_ok_iff.mp hwire
    rw [serialize, hlong]
    simp only [hfields, hitem.encodeBodies_eq, h]
    rfl

/-- The size of an action is the number of its bytes. -/
theorem size_of_serialize {a : Action} {bytes : Bytes} (h : a.serialize = .ok bytes) :
  a.size = .ok bytes.length
  := by
  cases hlong : a.record.isLong with
  | error fault => simp [serialize, hlong] at h
  | ok long =>
    cases long with
    | true => simp [size, hlong, h, Except.map]
    | false =>
      simp only [serialize, hlong] at h
      cases hshort : a.record.serialize [] with
      | error fault =>
        rw [hshort] at h
        cases h
      | ok out =>
        rw [hshort] at h
        obtain rfl := Except.ok.inj h
        obtain ⟨-, ⟨-, code, -, rfl⟩ | ⟨htrue, -⟩⟩ := Record.serialize_eq_ok_iff.mp hshort
        · simp [size, hlong]
        · cases hlong.symm.trans htrue

/-- A target is not written. -/
theorem serialize_withTarget (t : Nat) (a : Action) :
  (a.withTarget t).serialize = a.serialize
  := by
  obtain ⟨identity, ⟨kind, operands, code, name, trailing, offset, sizes, forms⟩, bodies⟩ := a
  cases operands <;> rfl

end Action

end ActionBlock
