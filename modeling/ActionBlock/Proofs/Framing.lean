import ActionBlock.Opcode.Standard
import ActionBlock.Proofs.Scanning

/-!
# The two ways in which a block ends

A block ends at a code zero, or after a given number of bytes. A code zero in a block of the second
kind is an action without an entry, since the standard table has none for it. Apart from these
actions the two kinds of block are the same: bytes that make a block when a code zero follows make
one of their number, with the same actions, and the other way round.
-/

namespace ActionBlock

open BitStream

namespace Decoder

variable {d : Decoder} {offset : Nat}

/-! ### Codes zero -/

/-- A record begins with the code it is decoded by. -/
theorem RecordAt.exists_head {record : Bytes} {frame : Frame} (h : d.RecordAt offset record frame) :
  ∃ code operands, record.head? = some code ∧ d.record offset code.toNat operands = .ok frame
  := by
  cases h with
  | short _ hframe => exact ⟨_, _, rfl, hframe⟩
  | long _ _ hframe => exact ⟨_, _, rfl, hframe⟩

/-- If the table does not list zero, a record begins with a code zero if and only if it is the
record of an action of this code that has no entry. -/
theorem RecordAt.head?_eq_zero_iff (htable : d.table.find? 0 = none) {record : Bytes}
    {frame : Frame} (h : d.RecordAt offset record frame) :
  record.head? = some 0 ↔ frame.record.kind = .unlisted 0
  := by
  obtain ⟨code, operands, hhead, hframe⟩ := h.exists_head
  rw [hhead, Option.some.injEq]
  obtain ⟨-, -, rfl⟩ | ⟨entry, _, _, _, hentry, -, rfl⟩ := record_eq_ok_iff.mp hframe
  · have hzero : code = 0 ↔ (code.toNat : Int) = 0 := by
      rw [Int.natCast_eq_zero, ← UInt8.toNat_inj]
      rfl
    simp [Frame.unlisted, hzero]
  · have hcode : code ≠ 0 := by
      rintro rfl
      cases htable.symm.trans hentry
    simp [Frame.listed, hcode]

/-- A block that ends at a code zero is a block of its number of bytes without actions of this code.
-/
theorem blockAt_outermost_iff (htable : d.table.find? 0 = none) {bytes : Bytes}
    {placed : List Placed} :
  d.BlockAt true offset bytes placed
    ↔ d.BlockAt false offset bytes placed
      ∧ ∀ p ∈ placed, p.action.record.kind ≠ .unlisted 0
  := by
  constructor
  · intro h
    generalize houtermost : true = outermost at h
    induction h using BlockAt.induct with
    | nil => exact ⟨.nil, by simp⟩
    | cons hrecord hcode hbodies hrest ih =>
      subst houtermost
      obtain ⟨hblock, hkinds⟩ := ih rfl
      refine ⟨.cons hrecord (by simp) hbodies hblock, List.forall_mem_cons.mpr ⟨?_, hkinds⟩⟩
      intro hkind
      exact hcode rfl ((hrecord.head?_eq_zero_iff htable).mpr hkind)
  · rintro ⟨h, hkinds⟩
    generalize false = outermost at h
    induction h using BlockAt.induct with
    | nil => exact .nil
    | cons hrecord hcode hbodies hrest ih =>
      obtain ⟨hkind, hkinds⟩ := List.forall_mem_cons.mp hkinds
      refine .cons hrecord ?_ hbodies (ih hkinds)
      intro _ hhead
      exact hkind ((hrecord.head?_eq_zero_iff htable).mp hhead)

/-! ### Reading -/

/-- Bytes with a code zero after them are read to their end if and only if they are a block. -/
theorem read_concat_zero_iff {bytes : Bytes} {actions : List Action} :
  (d.read (.ofBytes (bytes ++ [0]))).result = .ok (actions, 8 * (bytes.length + 1))
    ↔ ∃ placed, d.BlockAt true 0 bytes placed ∧ resolve placed bytes.length = .ok actions
  := by
  rw [read_ofBytes_eq_ok_iff]
  constructor
  · rintro ⟨front, tail, placed, hsplit, hblock, hresolve, hcursor⟩
    obtain ⟨rfl, -⟩ := List.append_inj hsplit (by omega)
    exact ⟨placed, hblock, hresolve⟩
  · rintro ⟨placed, hblock, hresolve⟩
    exact ⟨bytes, [], placed, rfl, hblock, hresolve, rfl⟩

/-- Bytes are read as a body of their number if and only if they are a block. -/
theorem scanBlock_ofBytes_iff {bytes : Bytes} {actions : List Action} :
  (∃ cursor, (d.scanBlock (.ofBytes bytes) (some bytes.length)).result = .ok (actions, cursor))
    ↔ ∃ placed, d.BlockAt false 0 bytes placed ∧ resolve placed bytes.length = .ok actions
  := by
  have hlimit : ∀ l ∈ some ((0 : Nat) + (bytes.length : Int)), ((0 : Nat) : Int) ≤ l := by simp
  rw [exists_scanBlock_iff (ready_ofBytes bytes), position_ofBytes, pending_ofBytes,
    Option.map_some]
  constructor
  · rintro ⟨next, hnext⟩
    obtain ⟨front, tail, placed, rfl, hblock, hresolve, hend⟩ := (block_eq_ok_iff hlimit).mp hnext
    obtain ⟨hlength, -⟩ := hend.eq_of_limit
    obtain rfl : tail = [] := by
      rw [List.length_append] at hlength
      apply List.eq_nil_of_length_eq_zero
      omega
    rw [List.append_nil]
    rw [Nat.zero_add] at hresolve
    exact ⟨placed, hblock, hresolve⟩
  · rintro ⟨placed, hblock, hresolve⟩
    refine ⟨.plain bytes.length [], ?_⟩
    apply (block_eq_ok_iff hlimit).mpr
    refine ⟨bytes, [], placed, (List.append_nil bytes).symm, hblock, ?_, ?_⟩
    · rwa [Nat.zero_add]
    · rw [Nat.zero_add, Nat.cast_zero, Int.zero_add]
      exact .limit

end Decoder

/-- Resolution does not change the kinds of actions. -/
theorem forall_kind_of_resolve (P : ActionKind → Prop) {placed : List Placed} {stop : Int}
    {actions : List Action} (h : resolve placed stop = .ok actions) :
  (∀ a ∈ actions, P a.record.kind) ↔ ∀ p ∈ placed, P p.action.record.kind
  := by
  have hmap : actions.map (fun a => a.record.kind) = placed.map fun p => p.action.record.kind := by
    rw [map_of_resolve _ h, List.map_map]
    · rfl
    · rintro t ⟨⟩
      rfl
  rw [← List.forall_mem_map, hmap, List.forall_mem_map]

/-! ### The theorem -/

theorem find?_zero_shared :
  OpcodeTable.shared.find? 0 = none
  := by
  decide +kernel

/-- Bytes with a code zero after them are read as a block that takes all of them if and only if they
are read as a body of their number in which no action of code zero, which has no entry, stands
outside the bodies of the others. The actions are then the same, with their offsets, displacements,
targets and bodies. -/
theorem framings_agree (bytes : Bytes) (actions : List Action) :
  (Decoder.read ⟨.shared, false⟩ (.ofBytes (bytes ++ [0]))).result
      = .ok (actions, 8 * (bytes.length + 1))
    ↔ (∃ cursor, (Decoder.scanBlock ⟨.shared, false⟩ (.ofBytes bytes) (some bytes.length)).result
        = .ok (actions, cursor))
      ∧ ∀ a ∈ actions, a.record.kind ≠ .unlisted 0
  := by
  rw [Decoder.read_concat_zero_iff, Decoder.scanBlock_ofBytes_iff]
  constructor
  · rintro ⟨placed, hblock, hresolve⟩
    obtain ⟨hinner, hplaced⟩ := (Decoder.blockAt_outermost_iff find?_zero_shared).mp hblock
    exact ⟨⟨placed, hinner, hresolve⟩,
      (forall_kind_of_resolve (· ≠ .unlisted 0) hresolve).mpr hplaced⟩
  · rintro ⟨⟨placed, hinner, hresolve⟩, hactions⟩
    refine ⟨placed, ?_, hresolve⟩
    apply (Decoder.blockAt_outermost_iff find?_zero_shared).mpr
    exact ⟨hinner, (forall_kind_of_resolve (· ≠ .unlisted 0) hresolve).mp hactions⟩

end ActionBlock
