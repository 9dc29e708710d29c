import ActionBlock.Block.Scan
import ActionBlock.Proofs.Delimiting
import ActionBlock.Proofs.OperandStreams

/-!
# Reading at the cursor and from bytes

A decoder that reads a block with the operations of the stream reads what it reads from the list of
the whole bytes ahead of the cursor, and reports the same on its way, wherever the cursor is.
-/

namespace ActionBlock

open BitStream

/-! ### Inputs -/

namespace Input

variable {s : BitStream}

/-- What is read from a stream are the whole bytes ahead, from the position of the cursor on. -/
theorem ofStream_eq (h : s.Backed) :
  ofStream s = .plain s.position s.pending
  := by
  have hcursor := h.cursor_nonneg
  have harray : ¬ (s.cursor < 0 ∧ s.isAligned = true) := by omega
  rw [ofStream, if_neg harray, h.wholeBytes_eq, ← h.position_eq]
  rfl

/-- Taking bytes that are pending is skipping them on the stream. -/
theorem take?_ofStream (h : s.Ready) {n : Nat} (hn : n ≤ s.pending.length) :
  (ofStream s).take? n = some (s.pending.take n, ofStream (s.skip n))
  := by
  rw [ofStream_eq h.toBacked, ofStream_eq (h.skip hn).toBacked, h.position_skip, h.pending_skip]
  apply Input.take?_eq_some_iff.mpr
  refine ⟨s.pending.drop n, (List.take_append_drop _ _).symm, ?_, ?_⟩
  · rwa [List.length_take, Nat.min_eq_left]
  · rw [plain, Nat.cast_add]

/-- Taking more bytes than are pending fails. -/
theorem take?_ofStream_of_lt (h : s.Ready) {n : Nat} (hn : s.pending.length < n) :
  (ofStream s).take? n = none
  := by
  rw [ofStream_eq h.toBacked]
  apply Input.take?_eq_none_iff.mpr hn

end Input

/-! ### Steps of reading -/

namespace ScanOp

variable {α : Type} {s t : BitStream} {events : List Event}

theorem run_stream :
  stream.run (s, events) = (.ok s, s, events)
  := rfl

theorem run_offset :
  offset.run (s, events) = (.ok (s.cursor / 8), s, events)
  := rfl

theorem run_report (new : List Event) :
  (report new).run (s, events) = (.ok (), s, new ++ events)
  := rfl

/-- A stream operation that succeeds moves the stream and reports nothing. -/
theorem run_perform_of_ok {op : BitOp α} {a : α} (h : op.run s = (.ok a, t))
    (error : Fault → BitStream → DecodeError) :
  (perform op error).run (s, events) = (.ok a, t, events)
  := by
  rw [perform, run_bind_of_ok run_get]
  dsimp only
  rw [h]
  rfl

/-- A stream operation that fails is turned into an error of the decoder. -/
theorem run_perform_of_error {op : BitOp α} {fault : Fault} (h : op.run s = (.error fault, t))
    (error : Fault → BitStream → DecodeError) :
  (perform op error).run (s, events) = (.error (error fault t), t, events)
  := by
  rw [perform, run_bind_of_ok run_get]
  dsimp only
  rw [h]
  rfl

end ScanOp

/-- A run of a step of reading from a stream has the outcome of reading from the whole bytes ahead,
and takes the same bytes. -/
inductive Scans {α : Type} (s : BitStream) :
    Except DecodeError α × BitStream × List Event → Outcome (α × Input) → Prop where
  | ok (a : α) {k : Nat} (hk : k ≤ s.pending.length) (events : List Event) :
    Scans s (.ok a, s.skip k, events) (.ok (a, .ofStream (s.skip k)), events)
  | error (e : DecodeError) (t : BitStream) (events : List Event) :
    Scans s (.error e, t, events) (.error e, events)

namespace Scans

variable {α : Type} {s : BitStream} {events : List Event}
  {run : Except DecodeError α × BitStream × List Event}

/-- A scan that agrees with a success has skipped whole bytes. -/
theorem of_ok {a : α} {next : Input} (h : Scans s run (.ok (a, next), events)) :
  ∃ k ≤ s.pending.length, run = (.ok a, s.skip k, events) ∧ next = .ofStream (s.skip k)
  := by
  cases h with
  | ok _ hk _ => exact ⟨_, hk, rfl, rfl⟩

/-- A scan that agrees with a failure fails alike. -/
theorem of_error {e : DecodeError} (h : Scans s run (.error e, events)) :
  ∃ t, run = (.error e, t, events)
  := by
  cases h with
  | error _ t _ => exact ⟨t, rfl⟩

/-- A scan either fails as the outcome does or skips the bytes that the outcome takes. -/
theorem fails_or_reads {outcome : Outcome (α × Input)} (h : Scans s run outcome) :
  (∃ e t events, run = (.error e, t, events) ∧ outcome = (.error e, events))
    ∨ ∃ a events, ∃ k ≤ s.pending.length, run = (.ok a, s.skip k, events)
      ∧ outcome = (.ok (a, .ofStream (s.skip k)), events)
  := by
  cases h with
  | ok a hk events => exact .inr ⟨a, events, _, hk, rfl, rfl⟩
  | error e t events => exact .inl ⟨e, t, events, rfl, rfl⟩

/-- Nothing was taken. -/
theorem stay (a : α) (events : List Event) :
  Scans s (.ok a, s, events) (.ok (a, .ofStream s), events)
  := by
  have h := Scans.ok a (Nat.zero_le s.pending.length) events
  rwa [skip_zero] at h

/-- What is read after whole bytes is read with them. -/
theorem after {outcome : Outcome (α × Input)} {j : Nat} (hs : s.Ready) (hj : j ≤ s.pending.length)
    (h : Scans (s.skip j) run outcome) :
  Scans s run outcome
  := by
  cases h with
  | ok a hk events =>
    rw [skip_skip]
    rw [hs.pending_skip, List.length_drop] at hk
    apply Scans.ok
    omega
  | error e t events => apply Scans.error

end Scans

/-! ### Records -/

section Records

variable {s : BitStream} {limit : Option Int} {offset code : Int} {events : List Event}

/-- A long record without room for its length is truncated there. -/
theorem frameOperands_of_short_length (hs : s.Ready) (hcode : ¬ code < firstLongCode)
    (hroom : s.pending.length < 2 ∨ limit.any (· < (s.position : Int) + 2) = true) :
  frameOperands limit offset code (.ofStream s) = .error (.truncated .length offset (some code))
  := by
  rw [frameOperands, if_neg hcode]
  split
  · rfl
  · rename_i hlimit
    obtain hroom | hroom := hroom
    · rw [Input.take?_ofStream_of_lt hs hroom]
    · rw [Input.ofStream_eq hs.toBacked] at hlimit
      exact absurd hroom hlimit

/-- A long record with room for its length takes as many operands. -/
theorem frameOperands_of_length (hs : s.Ready) (hcode : ¬ code < firstLongCode)
    (hlength : 2 ≤ s.pending.length) (hlimit : ¬ limit.any (· < (s.position : Int) + 2) = true) :
  frameOperands limit offset code (.ofStream s)
    = takeOperands limit offset code (Bytes.ofLittleEndian (s.pending.take 2))
      (.ofStream (s.skip 2))
  := by
  rw [frameOperands, if_neg hcode, if_neg, Input.take?_ofStream hs hlength]
  rwa [Input.ofStream_eq hs.toBacked]

/-- Operands are scanned from a stream as they are taken from its bytes. -/
theorem scans_scanPayload (hs : s.Ready) (hoffset : s.position = offset + 3) (length : Nat) :
  Scans s ((scanPayload limit offset code length).run (s, events))
    ((takeOperands limit offset code length (.ofStream s)).map (Prod.map ofBytes id), events)
  := by
  have hstart : (Input.ofStream s).offset = offset + 3 := by
    rw [Input.ofStream_eq hs.toBacked]
    exact hoffset
  have hrest : (Input.ofStream s).rest.length = s.pending.length := by
    rw [Input.ofStream_eq hs.toBacked]
  rw [scanPayload, takeOperands, hstart, hrest]
  cases limit.filter fun limit => limit < offset + 3 + length with
  | some limit => apply Scans.error
  | none =>
    dsimp only
    by_cases hlength : length ≤ s.pending.length
    · rw [ScanOp.run_perform_of_ok (run_readStream hs hlength) _,
        Input.take?_ofStream hs hlength]
      apply Scans.ok _ hlength
    · rw [not_le] at hlength
      rw [ScanOp.run_perform_of_error ((reads_readStream length).run_short hs hlength) _,
        Input.take?_ofStream_of_lt hs hlength, hs.available_div]
      apply Scans.error

/-- The length and the operands are scanned from a stream as they are read from its bytes. -/
theorem scans_scanOperands (hs : s.Ready) (hoffset : s.position = offset + 1) :
  Scans s ((scanOperands limit offset code).run (s, events))
    ((frameOperands limit offset code (.ofStream s)).map (Prod.map ofBytes id), events)
  := by
  by_cases hcode : code < firstLongCode
  · rw [scanOperands, if_pos hcode, frameOperands, if_pos hcode]
    apply Scans.stay
  rw [scanOperands, if_neg hcode, run_bind_of_ok ScanOp.run_stream]
  have hheader : offset + 3 = (s.position : Int) + 2 := by omega
  have hroom : s.available < 16 ↔ s.pending.length < 2 := hs.available_lt_iff 2
  rw [hheader]
  by_cases hshort : s.pending.length < 2 ∨ limit.any (· < (s.position : Int) + 2) = true
  · rw [if_pos (by simpa [hroom] using hshort), frameOperands_of_short_length hs hcode hshort]
    apply Scans.error
  · rw [if_neg (by simpa [hroom] using hshort)]
    obtain ⟨hlength, hlimit⟩ := not_or.mp hshort
    rw [not_lt] at hlength
    rw [run_bind_of_ok (ScanOp.run_perform_of_ok (run_readLength hs hlength) _),
      frameOperands_of_length hs hcode hlength hlimit]
    apply Scans.after hs hlength
    apply scans_scanPayload (hs.skip hlength)
    rw [hs.position_skip]
    omega

/-- A code without a length after it has no operands. -/
theorem frameOperands_of_short_code {input next : Input} {operands : Bytes}
    (h : frameOperands limit offset code input = .ok (operands, next))
    (hcode : code < firstLongCode) :
  operands = []
  := by
  rw [frameOperands, if_pos hcode] at h
  obtain ⟨rfl, -⟩ := Prod.mk.inj (Except.ok.inj h)
  rfl

/-- An action without an entry can be made of its operands, if a code without a length has none. -/
theorem scanUnlisted_ofBytes {operands : Bytes} (h : code < firstLongCode → operands = []) :
  scanUnlisted offset code (.ofBytes operands) = .ok (.unlisted offset code operands)
  := by
  have hroom : ¬ (compare code firstLongCode = .lt ∧ operands ≠ []) := by
    rintro ⟨hshort, hoperands⟩
    exact hoperands (h (Int.compare_eq_lt.mp hshort))
  simp only [scanUnlisted, serialize_ofBytes, Record.unlisted, Value.compareInt, Scalar.compareInt,
    Value.whole?, Scalar.whole?, Except.bind, bind, Option.some.injEq, if_neg hroom]
  rfl

/-- The record of an entry is made of what its layout reads from the bytes of the operands, and of
what is left of them. -/
theorem scanListed_ofBytes (table : TableId) (entry : OpcodeEntry) (operands : Bytes) :
  scanListed table entry offset code (.ofBytes operands)
    = match entry.layout.read operands with
      | none => .error (.truncated (.field entry.mnemonic) offset (some code))
      | some ((fields, sizes), trailing) =>
        .ok (.listed table entry offset fields sizes trailing)
  := by
  have hwhole := whole_ofBytes operands
  have hscan := entry.layout.follows_scan _ hwhole
  rw [pending_ofBytes] at hscan
  obtain ⟨t, hrun, hread⟩ | ⟨⟨fields, sizes⟩, k, hk, hrun, hread⟩ := hscan.short_or_ok
  · rw [scanListed, hrun, hread]
    rfl
  · obtain ⟨t, htrailing⟩ := run_scanTrailing (hwhole.skip hk)
    rw [hwhole.pending_skip] at htrailing
    rw [scanListed, hrun, hread]
    dsimp only
    rw [htrailing]

end Records

/-- A record is read from the stream of its operands as it is from their bytes. -/
theorem Decoder.scanFrame_ofBytes {d : Decoder} {offset code : Int} {operands : Bytes}
    (h : code < firstLongCode → operands = []) :
  d.scanFrame offset code (.ofBytes operands) = d.record offset code operands
  := by
  rw [scanFrame, record]
  cases d.table.find? code with
  | some entry => exact scanListed_ofBytes d.table.id entry operands
  | none =>
    dsimp only
    rw [scanUnlisted_ofBytes h]

/-- What stands next in a block, as the outcome of looking for it. -/
def Upcoming.outcome : Upcoming → Except DecodeError (Option Frame × Input)
  | finish next => .ok (none, next)
  | record frame next => .ok (some frame, next)
  | failure e => .error e

namespace Decoder

variable {d : Decoder} {s : BitStream} {limit : Option Int} {events : List Event}

/-- A record is scanned from a stream as it is read from its bytes. -/
theorem scans_scanRecord (hs : s.Ready) :
  Scans s ((d.scanRecord limit).run (s, events))
    ((d.upcoming limit (.ofStream s)).outcome, events)
  := by
  have hinput := Input.ofStream_eq hs.toBacked
  have hroom : s.available < 8 ↔ s.pending.length < 1 := hs.available_lt_iff 1
  rw [scanRecord, run_bind_of_ok ScanOp.run_offset, ← hs.position_eq, upcoming, hinput]
  by_cases hend : limit.any (· ≤ (s.position : Int))
  · rw [if_pos hend, if_pos hend, ← hinput]
    apply Scans.stay
  rw [if_neg hend, if_neg hend, run_bind_of_ok ScanOp.run_stream]
  cases hpending : s.pending with
  | nil =>
    rw [if_pos (by simp [hroom, hpending])]
    apply Scans.error
  | cons code rest =>
    rw [if_neg (by simp [hroom, hpending])]
    have hone : 1 ≤ s.pending.length := by
      rw [hpending]
      exact Nat.le_add_left _ _
    have hnext : Input.ofStream (s.skip 1) = ⟨s.position + 1, rest, none⟩ := by
      rw [Input.ofStream_eq (hs.skip hone).toBacked, hs.position_skip, hs.pending_skip, hpending]
      simp
    rw [run_bind_of_ok (ScanOp.run_perform_of_ok (run_readCode hs hpending) _)]
    dsimp only
    rw [← hnext]
    by_cases hzero : (limit.isNone && code = 0) = true
    · rw [if_pos hzero, if_pos hzero]
      apply Scans.ok _ hone
    · rw [if_neg hzero, if_neg hzero]
      have hoperands : Scans (s.skip 1)
          ((scanOperands limit s.position code.toNat).run (s.skip 1, events))
          ((frameOperands limit s.position code.toNat (.ofStream (s.skip 1))).map
            (Prod.map ofBytes id), events) := by
        apply scans_scanOperands (hs.skip hone)
        rw [hs.position_skip, Nat.cast_add, Nat.cast_one]
      cases hframed : frameOperands limit s.position code.toNat (.ofStream (s.skip 1)) with
      | error e =>
        rw [hframed] at hoperands
        obtain ⟨t, hrun⟩ := hoperands.of_error
        rw [run_bind_of_error hrun]
        apply Scans.error
      | ok taken =>
        obtain ⟨operands, next⟩ := taken
        rw [hframed] at hoperands
        obtain ⟨k, hk, hrun, hrest⟩ := hoperands.of_ok
        obtain rfl : next = _ := hrest
        rw [run_bind_of_ok hrun]
        dsimp only
        rw [scanFrame_ofBytes (frameOperands_of_short_code hframed)]
        cases d.record s.position code.toNat operands with
        | error e =>
          rw [run_bind_of_error (run_liftM _)]
          apply Scans.error
        | ok frame =>
          rw [run_bind_of_ok (run_liftM _)]
          apply Scans.after hs hone
          apply Scans.ok _ hk

/-! ### Blocks and bodies -/

/-- A scan resolves its branches as the reader does. -/
theorem scans_finishScan (placed : List Placed) (stop : Int) :
  Scans s ((finishScan placed stop).run (s, events))
    (Framed.finish (.ok ⟨placed, stop, .ofStream s⟩, events))
  := by
  rw [finishScan, Framed.finish]
  dsimp only
  cases resolve placed stop with
  | error e =>
    rw [run_bind_of_error (run_liftM _)]
    apply Scans.error
  | ok actions =>
    rw [run_bind_of_ok (run_liftM _), run_bind_of_ok (ScanOp.run_report _)]
    apply Scans.stay

/-- Reading the actions of a block with a number of steps does as framing them does. -/
def ActionsScan (d : Decoder) (steps : Nat) : Prop :=
  ∀ {s : BitStream}, s.Ready → ∀ (limit : Option Int) (done : List Placed) (events : List Event),
  Scans s ((d.scanActions limit steps done).run (s, events))
    (Framed.finish (d.frame limit steps (.ofStream s) done events))

/-- Reading bodies from a stream with a number of steps does as reading them from bytes does. -/
def BodiesScan (d : Decoder) (steps : Nat) : Prop :=
  ∀ {s : BitStream}, s.Ready → ∀ (limit : Option Int) (record : Record)
    (sizes : List (String × Nat)) (done : List (List Action)) (events : List Event),
  Scans s ((d.scanBodies limit steps record sizes done).run (s, events))
    (d.bodies limit steps record sizes (.ofStream s) done events)

/-- One more action is scanned as it is read, given that its bodies and the rest of the block
are. -/
theorem actions_scan_succ {steps : Nat} (hactions : d.ActionsScan steps)
    (hbodies : d.BodiesScan steps) :
  d.ActionsScan (steps + 1)
  := by
  intro s hs limit done events
  have hrecord : Scans s ((d.scanRecord limit).run (s, events)) _ := scans_scanRecord hs
  have hoffset : s.cursor / 8 = (Input.ofStream s).offset := rfl
  rw [scanActions, run_bind_of_ok ScanOp.run_offset, hoffset, frame]
  cases hnext : d.upcoming limit (.ofStream s) with
  | failure e =>
    rw [hnext] at hrecord
    obtain ⟨t, hrun⟩ := hrecord.of_error
    rw [run_bind_of_error hrun]
    apply Scans.error
  | finish next =>
    rw [hnext] at hrecord
    obtain ⟨k, hk, hrun, rfl⟩ := hrecord.of_ok
    rw [run_bind_of_ok hrun]
    apply Scans.after hs hk
    apply scans_finishScan
  | record frame next =>
    rw [hnext] at hrecord
    obtain ⟨k, hk, hrun, rfl⟩ := hrecord.of_ok
    rw [run_bind_of_ok hrun]
    apply Scans.after hs hk
    dsimp only
    rw [run_bind_of_ok (ScanOp.run_report _)]
    have hread := hbodies (hs.skip hk) limit frame.record frame.bodySizes []
      ((frame.event? (Input.ofStream s).offset).toList ++ events)
    obtain ⟨e, t, events', hrun, hread⟩ | ⟨bodies, events', j, hj, hrun, hread⟩ :=
      hread.fails_or_reads
    · rw [run_bind_of_error hrun, hread]
      apply Scans.error
    · rw [run_bind_of_ok hrun, hread]
      apply Scans.after (hs.skip hk) hj
      apply hactions ((hs.skip hk).skip hj)

theorem scanBodies_nil (limit : Option Int) (steps : Nat) (record : Record)
    (done : List (List Action)) :
  d.scanBodies limit steps record [] done = pure done.reverse
  := by
  cases steps <;> rw [scanBodies]

/-- One more body is scanned as it is read, given that its block and the bodies after it are. -/
theorem bodies_scan_succ {steps : Nat} (hactions : d.ActionsScan steps)
    (hbodies : d.BodiesScan steps) :
  d.BodiesScan (steps + 1)
  := by
  intro s hs limit record sizes done events
  cases sizes with
  | nil =>
    rw [scanBodies_nil, bodies_nil]
    apply Scans.stay
  | cons named sizes =>
    obtain ⟨bodyName, size⟩ := named
    have hoffset : s.cursor / 8 = (Input.ofStream s).offset := rfl
    have hrest : (Input.ofStream s).rest = s.pending := by
      rw [Input.ofStream_eq hs.toBacked]
    -- A stream that is ready has the bits of a number of bytes if it has that many whole bytes.
    have hroom : (decide (s.available < size * 8)
          || limit.any (· < (Input.ofStream s).offset + size))
        = (!Bytes.hasAtLeast size s.pending
          || limit.any (· < (Input.ofStream s).offset + size)) := by
      congr 1
      rw [Bool.eq_iff_iff]
      simp [hs.available_lt_iff, Bytes.hasAtLeast_iff, ← Bool.not_eq_true]
    rw [scanBodies, run_bind_of_ok ScanOp.run_offset, run_bind_of_ok ScanOp.run_stream, hoffset,
      hroom, hs.available_div, Decoder.bodies, hrest]
    split
    · apply Scans.error
    · have hread := hactions hs (some ((Input.ofStream s).offset + size)) [] events
      obtain ⟨e, t, events', hrun, hread⟩ | ⟨body, events', k, hk, hrun, hread⟩ :=
        hread.fails_or_reads
      · rw [run_bind_of_error hrun, hread]
        apply Scans.error
      · rw [run_bind_of_ok hrun, hread]
        apply Scans.after hs hk
        apply hbodies (hs.skip hk)

/-- Blocks and bodies are scanned from a stream as they are read from its bytes. -/
theorem scan (steps : Nat) :
  d.ActionsScan steps ∧ d.BodiesScan steps
  := by
  induction steps with
  | zero =>
    constructor
    · intro s hs limit done events
      rw [scanActions, run_bind_of_ok ScanOp.run_offset, frame]
      apply Scans.error
    · intro s hs limit record sizes done events
      cases sizes with
      | nil =>
        rw [scanBodies_nil, bodies_nil]
        apply Scans.stay
      | cons named sizes =>
        rw [scanBodies, run_bind_of_ok ScanOp.run_offset, Decoder.bodies]
        · apply Scans.error
        · simp
        · simp
  | succ steps ih => exact ⟨actions_scan_succ ih.1 ih.2, bodies_scan_succ ih.1 ih.2⟩

/-! ### Whole blocks -/

/-- A block is scanned from a stream as it is read from the pending bytes. -/
theorem scans_block (hs : s.Ready) (size : Option Int) :
  Scans s
    ((d.scanActions (size.map (s.cursor / 8 + ·)) ((s.available / 8).toNat + 1) []).run (s, []))
    (d.block (size.map (s.position + ·)) (.plain s.position s.pending))
  := by
  have hscan := (scan (d := d) (s.pending.length + 1)).1 hs (size.map (s.position + ·)) [] []
  rw [Input.ofStream_eq hs.toBacked] at hscan
  rw [hs.available_div, ← hs.position_eq]
  exact hscan

/-- Where the reader fails on the pending bytes, the scan fails alike. -/
theorem scanBlock_of_error (hs : s.Ready) {size : Option Int} {e : DecodeError}
    (h : d.block (size.map (s.position + ·)) (.plain s.position s.pending) = (.error e, events)) :
  d.scanBlock s size = ⟨.error e, events.reverse⟩
  := by
  have hscan := scans_block (d := d) hs size
  rw [h] at hscan
  obtain ⟨t, hrun⟩ := hscan.of_error
  rw [scanBlock, hrun]
  rfl

/-- Where the reader succeeds on the pending bytes, the scan succeeds and moves the cursor past what
was read. -/
theorem scanBlock_of_ok (hs : s.Ready) {size : Option Int} {actions : List Action} {next : Input}
    (h : d.block (size.map (s.position + ·)) (.plain s.position s.pending)
      = (.ok (actions, next), events)) :
  ∃ k ≤ s.pending.length, next.offset = s.position + k
    ∧ d.scanBlock s size = ⟨.ok (actions, s.cursor + 8 * k), events.reverse⟩
  := by
  have hscan := scans_block (d := d) hs size
  rw [h] at hscan
  obtain ⟨k, hk, hrun, rfl⟩ := hscan.of_ok
  refine ⟨k, hk, ?_, ?_⟩
  · rw [Input.ofStream_eq (hs.skip hk).toBacked, hs.position_skip]
    rfl
  · rw [scanBlock, hrun]
    rfl

/-- A scan succeeds exactly when the reader does on the pending bytes, with the same actions. -/
theorem exists_scanBlock_iff (hs : s.Ready) {size : Option Int} {actions : List Action} :
  (∃ cursor, (d.scanBlock s size).result = .ok (actions, cursor))
    ↔ ∃ next, (d.block (size.map (s.position + ·)) (.plain s.position s.pending)).1
      = .ok (actions, next)
  := by
  rcases hblock : d.block (size.map (s.position + ·)) (.plain s.position s.pending)
    with ⟨e | ⟨actions', next⟩, events⟩
  · simp [scanBlock_of_error hs hblock]
  · obtain ⟨k, -, -, hscan⟩ := scanBlock_of_ok hs hblock
    simp [hscan]

/-- Reading a block with the operations of the stream and from the whole bytes ahead is the same. -/
theorem scanBlock_eq (hs : s.Ready) (size : Option Int) :
  d.scanBlock s size = d.readBlock s size
  := by
  have hoffset : (Input.ofStream s).offset = s.position := by
    rw [Input.ofStream_eq hs.toBacked]
  have hstart : ¬ ((s.position : Int) < -s.bytes.length ∧ 8 ≤ s.available
      ∧ (size.map ((s.position : Int) + ·)).all ((s.position : Int) < ·) = true) := by
    omega
  rw [readBlock, hoffset, if_neg hstart, Input.ofStream_eq hs.toBacked]
  rcases hblock : d.block (size.map (s.position + ·)) (.plain s.position s.pending)
    with ⟨_ | ⟨actions, next⟩, events⟩
  · apply scanBlock_of_error hs hblock
  · obtain ⟨k, -, hnext, hscan⟩ := scanBlock_of_ok hs hblock
    dsimp only
    rw [hscan, hnext, add_sub_cancel_left]

end Decoder

end ActionBlock
