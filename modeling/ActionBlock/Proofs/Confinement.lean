import ActionBlock.Proofs.Scanning

/-!
# Bodies and what follows them

A body of a given number of bytes is read from these bytes alone. Nothing that is read of it reaches
past its end, so it does not matter which bytes follow, or whether there are any; only the wording
of an error about a body that does not fit tells how many bytes there are in all.
-/

namespace ActionBlock

open BitStream

/-- Errors of one class that concern the same offset, action code and destination. If they differ,
then in how many bytes they say are available for a body. -/
inductive DecodeError.Alike : DecodeError → DecodeError → Prop where
  | same (e : DecodeError) : Alike e e
  | bodyBytes (bodyName : String) (name : Text) (declared available available' : Nat) (offset : Int)
      (code : Option Int) :
    Alike (truncated (.bodyBytes bodyName name declared available) offset code)
      (truncated (.bodyBytes bodyName name declared available') offset code)

/-- Outcomes that agree in what was read and reported, and leave one input or the other. -/
def Confined {α : Type} (next next' : Input) (outcome outcome' : Outcome (α × Input)) : Prop :=
  (∃ a events, outcome = (.ok (a, next), events) ∧ outcome' = (.ok (a, next'), events))
    ∨ ∃ e e' events, e.Alike e' ∧ outcome = (.error e, events) ∧ outcome' = (.error e', events)

/-! ### Records -/

/-- The input with more bytes after its own. -/
def Input.extended (tail : Bytes) (i : Input) : Input := { i with rest := i.rest ++ tail }

section Records

variable {l : Int} {start : Nat} {rest : Bytes} (tail : Bytes)

/-- Bytes that are there are taken alike, whatever follows them. -/
theorem Input.take?_append {n : Nat} (h : n ≤ rest.length) :
  (plain start (rest ++ tail)).take? n
    = ((plain start rest).take? n).map (Prod.map id (extended tail))
  := by
  have hfront : (rest.take n).length = n := by rwa [List.length_take, Nat.min_eq_left]
  have htake : ∀ more : Bytes, (plain start (rest ++ more)).take? n
      = some (rest.take n, ⟨start + n, rest.drop n ++ more, none⟩) := by
    intro more
    apply Input.take?_eq_some_iff.mpr
    refine ⟨rest.drop n ++ more, ?_, hfront, rfl⟩
    rw [← List.append_assoc, List.take_append_drop]
  have hempty := htake []
  rw [List.append_nil, List.append_nil] at hempty
  rw [htake, hempty]
  rfl

/-- Operands within the limit are taken alike, whatever follows the limit. -/
theorem takeOperands_append (hl : l ≤ start + rest.length) (offset code : Int) (length : Nat) :
  takeOperands (some l) offset code length (.plain start (rest ++ tail))
    = (takeOperands (some l) offset code length (.plain start rest)).map
      (Prod.map id (Input.extended tail))
  := by
  rw [takeOperands, takeOperands]
  dsimp only
  cases hfilter : (some l).filter fun l => l < (start : Int) + length with
  | some limit => rfl
  | none =>
    have hstop : ¬ l < (start : Int) + length := by simpa using hfilter
    rw [Input.take?_append tail (by omega)]
    cases htake : (Input.plain start rest).take? length with
    | some taken => rfl
    | none =>
      have hlt := Input.take?_eq_none_iff.mp htake
      omega

/-- A record's length and operands within the limit are read alike, whatever follows the limit. -/
theorem frameOperands_append (hl : l ≤ start + rest.length) (offset code : Int) :
  frameOperands (some l) offset code (.plain start (rest ++ tail))
    = (frameOperands (some l) offset code (.plain start rest)).map
      (Prod.map id (Input.extended tail))
  := by
  rw [frameOperands, frameOperands]
  split
  · rfl
  split
  · rfl
  · rename_i hlimit
    have hlength : ¬ l < (start : Int) + 2 := by simpa using hlimit
    rw [Input.take?_append tail (by omega)]
    cases htake : (Input.plain start rest).take? 2 with
    | none =>
      have hlt := Input.take?_eq_none_iff.mp htake
      omega
    | some taken =>
      obtain ⟨front, next⟩ := taken
      obtain ⟨rest, rfl, hfront, rfl⟩ := Input.take?_eq_some_iff.mp htake
      have hrest : l ≤ (start + 2 : Nat) + rest.length := by
        rw [List.length_append] at hl
        omega
      apply takeOperands_append tail hrest

/-- What stands next, with more bytes after it. -/
def Upcoming.extended (tail : Bytes) : Upcoming → Upcoming
  | finish next => finish (next.extended tail)
  | record frame next => record frame (next.extended tail)
  | failure e => failure e

/-- What comes next within the limit does not depend on what follows the limit. -/
theorem Decoder.upcoming_append (d : Decoder) (hl : l ≤ start + rest.length) :
  d.upcoming (some l) (.plain start (rest ++ tail))
    = (d.upcoming (some l) (.plain start rest)).extended tail
  := by
  rw [upcoming, upcoming]
  by_cases hend : (some l).any (· ≤ (start : Int)) = true
  · rw [if_pos hend, if_pos hend]
    rfl
  rw [if_neg hend, if_neg hend]
  cases rest with
  | nil =>
    have hstart : ¬ l ≤ start := by simpa using hend
    simp only [List.length_nil] at hl
    omega
  | cons code rest =>
    have hnext : ∀ bytes : Bytes, (⟨(start : Int) + 1, bytes, none⟩ : Input)
        = .plain (start + 1) bytes := by
      intro bytes
      rw [Input.plain, Nat.cast_add, Nat.cast_one]
    have hrest : l ≤ (start + 1 : Nat) + rest.length := by
      rw [List.length_cons] at hl
      omega
    rw [List.cons_append]
    dsimp only [Option.isNone]
    rw [hnext, hnext, frameOperands_append tail hrest]
    cases frameOperands (some l) start code.toNat (.plain (start + 1) rest) with
    | error e => rfl
    | ok taken =>
      dsimp only [Except.map, Prod.map, id]
      cases d.record start code.toNat taken.1 <;> rfl

end Records

/-! ### Blocks and bodies -/

theorem Framed.finish_confined (actions : List Placed) (stop : Int) (next next' : Input)
    (events : List Event) :
  Confined next next' (finish (.ok ⟨actions, stop, next⟩, events))
    (finish (.ok ⟨actions, stop, next'⟩, events))
  := by
  rw [finish, finish]
  dsimp only
  cases resolve actions stop with
  | error e => exact .inr ⟨e, e, events, .same e, rfl, rfl⟩
  | ok resolved => exact .inl ⟨resolved, _, rfl, rfl⟩

namespace Decoder

variable {d : Decoder}

/-- With more steps than its bytes, a body is read alike whatever follows. -/
def FrameConfined (d : Decoder) (steps : Nat) : Prop :=
  ∀ (steps' offset : Nat) (body tail tail' : Bytes) (done : List Placed) (events : List Event),
  body.length < steps → body.length < steps' →
  Confined (.plain (offset + body.length) tail) (.plain (offset + body.length) tail')
    (Framed.finish (d.frame (some (offset + body.length : Nat)) steps
      (.plain offset (body ++ tail)) done events))
    (Framed.finish (d.frame (some (offset + body.length : Nat)) steps'
      (.plain offset (body ++ tail')) done events))

/-- With more steps than bytes and bodies, the bodies of an action in a body are read alike whatever
follows the body around them. -/
def BodiesConfined (d : Decoder) (steps : Nat) : Prop :=
  ∀ (steps' offset : Nat) (body tail tail' : Bytes) (record : Record)
    (sizes : List (String × Nat)) (done : List (List Action)) (events : List Event),
  sizes.length + body.length < steps → sizes.length + body.length < steps' →
  ∃ front rest, body = front ++ rest
    ∧ Confined (.plain (offset + front.length) (rest ++ tail))
      (.plain (offset + front.length) (rest ++ tail'))
      (d.bodies (some (offset + body.length : Nat)) steps record sizes
        (.plain offset (body ++ tail))
        done events)
      (d.bodies (some (offset + body.length : Nat)) steps' record sizes
        (.plain offset (body ++ tail')) done events)

/-- One more action is confined where the bodies below it and the rest of the block are. -/
theorem frame_confined_succ {steps : Nat} (hframe : d.FrameConfined steps)
    (hbodies : d.BodiesConfined steps) :
  d.FrameConfined (steps + 1)
  := by
  intro steps' offset body tail tail' done events hsteps hsteps'
  obtain ⟨steps', rfl⟩ : ∃ n, steps' = n + 1 := Nat.exists_eq_succ_of_ne_zero (by omega)
  have hlimit : ((offset + body.length : Nat) : Int) ≤ offset + body.length := by omega
  rw [frame, frame, upcoming_append tail d hlimit, upcoming_append tail' d hlimit]
  cases hnext : d.upcoming (some (offset + body.length : Nat)) (.plain offset body) with
  | failure e => exact .inr ⟨e, e, events, .same e, rfl, rfl⟩
  | finish next =>
    obtain ⟨hstop, rfl⟩ := (end_of_upcoming (by simp) hnext).eq_of_limit
    obtain rfl : body = [] := by
      apply List.eq_nil_of_length_eq_zero
      omega
    apply Framed.finish_confined
  | record frame next =>
    obtain ⟨record, rest, rfl, hrecord, -, -, rfl⟩ := record_of_upcoming hnext
    have hpos := hrecord.length_pos
    have hsizes := hrecord.sizes_length_lt
    have hnames : frame.bodySizes.length = frame.sizes.length := by
      rw [← hrecord.map_bodySizes, List.length_map]
    -- A record takes more bytes than it has bodies, so the steps that are left are enough in both
    -- runs.
    rw [List.length_append] at hsteps hsteps'
    obtain ⟨front, rest', rfl, hconfined⟩ := hbodies steps' (offset + record.length) rest tail tail'
      frame.record frame.bodySizes [] ((frame.event? offset).toList ++ events) (by omega) (by omega)
    have hstop : offset + (record ++ (front ++ rest')).length
        = offset + record.length + (front ++ rest').length := by
      rw [List.length_append]
      omega
    have hstop' : offset + record.length + (front ++ rest').length
        = offset + record.length + front.length + rest'.length := by
      rw [List.length_append]
      omega
    rw [hstop]
    obtain ⟨bodies, events', hrun, hrun'⟩ | ⟨e, e', events', halike, hrun, hrun'⟩ := hconfined
    · dsimp only [Upcoming.extended, Input.extended]
      rw [hrun, hrun', hstop']
      rw [List.length_append] at hsteps hsteps'
      apply hframe _ _ rest' tail tail' _ events' (by omega) (by omega)
    · dsimp only [Upcoming.extended, Input.extended]
      rw [hrun, hrun']
      exact .inr ⟨e, e', events', halike, rfl, rfl⟩

/-- One more body is confined where its block and the bodies after it are. -/
theorem bodies_confined_succ {steps : Nat} (hframe : d.FrameConfined steps)
    (hbodies : d.BodiesConfined steps) :
  d.BodiesConfined (steps + 1)
  := by
  intro steps' offset body tail tail' record sizes done events hsteps hsteps'
  cases sizes with
  | nil =>
    refine ⟨[], body, rfl, ?_⟩
    rw [bodies_nil, bodies_nil]
    exact .inl ⟨done.reverse, events, rfl, rfl⟩
  | cons named sizes =>
    obtain ⟨bodyName, size⟩ := named
    obtain ⟨steps', rfl⟩ : ∃ n, steps' = n + 1 := Nat.exists_eq_succ_of_ne_zero (by omega)
    rw [List.length_cons] at hsteps hsteps'
    -- Bytes after the body around it are of no use to a body, since it has to end before them.
    have hroom : ∀ more : Bytes, (!Bytes.hasAtLeast size (body ++ more)
        || (some ((offset + body.length : Nat) : Int)).any (· < (offset : Int) + size)) = true
          ↔ ¬ size ≤ body.length := by
      intro more
      rw [Bool.or_eq_true, Bool.not_eq_true', ← Bool.not_eq_true, Bytes.hasAtLeast_iff,
        List.length_append, Option.any_some, decide_eq_true_eq]
      omega
    rw [Decoder.bodies, Decoder.bodies]
    by_cases hsize : size ≤ body.length
    · rw [if_neg ((hroom tail).not.mpr (not_not.mpr hsize)),
        if_neg ((hroom tail').not.mpr (not_not.mpr hsize))]
      obtain ⟨inner, rest, rfl, rfl⟩ :
          ∃ inner rest, body = inner ++ rest ∧ size = inner.length := by
        refine ⟨body.take size, body.drop size, (List.take_append_drop _ _).symm, ?_⟩
        rw [List.length_take, Nat.min_eq_left hsize]
      rw [List.length_append] at hsteps hsteps'
      have hinner := hframe steps' offset inner (rest ++ tail) (rest ++ tail') [] events (by omega)
        (by omega)
      rw [← List.append_assoc, ← List.append_assoc, Nat.cast_add] at hinner
      obtain ⟨read, events', hrun, hrun'⟩ | ⟨e, e', events', halike, hrun, hrun'⟩ := hinner
      · rw [hrun, hrun']
        obtain ⟨front, rest, rfl, hconfined⟩ :=
          hbodies steps' (offset + inner.length) rest tail tail'
          record sizes (read :: done) events' (by omega) (by omega)
        refine ⟨inner ++ front, rest, (List.append_assoc _ _ _).symm, ?_⟩
        have hlength : ∀ bytes : Bytes, offset + (inner ++ bytes).length
            = offset + inner.length + bytes.length := by
          intro bytes
          rw [List.length_append, Nat.add_assoc]
        rw [hlength, hlength]
        exact hconfined
      · rw [hrun, hrun']
        exact ⟨[], _, rfl, .inr ⟨e, e', events', halike, rfl, rfl⟩⟩
    · rw [if_pos ((hroom tail).mpr hsize), if_pos ((hroom tail').mpr hsize)]
      refine ⟨[], body, rfl, .inr ⟨_, _, events, ?_, rfl, rfl⟩⟩
      apply DecodeError.Alike.bodyBytes

/-- The reader of blocks and the reader of bodies never look past their limit. -/
theorem confined (steps : Nat) :
  d.FrameConfined steps ∧ d.BodiesConfined steps
  := by
  induction steps with
  | zero =>
    constructor
    · intro _ _ _ _ _ _ _ hsteps
      exact absurd hsteps (Nat.not_lt_zero _)
    · intro _ _ _ _ _ _ _ _ _ hsteps
      exact absurd hsteps (Nat.not_lt_zero _)
  | succ steps ih => exact ⟨frame_confined_succ ih.1 ih.2, bodies_confined_succ ih.1 ih.2⟩

/-- Two inputs that agree up to the limit are read alike up to it. -/
theorem block_confined (offset : Nat) {n : Nat} {bytes bytes' : Bytes} (hn : n ≤ bytes.length)
    (hn' : n ≤ bytes'.length) (hbytes : bytes'.take n = bytes.take n) :
  Confined (.plain (offset + n) (bytes.drop n)) (.plain (offset + n) (bytes'.drop n))
    (d.block ((some (n : Int)).map (offset + ·)) (.plain offset bytes))
    (d.block ((some (n : Int)).map (offset + ·)) (.plain offset bytes'))
  := by
  have hlength : (bytes.take n).length = n := by rwa [List.length_take, Nat.min_eq_left]
  have hconfined :=
    (confined (d := d) (bytes.length + 1)).1 (bytes'.length + 1) offset (bytes.take n)
    (bytes.drop n) (bytes'.drop n) [] [] (by omega) (by omega)
  rw [hlength, List.take_append_drop, ← hbytes, List.take_append_drop, Nat.cast_add] at hconfined
  exact hconfined

/-- A block of size zero has no actions and takes nothing. -/
theorem scanBlock_zero (d : Decoder) (s : BitStream) :
  d.scanBlock s (some 0) = ⟨.ok ([], s.cursor), [.block 0 0 (s.cursor / 8)]⟩
  := by
  have hrecord : (d.scanRecord (some (s.cursor / 8))).run (s, []) = (.ok none, s, []) := by
    rw [scanRecord, run_bind_of_ok ScanOp.run_offset, if_pos (by simp)]
    rfl
  rw [scanBlock, Option.map_some, Int.add_zero, scanActions, run_bind_of_ok ScanOp.run_offset,
    run_bind_of_ok hrecord]
  rfl

end Decoder

/-! ### The theorem -/

/-- A body of `n` bytes is read from these bytes alone. Where the same `n` bytes stand at the same
cursor in two streams, whatever else the streams hold, the same actions are read and the same is
reported, and the cursor moves by `n` bytes; or else reading fails with errors of one class that
concern the same offset, action code and destination. -/
theorem scanBlock_confined (d : Decoder) {s t : BitStream} (hs : s.Backed) (ht : t.Backed)
    (hcursor : t.cursor = s.cursor) {n : Nat} (hn : n ≤ s.pending.length)
    (hn' : n ≤ t.pending.length) (hbytes : t.pending.take n = s.pending.take n) :
  (d.scanBlock t (some n)).events = (d.scanBlock s (some n)).events
    ∧ (d.scanBlock t (some n)).diagnostics = (d.scanBlock s (some n)).diagnostics
    ∧ ((∃ actions, (d.scanBlock s (some n)).result = .ok (actions, s.cursor + 8 * n)
        ∧ (d.scanBlock t (some n)).result = .ok (actions, s.cursor + 8 * n))
      ∨ ∃ e e', (d.scanBlock s (some n)).result = .error e
        ∧ (d.scanBlock t (some n)).result = .error e' ∧ e.Alike e')
  := by
  obtain rfl | hpos := Nat.eq_zero_or_pos n
  · -- A body without bytes is not looked for, not even where the cursor is past the end.
    rw [Nat.cast_zero, Decoder.scanBlock_zero, Decoder.scanBlock_zero, hcursor, mul_zero, add_zero]
    exact ⟨rfl, rfl, .inl ⟨[], rfl, rfl⟩⟩
  have hposition : t.position = s.position := by
    rw [position, position, hcursor]
  have hready := hs.ready (Nat.lt_of_lt_of_le hpos hn)
  have hready' := ht.ready (Nat.lt_of_lt_of_le hpos hn')
  have hconfined := Decoder.block_confined (d := d) s.position hn hn' hbytes
  obtain ⟨actions, events, hrun, hrun'⟩ | ⟨e, e', events, halike, hrun, hrun'⟩ := hconfined
  · rw [← hposition] at hrun'
    obtain ⟨k, -, hnext, hscan⟩ := Decoder.scanBlock_of_ok hready hrun
    obtain ⟨k', -, hnext', hscan'⟩ := Decoder.scanBlock_of_ok hready' hrun'
    obtain rfl : k = n := by
      simp only at hnext
      omega
    obtain rfl : k' = k := by
      simp only at hnext'
      omega
    rw [hscan, hscan', hcursor]
    exact ⟨rfl, rfl, .inl ⟨actions, rfl, rfl⟩⟩
  · rw [← hposition] at hrun'
    rw [Decoder.scanBlock_of_error hready hrun, Decoder.scanBlock_of_error hready' hrun']
    exact ⟨rfl, rfl, .inr ⟨e, e', rfl, rfl, halike⟩⟩

/-- An action without an entry, in the middle of two bytes that are followed by more bits and in the
middle of two bytes that are not. -/
theorem scanBlock_confined_unlisted :
  (⟨[0xF0, 0x20, 0x70], 24, 4⟩ : BitStream).pending = [0x02, 0x07]
    ∧ (⟨[0x00, 0x2F], 12, 4⟩ : BitStream).pending = [0x02]
    ∧ (Decoder.scanBlock ⟨.shared, false⟩ ⟨[0x00, 0x2F], 12, 4⟩ (some 1)).diagnostics
      = [.unknownCode 2 0]
    ∧ ∃ actions,
      (Decoder.scanBlock ⟨.shared, false⟩ ⟨[0xF0, 0x20, 0x70], 24, 4⟩ (some 1)).result
          = .ok (actions, 12)
        ∧ (Decoder.scanBlock ⟨.shared, false⟩ ⟨[0x00, 0x2F], 12, 4⟩ (some 1)).result
          = .ok (actions, 12)
  := by
  have hread : (Decoder.scanBlock ⟨.shared, false⟩ ⟨[0xF0, 0x20, 0x70], 24, 4⟩ (some 1)).result.isOk
      = true := by
    decide +kernel
  obtain ⟨-, hdiagnostics, ⟨actions, hok, hok'⟩ | ⟨e, e', herror, -, -⟩⟩ :=
    scanBlock_confined ⟨.shared, false⟩ (s := ⟨[0xF0, 0x20, 0x70], 24, 4⟩)
      (t := ⟨[0x00, 0x2F], 12, 4⟩)
      ⟨by decide, by decide⟩ ⟨by decide, by decide⟩ rfl (n := 1) (by decide) (by decide) (by decide)
  · exact ⟨by decide, by decide, hdiagnostics.trans (by decide +kernel), actions, hok, hok'⟩
  · rw [Nat.cast_one] at herror
    rw [herror] at hread
    cases hread

end ActionBlock
