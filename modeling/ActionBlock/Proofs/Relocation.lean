import ActionBlock.Proofs.Scanning

/-!
# Reading further on

What is read does not depend on where it stands. A block that begins a number of bytes further on is
read as the same block, with that number added to every offset: to those of the actions at all
levels, of what is reported and of the error, if there is one. Since reading at the cursor is
reading from the whole bytes ahead of it, the cursor may be between the start of a byte and the next
one as well.
-/

namespace ActionBlock

open BitStream

/-! ### Offsets further on -/

/-- The offset a number of bytes further on. What is no number stays. -/
def Value.relocated (k : Int) : Value → Value
  | .int offset => .int (offset + k)
  | v => v

/-- The record as it is read a number of bytes further on. -/
def Record.relocated (k : Int) (r : Record) : Record := { r with offset := r.offset.relocated k }

mutual

/-- The action as it is read a number of bytes further on. -/
def Action.relocated (k : Int) : Action → Action
  | .mk identity record bodies => .mk identity (record.relocated k) (bodiesRelocated k bodies)

/-- The bodies as they are read a number of bytes further on. -/
def bodiesRelocated (k : Int) : List (List Action) → List (List Action)
  | [] => []
  | body :: bodies => blockRelocated k body :: bodiesRelocated k bodies

/-- The block as it is read a number of bytes further on. -/
def blockRelocated (k : Int) : List Action → List Action
  | [] => []
  | a :: actions => a.relocated k :: blockRelocated k actions

end

theorem blockRelocated_eq_map (k : Int) (actions : List Action) :
  blockRelocated k actions = actions.map (Action.relocated k)
  := by
  induction actions with
  | nil => rfl
  | cons a actions ih => rw [blockRelocated, ih, List.map_cons]

theorem bodiesRelocated_eq_map (k : Int) (bodies : List (List Action)) :
  bodiesRelocated k bodies = bodies.map (blockRelocated k)
  := by
  induction bodies with
  | nil => rfl
  | cons body bodies ih => rw [bodiesRelocated, ih, List.map_cons]

/-- The error of the same bytes a number of bytes further on. -/
def DecodeError.relocated (k : Int) : DecodeError → DecodeError
  | unknownCode code offset => unknownCode code (offset + k)
  | truncated shortfall offset code => truncated shortfall (offset + k) code
  | badLanding name code offset destination =>
    badLanding name code (offset + k) (destination + k)
  | fault kept offset => fault kept (offset + k)
  | exhausted offset => exhausted (offset + k)

/-- The event of reading the same bytes a number of bytes further on. -/
def Event.relocated (k : Int) : Event → Event
  | unknown code offset => unknown code (offset + k)
  | block actions branches stop => block actions branches (stop + k)
  | e => e

/-- What is reported further on are the same reports, with their offsets further on. -/
theorem filterMap_diagnostic?_relocated (k : Int) (events : List Event) :
  (events.map (Event.relocated k)).filterMap Event.diagnostic?
    = (events.filterMap Event.diagnostic?).map (DecodeError.relocated k)
  := by
  rw [List.filterMap_map, List.map_filterMap]
  congr 1
  funext e
  cases e <;> rfl

/-- The action and its start, a number of bytes further on. -/
def Placed.relocated (k : Int) (p : Placed) : Placed := ⟨p.start + k, p.action.relocated k⟩

/-- The input a number of bytes further on. -/
def Input.relocated (k : Int) (i : Input) : Input := { i with offset := i.offset + k }

/-- The record and its declared sizes, a number of bytes further on. -/
def Frame.relocated (k : Int) (f : Frame) : Frame := { f with record := f.record.relocated k }

/-- A framed block a number of bytes further on. -/
def Framed.relocated (k : Int) (f : Framed) : Framed :=
  ⟨f.actions.map (Placed.relocated k), f.stop + k, f.next.relocated k⟩

/-- A result a number of bytes further on, given how what was read changes. -/
def relocateResult {α : Type} (k : Int) (f : α → α) : Except DecodeError α → Except DecodeError α
  | .ok a => .ok (f a)
  | .error e => .error (e.relocated k)

/-- An outcome a number of bytes further on, given how what was read changes. -/
def relocateOutcome {α : Type} (k : Int) (f : α → α) (outcome : Outcome α) : Outcome α :=
  (relocateResult k f outcome.1, outcome.2.map (Event.relocated k))

/-! ### Branches -/

/-- Targets are indices, and do not depend on where a block stands. -/
theorem Action.withTarget_relocated (k : Int) (t : Nat) (a : Action) :
  (a.withTarget t).relocated k = (a.relocated k).withTarget t
  := by
  cases a
  rfl

/-- Only the offset of a record changes, and not its operands. -/
theorem Action.operands_relocated (k : Int) (a : Action) :
  (a.relocated k).record.operands = a.record.operands
  := by
  cases a
  rfl

/-- A start further on has the index of the start. -/
theorem idxOf?_map_add (k : Int) (starts : List Int) (x : Int) :
  (starts.map (· + k)).idxOf? (x + k) = starts.idxOf? x
  := by
  rw [List.idxOf?, List.idxOf?, List.findIdx?_map]
  congr 1
  funext y
  simp

/-- A branch further on lands on the same action, or fails to land further on. -/
theorem land_relocated (k : Int) (starts : List Int) (p : Placed) (stop : Int) :
  land (starts.map (· + k)) (p.relocated k) (stop + k)
    = relocateResult k (Action.relocated k) (land starts p stop)
  := by
  obtain ⟨start, a⟩ := p
  rw [land, land, Placed.relocated, Action.operands_relocated]
  cases a.record.operands.displacement? with
  | none => rfl
  | some displacement =>
    -- The end of the branch and the starts move alike, so it lands on the action of the same index.
    dsimp only
    rw [Int.add_right_comm, idxOf?_map_add]
    cases starts.idxOf? (stop + displacement) with
    | none =>
      cases a
      rfl
    | some target =>
      dsimp only
      rw [relocateResult, Action.withTarget_relocated]

/-- The branches of a block are resolved alike further on, given what is resolved by then. -/
theorem resolveFrom_relocated (k : Int) (starts : List Int) (block : List Placed)
    (stops : List Int) (done : List Action) :
  resolveFrom (starts.map (· + k)) (block.map (Placed.relocated k)) (stops.map (· + k))
      (blockRelocated k done)
    = relocateResult k (blockRelocated k) (resolveFrom starts block stops done)
  := by
  induction block generalizing stops done with
  | nil => simp [resolveFrom, relocateResult, blockRelocated_eq_map]
  | cons p block ih =>
    cases stops with
    | nil => simp [resolveFrom, relocateResult, blockRelocated_eq_map]
    | cons stop stops =>
      rw [List.map_cons, List.map_cons, resolveFrom_cons, resolveFrom_cons, land_relocated]
      cases land starts p stop with
      | error e => rfl
      | ok a => apply ih stops (a :: done)

/-- The branches of a block are resolved alike further on. -/
theorem resolve_relocated (k : Int) (block : List Placed) (stop : Int) :
  resolve (block.map (Placed.relocated k)) (stop + k)
    = relocateResult k (blockRelocated k) (resolve block stop)
  := by
  have hstarts : (block.map (Placed.relocated k)).map Placed.start ++ [stop + k]
      = (block.map Placed.start ++ [stop]).map (· + k) := by
    simp [Placed.relocated]
  rw [resolve, resolve, hstarts, ← List.map_drop]
  apply resolveFrom_relocated k _ block _ []

theorem Action.isBranch_relocated (k : Int) (a : Action) :
  (a.relocated k).isBranch = a.isBranch
  := by
  cases a
  rfl

/-- A block has as many branches further on. -/
theorem length_branches_relocated (k : Int) (actions : List Action) :
  ((blockRelocated k actions).filter Action.isBranch).length
    = (actions.filter Action.isBranch).length
  := by
  rw [blockRelocated_eq_map, List.filter_map, List.length_map]
  simp only [Function.comp_def, Action.isBranch_relocated]

/-- A block that is framed further on is finished as it is, further on. -/
theorem Framed.finish_relocated (k : Int) (outcome : Outcome Framed) :
  finish (relocateOutcome k (relocated k) outcome)
    = relocateOutcome k (Prod.map (blockRelocated k) (Input.relocated k)) (finish outcome)
  := by
  obtain ⟨_ | framed, events⟩ := outcome
  · rfl
  · simp only [relocateOutcome, relocateResult, finish, relocated]
    rw [resolve_relocated]
    cases resolve framed.actions framed.stop with
    | error e => rfl
    | ok actions =>
      have hlength : (blockRelocated k actions).length = actions.length := by
        rw [blockRelocated_eq_map, List.length_map]
      dsimp only [relocateResult]
      rw [length_branches_relocated, hlength]
      rfl

/-! ### Records -/

theorem any_lt_map_add (limit : Option Int) (k n : Int) :
  (limit.map (· + k)).any (· < n + k) = limit.any (· < n)
  := by
  cases limit <;> simp

theorem any_le_map_add (limit : Option Int) (k n : Int) :
  (limit.map (· + k)).any (· ≤ n + k) = limit.any (· ≤ n)
  := by
  cases limit <;> simp

/-- A limit that an offset is past is the same limit further on. -/
theorem filter_lt_map_add (limit : Option Int) (k n : Int) :
  ((limit.map (· + k)).filter fun l => l < n + k) = (limit.filter fun l => l < n).map (· + k)
  := by
  cases limit with
  | none => rfl
  | some l =>
    by_cases hl : l < n
    · simp [Option.filter, hl]
    · simp [Option.filter, hl]

section Records

variable (k offset : Nat) (limit : Option Int) (rest : Bytes)

/-- An input further on has the same bytes left. -/
theorem Input.relocated_plain :
  (plain offset rest).relocated k = plain (offset + k) rest
  := by
  simp only [relocated, plain, Nat.cast_add]

/-- The same bytes are taken from an input further on. -/
theorem Input.take?_relocated (n : Nat) :
  (plain (offset + k) rest).take? n = ((plain offset rest).take? n).map (Prod.map id (relocated k))
  := by
  rw [take?, take?]
  cases Bytes.splitExact n rest with
  | none => rfl
  | some taken =>
    simp only [Option.elim, Option.map_some, Prod.map, id, relocated, Nat.cast_add]
    rw [Int.add_right_comm]

/-- The operands of a record are taken alike further on, or are cut short alike. -/
theorem takeOperands_relocated (start code : Int) (length : Nat) :
  takeOperands (limit.map (· + k)) (start + k) code length (.plain (offset + k) rest)
    = relocateResult k (Prod.map id (Input.relocated k))
      (takeOperands limit start code length (.plain offset rest))
  := by
  have hstop : ((offset + k : Nat) : Int) + length = (offset + length : Int) + k := by omega
  rw [takeOperands, takeOperands, Input.take?_relocated, hstop, filter_lt_map_add]
  dsimp only
  cases limit.filter fun l => l < (offset : Int) + length with
  | some l =>
    simp only [Option.map_some, relocateResult, DecodeError.relocated, Int.add_sub_add_right]
  | none =>
    cases (Input.plain offset rest).take? length <;> rfl

/-- A record is framed alike further on: the same bytes are its operands. -/
theorem frameOperands_relocated (start code : Int) :
  frameOperands (limit.map (· + k)) (start + k) code (.plain (offset + k) rest)
    = relocateResult k (Prod.map id (Input.relocated k))
      (frameOperands limit start code (.plain offset rest))
  := by
  have hlength : ((offset + k : Nat) : Int) + 2 = (offset + 2 : Int) + k := by omega
  rw [frameOperands, frameOperands, Input.take?_relocated, hlength, any_lt_map_add]
  split
  · simp [relocateResult, Input.relocated]
  split
  · rfl
  · cases htake : (Input.plain offset rest).take? 2 with
    | none => rfl
    | some taken =>
      obtain ⟨length, next⟩ := taken
      obtain ⟨tail, -, -, rfl⟩ := Input.take?_eq_some_iff.mp htake
      apply takeOperands_relocated k (offset + 2)

/-- The operands of a record are read alike further on. -/
theorem Decoder.record_relocated (d : Decoder) (start code : Int) (operands : Bytes) :
  d.record (start + k) code operands
    = relocateResult k (Frame.relocated k) (d.record start code operands)
  := by
  rw [record, record]
  cases d.table.find? code with
  | none =>
    dsimp only
    split <;> rfl
  | some entry =>
    dsimp only
    cases entry.layout.read operands with
    | none => rfl
    | some taken => rfl

/-- What stands next, a number of bytes further on. -/
def Upcoming.relocated (k : Int) : Upcoming → Upcoming
  | finish next => finish (next.relocated k)
  | record frame next => record (frame.relocated k) (next.relocated k)
  | failure e => failure (e.relocated k)

/-- What comes next is the same further on: an end, a record or an error. -/
theorem Decoder.upcoming_relocated (d : Decoder) :
  d.upcoming (limit.map (· + k)) (.plain (offset + k) rest)
    = (d.upcoming limit (.plain offset rest)).relocated k
  := by
  have hinput : Input.plain (offset + k) rest = ⟨(offset : Int) + k, rest, none⟩ := by
    rw [Input.plain, Nat.cast_add]
  rw [hinput, upcoming, upcoming, any_le_map_add]
  by_cases hend : limit.any (· ≤ (offset : Int)) = true
  · rw [if_pos hend, if_pos hend]
    rfl
  rw [if_neg hend, if_neg hend]
  cases rest with
  | nil =>
    cases limit with
    | none => rfl
    | some l => simp [Upcoming.relocated, DecodeError.relocated]
  | cons code rest =>
    have hnext : (⟨(offset : Int) + 1, rest, none⟩ : Input) = .plain (offset + 1) rest := by simp
    have hmoved :
        (⟨(offset : Int) + k + 1, rest, none⟩ : Input) = .plain (offset + 1 + k) rest := by
      simp only [Input.plain, Input.mk.injEq, and_true]
      omega
    dsimp only
    rw [Option.isNone_map, hnext, hmoved, frameOperands_relocated]
    split
    · simp [Upcoming.relocated, Input.relocated, Input.plain]
    · cases frameOperands limit offset code.toNat (.plain (offset + 1) rest) with
      | error e => rfl
      | ok taken =>
        obtain ⟨operands, next⟩ := taken
        dsimp only [relocateResult, Prod.map, id]
        rw [Decoder.record_relocated]
        cases d.record offset code.toNat operands <;> rfl

end Records

/-! ### Blocks and bodies -/

/-- A record that is not listed is reported further on. -/
theorem Frame.event?_relocated (k offset : Int) (f : Frame) :
  ((f.relocated k).event? (offset + k)).toList
    = (f.event? offset).toList.map (Event.relocated k)
  := by
  rw [event?, event?, relocated, Record.relocated]
  dsimp only
  cases f.record.kind <;> rfl

namespace Decoder

variable {d : Decoder}

/-- Framing a block with a number of steps gives the same further on. -/
def FrameRelocates (d : Decoder) (steps : Nat) : Prop :=
  ∀ (k : Nat) {limit : Option Int} {offset : Nat}, (∀ l ∈ limit, (offset : Int) ≤ l) →
  ∀ (rest : Bytes) (done : List Placed) (events : List Event),
  d.frame (limit.map (· + k)) steps (.plain (offset + k) rest) (done.map (Placed.relocated k))
      (events.map (Event.relocated k))
    = relocateOutcome k (Framed.relocated k) (d.frame limit steps (.plain offset rest) done events)

/-- Reading bodies with a number of steps gives the same further on. -/
def BodiesRelocate (d : Decoder) (steps : Nat) : Prop :=
  ∀ (k : Nat) {limit : Option Int} {offset : Nat}, (∀ l ∈ limit, (offset : Int) ≤ l) →
  ∀ (record : Record) (sizes : List (String × Nat)) (rest : Bytes) (done : List (List Action))
    (events : List Event),
  d.bodies (limit.map (· + k)) steps (record.relocated k) sizes (.plain (offset + k) rest)
      (bodiesRelocated k done) (events.map (Event.relocated k))
    = relocateOutcome k (Prod.map (bodiesRelocated k) (Input.relocated k))
      (d.bodies limit steps record sizes (.plain offset rest) done events)

/-- A block is framed alike further on if that is so for one step less. What comes next is the same,
and so are its bodies and what comes after them. -/
theorem frame_relocates_succ {steps : Nat} (hframe : d.FrameRelocates steps)
    (hbodies : d.BodiesRelocate steps) :
  d.FrameRelocates (steps + 1)
  := by
  intro k limit offset hlimit rest done events
  have hoffset : ((offset + k : Nat) : Int) = offset + k := Nat.cast_add offset k
  rw [frame, frame, upcoming_relocated]
  cases hnext : d.upcoming limit (.plain offset rest) with
  | failure e => rfl
  | finish next =>
    simp only [Upcoming.relocated, relocateOutcome, relocateResult, Framed.relocated,
      List.map_reverse, hoffset]
  | record frame next =>
    obtain ⟨record, tail, rfl, -, -, hstop, rfl⟩ := record_of_upcoming hnext
    have hread : d.bodies (limit.map (· + k)) steps (frame.relocated k).record
        (frame.relocated k).bodySizes (.plain (offset + record.length + k) tail) []
        (((frame.relocated k).event? (offset + k : Nat)).toList ++ events.map (Event.relocated k))
        = relocateOutcome k (Prod.map (bodiesRelocated k) (Input.relocated k))
          (d.bodies limit steps frame.record frame.bodySizes (.plain (offset + record.length) tail)
            []
            ((frame.event? offset).toList ++ events)) := by
      rw [hoffset, Frame.event?_relocated, ← List.map_append]
      apply hbodies k hstop frame.record frame.bodySizes tail []
    dsimp only [Upcoming.relocated]
    rw [Input.relocated_plain, hread]
    rcases hnew : d.bodies limit steps frame.record frame.bodySizes
      (.plain (offset + record.length) tail) [] ((frame.event? offset).toList ++ events)
      with ⟨_ | ⟨bodies, next⟩, events'⟩
    · rfl
    · -- The input after the bodies is again one to which the framing of the rest applies.
      obtain ⟨bytes, tail, -, rfl, -, -, rfl, hstop⟩ := (sound steps).2 hstop hnew
      dsimp only [relocateOutcome, relocateResult, Prod.map]
      rw [Input.relocated_plain, hoffset]
      apply hframe k hstop tail (⟨offset, .mk none frame.record bodies⟩ :: done) events'

/-- Without bodies there is nothing to read, here or further on. -/
theorem bodies_nil_relocated (k : Nat) (limit : Option Int) (steps : Nat) (record : Record)
    (offset : Nat) (rest : Bytes) (done : List (List Action)) (events : List Event) :
  d.bodies (limit.map (· + k)) steps (record.relocated k) [] (.plain (offset + k) rest)
      (bodiesRelocated k done) (events.map (Event.relocated k))
    = relocateOutcome k (Prod.map (bodiesRelocated k) (Input.relocated k))
      (d.bodies limit steps record [] (.plain offset rest) done events)
  := by
  rw [bodies_nil, bodies_nil, ← Input.relocated_plain]
  simp only [relocateOutcome, relocateResult, Prod.map, bodiesRelocated_eq_map, List.map_reverse]

/-- Bodies are read alike further on if that is so for one step less. -/
theorem bodies_relocate_succ {steps : Nat} (hframe : d.FrameRelocates steps)
    (hbodies : d.BodiesRelocate steps) :
  d.BodiesRelocate (steps + 1)
  := by
  intro k limit offset hlimit record sizes rest done events
  cases sizes with
  | nil => apply bodies_nil_relocated
  | cons named sizes =>
    obtain ⟨bodyName, size⟩ := named
    have hstop : ((offset + k : Nat) : Int) + size = (offset + size : Int) + k := by omega
    have hbodyLimit : ∀ l ∈ some ((offset : Int) + size), (offset : Int) ≤ l := by simp
    rw [Decoder.bodies, Decoder.bodies, hstop, any_lt_map_add]
    by_cases hroom : (!Bytes.hasAtLeast size rest || limit.any (· < (offset : Int) + size)) = true
    · rw [if_pos hroom, if_pos hroom]
      simp only [relocateOutcome, relocateResult, DecodeError.relocated, Nat.cast_add]
      rfl
    · rw [if_neg hroom, if_neg hroom]
      have hread := hframe k hbodyLimit rest [] events
      rw [Option.map_some, List.map_nil] at hread
      rw [hread, Framed.finish_relocated]
      rcases hbody : Framed.finish
          (d.frame (some ((offset : Int) + size)) steps (.plain offset rest)
        [] events) with ⟨_ | ⟨body, next⟩, events'⟩
      · rfl
      · obtain ⟨framed, earlier, hframed, -, rfl, -⟩ := Framed.finish_eq_ok_iff.mp hbody
        obtain ⟨bytes, tail, placed, next, rfl, -, rfl, hend⟩ := (sound steps).1 hbodyLimit hframed
        obtain ⟨hsize, rfl⟩ := hend.eq_of_limit
        have hstop : ∀ l ∈ limit, ((offset + bytes.length : Nat) : Int) ≤ l := by
          intro l hl
          simp only [Bool.or_eq_true, not_or, Bool.not_eq_true, any_lt_eq_false_iff] at hroom
          have hle := hroom.2 l hl
          omega
        dsimp only [relocateOutcome, relocateResult, Prod.map]
        rw [Input.relocated_plain]
        apply hbodies k hstop record sizes tail (body :: done) events'

/-- Blocks and bodies are read alike further on, in any number of steps. -/
theorem relocates (steps : Nat) :
  d.FrameRelocates steps ∧ d.BodiesRelocate steps
  := by
  induction steps with
  | zero =>
    constructor
    · intro k limit offset hlimit rest done events
      rw [frame, frame]
      simp only [relocateOutcome, relocateResult, DecodeError.relocated, Nat.cast_add]
    · intro k limit offset hlimit record sizes rest done events
      cases sizes with
      | nil => apply bodies_nil_relocated
      | cons named sizes =>
        simp [Decoder.bodies, relocateOutcome, relocateResult, DecodeError.relocated]
  | succ steps ih => exact ⟨frame_relocates_succ ih.1 ih.2, bodies_relocate_succ ih.1 ih.2⟩

/-- A block is read alike further on, with its limit further on as well. -/
theorem block_relocated (k : Nat) {limit : Option Int} {offset : Nat}
    (hlimit : ∀ l ∈ limit, (offset : Int) ≤ l) (rest : Bytes) :
  d.block (limit.map (· + k)) (.plain (offset + k) rest)
    = relocateOutcome k (Prod.map (blockRelocated k) (Input.relocated k))
      (d.block limit (.plain offset rest))
  := by
  rw [block, block, ← Framed.finish_relocated, ← (relocates _).1 k hlimit rest [] []]
  rfl

/-- The block at a cursor is the block of the whole bytes ahead of it, further on. -/
theorem block_pending {s t : BitStream} (ht : t = .ofBytes s.pending) (size : Option Nat) :
  d.block ((size.map Nat.cast).map ((s.position : Int) + ·)) (.plain s.position s.pending)
    = relocateOutcome s.position (Prod.map (blockRelocated s.position) (Input.relocated s.position))
      (d.block ((size.map Nat.cast).map ((t.position : Int) + ·)) (.plain t.position t.pending))
  := by
  have hlimit : ∀ l ∈ (size.map Nat.cast).map (((0 : Nat) : Int) + ·), ((0 : Nat) : Int) ≤ l := by
    cases size <;> simp
  have hmap : (size.map Nat.cast).map ((s.position : Int) + ·)
      = ((size.map Nat.cast).map (((0 : Nat) : Int) + ·)).map (· + (s.position : Int)) := by
    cases size <;> simp [add_comm]
  rw [ht, position_ofBytes, pending_ofBytes, hmap, ← block_relocated s.position hlimit, zero_add]

end Decoder

/-! ### The theorem -/

/-- A block is read at a cursor as it is read from the start of the byte string that the whole bytes
ahead of the cursor make, however much of a byte is before the cursor. The offset of the byte that
the cursor is in is added to the offset of every action at every level, of every event and
diagnostic, and to the offset and the destination of an error; and the cursor ends behind the bytes
that were read. -/
theorem scanBlock_relocated (d : Decoder) {s : BitStream} (hs : s.Ready) (size : Option Nat) :
  d.scanBlock s (size.map Nat.cast) = d.readBlock s (size.map Nat.cast)
    ∧ s.pending.length = (s.length - s.cursor.toNat) / 8
    ∧ (d.scanBlock s (size.map Nat.cast)).events
      = (d.scanBlock (.ofBytes s.pending) (size.map Nat.cast)).events.map
        (Event.relocated (s.cursor / 8))
    ∧ (d.scanBlock s (size.map Nat.cast)).diagnostics
      = (d.scanBlock (.ofBytes s.pending) (size.map Nat.cast)).diagnostics.map
        (DecodeError.relocated (s.cursor / 8))
    ∧ ((∃ e, (d.scanBlock (.ofBytes s.pending) (size.map Nat.cast)).result = .error e
        ∧ (d.scanBlock s (size.map Nat.cast)).result = .error (e.relocated (s.cursor / 8)))
      ∨ ∃ (actions : List Action) (consumed : Nat), consumed ≤ s.pending.length
        ∧ (d.scanBlock (.ofBytes s.pending) (size.map Nat.cast)).result
          = .ok (actions, 8 * consumed)
        ∧ (d.scanBlock s (size.map Nat.cast)).result
          = .ok (blockRelocated (s.cursor / 8) actions, s.cursor + 8 * consumed))
  := by
  generalize ht : ofBytes s.pending = t
  have hready : t.Ready := ht ▸ ready_ofBytes s.pending
  have hblock := Decoder.block_pending (d := d) ht.symm size
  suffices h : (d.scanBlock s (size.map Nat.cast)).events
      = (d.scanBlock t (size.map Nat.cast)).events.map (Event.relocated (s.cursor / 8)) ∧ _ by
    refine ⟨Decoder.scanBlock_eq hs _, hs.length_pending, h.1, ?_, h.2⟩
    rw [Decoded.diagnostics, h.1, filterMap_diagnostic?_relocated]
    rfl
  rw [← hs.position_eq]
  rcases hthere : d.block ((size.map Nat.cast).map ((t.position : Int) + ·))
    (.plain t.position t.pending) with ⟨e | ⟨actions, next⟩, events⟩
  · rw [hthere] at hblock
    rw [Decoder.scanBlock_of_error hs hblock, Decoder.scanBlock_of_error hready hthere]
    exact ⟨List.map_reverse.symm, .inl ⟨e, rfl, rfl⟩⟩
  · rw [hthere] at hblock
    obtain ⟨k, hk, hnext, hhere⟩ := Decoder.scanBlock_of_ok hs hblock
    obtain ⟨j, -, hnext', hstart⟩ := Decoder.scanBlock_of_ok hready hthere
    subst ht
    obtain rfl : j = k := by
      simp only [Input.relocated, position_ofBytes] at hnext hnext'
      omega
    rw [hhere, hstart]
    refine ⟨List.map_reverse.symm, .inr ⟨actions, j, hk, ?_, rfl⟩⟩
    simp [ofBytes]

/-- A jump to the action after it, an action without an entry and the end of the block, from the
middle of the second byte on. -/
def BitStream.straddling : BitStream :=
  ⟨[0xFF, 0xA9, 0x90, 0x20, 0x00, 0x00, 0x00, 0x20, 0x00], 72, 12⟩

theorem scanBlock_relocated_straddling :
  straddling.Ready ∧ straddling.pending = [0x99, 0x02, 0x00, 0x00, 0x00, 0x02, 0x00]
    ∧ (Decoder.scanBlock ⟨.shared, false⟩ straddling none).diagnostics = [.unknownCode 2 6]
    ∧ ∃ actions : List Action,
      (Decoder.scanBlock ⟨.shared, false⟩ (.ofBytes straddling.pending) none).result
          = .ok (actions, 56)
        ∧ (Decoder.scanBlock ⟨.shared, false⟩ straddling none).result
          = .ok (blockRelocated 1 actions, 68)
  := by
  have hready : straddling.Ready := ⟨⟨by decide, by decide⟩, by decide⟩
  have hpending : straddling.pending = [0x99, 0x02, 0x00, 0x00, 0x00, 0x02, 0x00] := by decide
  have hthere : (Decoder.scanBlock ⟨.shared, false⟩ (.ofBytes straddling.pending)
      none).result.toOption.map Prod.snd = some 56 := by
    decide +kernel
  obtain ⟨-, -, -, hdiagnostics, ⟨e, herror, -⟩ | ⟨actions, consumed, -, hok, hhere⟩⟩ :=
    scanBlock_relocated ⟨.shared, false⟩ hready none
  · rw [Option.map_none] at herror
    rw [herror] at hthere
    cases hthere
  · rw [Option.map_none] at hok hhere hdiagnostics
    rw [hok] at hthere
    obtain rfl : consumed = 7 := by
      have h := Option.some.inj hthere
      omega
    exact ⟨hready, hpending, hdiagnostics.trans (by decide +kernel), actions, hok, hhere⟩

end ActionBlock
