import ActionBlock.Opcode.Standard
import ActionBlock.Proofs.Reporting

/-!
# Strict decoders

A strict decoder refuses the first action code that its table does not list, where another one keeps
the action and reports it. Up to that code the two do the same: a code is looked for in the table
once its record is complete, and before anything else is made of it. So nothing that comes later can
make the strict decoder fail in another way, and nothing that came earlier has made it fail already.

What is reported while a block is read lists the actions without an entry in the order of their
records, those of a body after the action that the body belongs to.
-/

namespace ActionBlock

/-! ### Outcomes -/

/-- How a strict decoder ends, given how one ends that keeps unlisted action codes, both with the
same events behind them. If no code was reported since, the two end alike; otherwise the strict
decoder has failed with the first report. -/
def Refused {α : Type} (events : List Event) (kept strict : Outcome α) : Prop :=
  ∃ new, kept.2 = new ++ events
    ∧ (new.filterMap Event.diagnostic? = [] ∧ strict = kept
      ∨ ∃ e, (new.filterMap Event.diagnostic?).getLast? = some e ∧ strict.1 = .error e)

namespace Refused

variable {α β : Type} {new events : List Event} {kept strict : Outcome α}

theorem of_eq (h : kept.2 = events) :
  Refused events kept kept
  := by
  use []
  exact ⟨h, .inl ⟨rfl, rfl⟩⟩

/-- Events that report nothing make no difference. -/
theorem of_append (h : Refused (new ++ events) kept strict)
    (hnew : new.filterMap Event.diagnostic? = []) :
  Refused events kept strict
  := by
  obtain ⟨more, hmore, hcases⟩ := h
  use more ++ new
  rw [List.filterMap_append, hnew, List.append_nil, List.append_assoc]
  exact ⟨hmore, hcases⟩

/-- Once the strict decoder has failed, whatever the other one does next makes no difference. -/
theorem of_reported {e : DecodeError} {strict' : Outcome α}
    (h : Refused (new ++ events) kept strict')
    (hnew : (new.filterMap Event.diagnostic?).getLast? = some e) (hstrict : strict.1 = .error e) :
  Refused events kept strict
  := by
  obtain ⟨more, hmore, -⟩ := h
  use more ++ new
  constructor
  · rw [hmore, List.append_assoc]
  · right
    use e
    rw [List.filterMap_append, List.getLast?_append, hnew, Option.some_or]
    exact ⟨rfl, hstrict⟩

end Refused

/-- What is done with the value of an outcome, if it has one. -/
def Outcome.andThen {α β : Type} (outcome : Outcome α) (next : α → List Event → Outcome β) :
    Outcome β :=
  match outcome with
  | (.error e, events) => (.error e, events)
  | (.ok a, events) => next a events

/-- If the strict decoder ends as it should in two parts, then it does in both together. -/
theorem Refused.andThen {α β : Type} {events : List Event} {kept strict : Outcome α}
    {next next' : α → List Event → Outcome β} (h : Refused events kept strict)
    (hnext : ∀ a events, Refused events (next a events) (next' a events)) :
  Refused events (kept.andThen next) (strict.andThen next')
  := by
  obtain ⟨new, hevents, hcases⟩ := h
  obtain ⟨result, earlier⟩ := kept
  obtain rfl : earlier = new ++ events := hevents
  have hkept : ∃ strict',
      Refused (new ++ events) (Outcome.andThen (result, new ++ events) next) strict'
      ∧ (strict = (result, new ++ events) → strict.andThen next' = strict') := by
    cases result with
    | error e =>
      use (.error e, new ++ events), Refused.of_eq rfl
      rintro rfl
      rfl
    | ok a =>
      use next' a (new ++ events), hnext a _
      rintro rfl
      rfl
  obtain ⟨strict', hrefused, hstrict⟩ := hkept
  obtain ⟨hnew, hsame⟩ | ⟨e, hlast, herror⟩ := hcases
  · rw [hstrict hsame]
    apply hrefused.of_append hnew
  · apply hrefused.of_reported hlast
    obtain ⟨strictResult, strictEvents⟩ := strict
    obtain rfl : strictResult = .error e := herror
    rfl

/-- Resolving the branches keeps what was refused refused. -/
theorem Refused.finish {events : List Event} {kept strict : Outcome Framed}
    (h : Refused events kept strict) :
  Refused events (Framed.finish kept) (Framed.finish strict)
  := by
  have hfinish : ∀ outcome : Outcome Framed, Framed.finish outcome
      = outcome.andThen fun framed events => Framed.finish (.ok framed, events) := by
    rintro ⟨_ | _, _⟩
    · rfl
    · rfl
  rw [hfinish kept, hfinish strict]
  apply h.andThen
  intro framed events
  rw [Framed.finish]
  cases resolve framed.actions framed.stop with
  | error e => apply Refused.of_eq rfl
  | ok actions =>
    use [.block actions.length (actions.filter Action.isBranch).length framed.stop]
    exact ⟨rfl, .inl ⟨rfl, rfl⟩⟩

/-! ### What stands next -/

theorem Event.filterMap_toList (event : Option Event) :
  event.toList.filterMap Event.diagnostic? = (event.bind Event.diagnostic?).toList
  := by
  cases event with
  | none => rfl
  | some event => cases event <;> rfl

/-- What stands next in a block at an offset, for a decoder that refuses what would be reported. -/
def Upcoming.refused (offset : Int) : Upcoming → Upcoming
  | record frame next =>
    match (frame.event? offset).bind Event.diagnostic? with
    | some e => failure e
    | none => record frame next
  | upcoming => upcoming

namespace Decoder

variable {t : OpcodeTable}

/-- The record of a code that would be reported is refused. -/
theorem record_strict (offset code : Int) (operands : Bytes) :
  (∃ frame, record ⟨t, false⟩ offset code operands = .ok frame
      ∧ frame.event? offset = some (.unknown code offset)
      ∧ record ⟨t, true⟩ offset code operands = .error (.unknownCode code offset))
    ∨ (record ⟨t, true⟩ offset code operands = record ⟨t, false⟩ offset code operands
      ∧ ∀ frame, record ⟨t, false⟩ offset code operands = .ok frame → frame.event? offset = none)
  := by
  cases hentry : t.find? code with
  | none =>
    left
    use .unlisted offset code operands
    simp [record, hentry, Frame.event?, Frame.unlisted]
  | some entry =>
    right
    constructor
    · simp only [record, hentry]
    · intro frame hframe
      obtain ⟨hnone, -⟩ | ⟨_, _, _, _, -, -, rfl⟩ := record_eq_ok_iff.mp hframe
      · rw [hentry] at hnone
        cases hnone
      · rfl

/-- A strict decoder refuses what another one would report, and nothing else. -/
theorem upcoming_strict (limit : Option Int) (input : Input) :
  upcoming ⟨t, true⟩ limit input = (upcoming ⟨t, false⟩ limit input).refused input.offset
  := by
  rw [upcoming, upcoming]
  split
  · rfl
  split
  · rfl
  rename_i code rest _
  dsimp only
  split
  · rfl
  split
  · rfl
  rename_i operands next _
  obtain ⟨frame, hframe, hevent, hstrict⟩ | ⟨hsame, hnone⟩ :=
    record_strict (t := t) input.offset code.toNat operands
  · simp only [hframe, hstrict, Upcoming.refused, hevent]
    rfl
  · rw [hsame]
    cases hframe : record ⟨t, false⟩ input.offset code.toNat operands with
    | error e => rfl
    | ok frame => simp only [Upcoming.refused, hnone frame hframe, Option.bind_none]

/-! ### Blocks and bodies -/

/-- Framing a block with a number of steps, the strict decoder ends as it should. -/
def FrameRefused (t : OpcodeTable) (steps : Nat) : Prop :=
  ∀ (limit : Option Int) (input : Input) (done : List Placed) (events : List Event),
  Refused events (frame ⟨t, false⟩ limit steps input done events)
    (frame ⟨t, true⟩ limit steps input done events)

/-- Reading bodies with a number of steps, the strict decoder ends as it should. -/
def BodiesRefused (t : OpcodeTable) (steps : Nat) : Prop :=
  ∀ (limit : Option Int) (record : Record) (sizes : List (String × Nat)) (input : Input)
    (done : List (List Action)) (events : List Event),
  Refused events (bodies ⟨t, false⟩ limit steps record sizes input done events)
    (bodies ⟨t, true⟩ limit steps record sizes input done events)

/-- At a record the reader of blocks reports it, reads its bodies and goes on behind them. -/
theorem frame_of_record {d : Decoder} {limit : Option Int} {steps : Nat} {input next : Input}
    {frame : Frame} (h : d.upcoming limit input = .record frame next) (done : List Placed)
    (events : List Event) :
  d.frame limit (steps + 1) input done events
    = (d.bodies limit steps frame.record frame.bodySizes next []
        ((frame.event? input.offset).toList ++ events)).andThen
      fun read => d.frame limit steps read.2
        (⟨input.offset, .mk none frame.record read.1⟩ :: done)
  := by
  rw [Decoder.frame, h]
  dsimp only
  rcases d.bodies limit steps frame.record frame.bodySizes next []
    ((frame.event? input.offset).toList ++ events) with ⟨_ | _, _⟩
  · rfl
  · rfl

/-- A body with room for it is read as a block of its size. -/
theorem bodies_of_room {d : Decoder} {limit : Option Int} {steps size : Nat} {input : Input}
    (h : (!Bytes.hasAtLeast size input.rest || limit.any (· < input.offset + size)) = false)
    (record : Record) (bodyName : String) (sizes : List (String × Nat))
    (done : List (List Action)) (events : List Event) :
  d.bodies limit (steps + 1) record ((bodyName, size) :: sizes) input done events
    = (Framed.finish (d.frame (some (input.offset + size)) steps input [] events)).andThen
      fun read => d.bodies limit steps record sizes read.2 (read.1 :: done)
  := by
  rw [Decoder.bodies, if_neg (Bool.not_eq_true _ ▸ h)]
  rcases Framed.finish (d.frame (some (input.offset + size)) steps input [] events) with ⟨_ | _, _⟩
  · rfl
  · rfl

/-- One more action is refused alike, given that its bodies and the rest of the block are. -/
theorem frame_refused_succ {steps : Nat} (hframe : FrameRefused t steps)
    (hbodies : BodiesRefused t steps) :
  FrameRefused t (steps + 1)
  := by
  intro limit input done events
  have hstrict := upcoming_strict (t := t) limit input
  cases hnext : upcoming ⟨t, false⟩ limit input with
  | finish next =>
    rw [hnext] at hstrict
    rw [frame, frame, hnext, hstrict]
    apply Refused.of_eq rfl
  | failure e =>
    rw [hnext] at hstrict
    rw [frame, frame, hnext, hstrict]
    apply Refused.of_eq rfl
  | record frame next =>
    rw [hnext, Upcoming.refused] at hstrict
    -- What both make of the record if neither refuses it, with the event for it behind them.
    have hrest := (hbodies limit frame.record frame.bodySizes next []
      ((frame.event? input.offset).toList ++ events)).andThen fun read =>
        hframe limit read.2 (⟨input.offset, .mk none frame.record read.1⟩ :: done)
    have hreports := Event.filterMap_toList (frame.event? input.offset)
    rw [frame_of_record hnext]
    cases hevent : (frame.event? input.offset).bind Event.diagnostic? with
    | none =>
      rw [hevent] at hstrict hreports
      rw [frame_of_record hstrict]
      apply hrest.of_append hreports
    | some e =>
      rw [hevent] at hstrict hreports
      rw [Decoder.frame, hstrict]
      apply hrest.of_reported _ rfl
      rw [hreports]
      rfl

/-- One more body is refused alike, given that its block and the bodies after it are. -/
theorem bodies_refused_succ {steps : Nat} (hframe : FrameRefused t steps)
    (hbodies : BodiesRefused t steps) :
  BodiesRefused t (steps + 1)
  := by
  intro limit record sizes input done events
  cases sizes with
  | nil => apply Refused.of_eq rfl
  | cons named sizes =>
    obtain ⟨bodyName, size⟩ := named
    cases hroom : !Bytes.hasAtLeast size input.rest || limit.any (· < input.offset + size) with
    | true =>
      rw [Decoder.bodies, Decoder.bodies, if_pos hroom, if_pos hroom]
      apply Refused.of_eq rfl
    | false =>
      rw [bodies_of_room hroom, bodies_of_room hroom]
      apply (hframe _ _ _ _).finish.andThen
      intro read
      apply hbodies

/-- The strict readers do what the others do up to the first diagnostic, and fail with it. -/
theorem refused (steps : Nat) :
  FrameRefused t steps ∧ BodiesRefused t steps
  := by
  induction steps with
  | zero =>
    constructor
    · intro _ _ _ _
      apply Refused.of_eq rfl
    · intro _ _ sizes _ _ _
      cases sizes with
      | nil => apply Refused.of_eq rfl
      | cons => apply Refused.of_eq rfl
  | succ steps ih =>
    exact ⟨frame_refused_succ ih.1 ih.2, bodies_refused_succ ih.1 ih.2⟩

/-- The outermost block of a byte string. -/
theorem block_refused (data : Bytes) :
  Refused [] (block ⟨t, false⟩ none (.plain 0 data)) (block ⟨t, true⟩ none (.plain 0 data))
  := ((refused _).1 _ _ _ _).finish

/-- What is read depends only on the block that is. -/
theorem read_congr {d d' : Decoder} {data : Bytes}
    (h : d.block none (.plain 0 data) = d'.block none (.plain 0 data)) :
  d.read (.ofBytes data) = d'.read (.ofBytes data)
  := by
  have hblock : d.readBlock (.ofBytes data) none = d'.readBlock (.ofBytes data) none := by
    simp only [readBlock, ofStream_ofBytes, Option.map_none, h]
  simp only [read, hblock]

/-- Without a diagnostic, strict reading makes no difference. -/
theorem read_eq_of_diagnostics_nil {data : Bytes}
    (h : (read ⟨t, false⟩ (.ofBytes data)).diagnostics = []) :
  read ⟨t, true⟩ (.ofBytes data) = read ⟨t, false⟩ (.ofBytes data)
  := by
  obtain ⟨new, hnew, hcases⟩ := block_refused (t := t) data
  rw [diagnostics_read_ofBytes, hnew, List.append_nil, List.reverse_eq_nil_iff] at h
  obtain ⟨-, hsame⟩ | ⟨e, hlast, -⟩ := hcases
  · apply read_congr hsame
  · rw [h] at hlast
    cases hlast

/-- Strict reading fails with the first diagnostic. -/
theorem result_of_diagnostics_cons {data : Bytes} {e : DecodeError} {rest : List DecodeError}
    (h : (read ⟨t, false⟩ (.ofBytes data)).diagnostics = e :: rest) :
  (read ⟨t, true⟩ (.ofBytes data)).result = .error e
  := by
  obtain ⟨new, hnew, hcases⟩ := block_refused (t := t) data
  rw [diagnostics_read_ofBytes, hnew, List.append_nil] at h
  obtain ⟨hnone, -⟩ | ⟨e', hlast, herror⟩ := hcases
  · rw [hnone] at h
    cases h
  · rw [← List.head?_reverse, h] at hlast
    obtain rfl := Option.some.inj hlast
    rw [read_ofBytes, herror]
    rfl

/-- A diagnostic is always about an unknown code. -/
theorem exists_unknownCode_of_mem {run : Decoded} {e : DecodeError} (h : e ∈ run.diagnostics) :
  ∃ code offset, e = .unknownCode code offset
  := by
  obtain ⟨event, -, hevent⟩ := List.mem_filterMap.mp h
  cases event with
  | unknown code offset =>
    use code, offset
    rw [Option.some.inj hevent]
  | _ => cases hevent

end Decoder

/-! ### Actions without an entry -/

/-- The action code and the offset of a record that has no entry. -/
def Record.unlisted? (r : Record) : Option (Value × Value) :=
  match r.kind with
  | .unlisted _ => some (r.code, r.offset)
  | _ => none

mutual

/-- The action codes and the offsets of the actions without an entry, of an action and then of those
in its bodies. -/
def Action.unlisted : Action → List (Value × Value)
  | .mk _ record bodies => record.unlisted?.toList ++ bodiesUnlisted bodies

/-- The action codes and the offsets of the actions without an entry in bodies. -/
def bodiesUnlisted : List (List Action) → List (Value × Value)
  | [] => []
  | body :: bodies => blockUnlisted body ++ bodiesUnlisted bodies

/-- The action codes and the offsets of the actions without an entry in a block. -/
def blockUnlisted : List Action → List (Value × Value)
  | [] => []
  | a :: actions => a.unlisted ++ blockUnlisted actions

end

theorem blockUnlisted_eq_flatten (actions : List Action) :
  blockUnlisted actions = (actions.map Action.unlisted).flatten
  := by
  induction actions with
  | nil => rfl
  | cons a actions ih => rw [blockUnlisted, ih, List.map_cons, List.flatten_cons]

theorem Action.unlisted_withTarget (target : Nat) (a : Action) :
  (a.withTarget target).unlisted = a.unlisted
  := by
  cases a
  rfl

/-- Resolving the branches does not change which codes of a block are unlisted. -/
theorem blockUnlisted_of_resolve {placed : List Placed} {stop : Int} {actions : List Action}
    (h : resolve placed stop = .ok actions) :
  blockUnlisted actions = blockUnlisted (placed.map Placed.action)
  := by
  rw [blockUnlisted_eq_flatten, blockUnlisted_eq_flatten,
    map_of_resolve Action.unlisted_withTarget h]

/-- Reports of action codes at offsets, and the codes and offsets that actions have. -/
def Reported (reports : List DecodeError) (unlisted : List (Value × Value)) : Prop :=
  ∃ found : List (Int × Int), reports = found.map (fun p => .unknownCode p.1 p.2)
    ∧ unlisted = found.map fun p => (.int p.1, .int p.2)

theorem Reported.nil :
  Reported [] []
  := ⟨[], rfl, rfl⟩

/-- What is reported part by part is reported of the whole. -/
theorem Reported.append {reports reports' : List DecodeError}
    {unlisted unlisted' : List (Value × Value)}
    (h : Reported reports unlisted) (h' : Reported reports' unlisted') :
  Reported (reports ++ reports') (unlisted ++ unlisted')
  := by
  obtain ⟨found, rfl, rfl⟩ := h
  obtain ⟨found', rfl, rfl⟩ := h'
  use found ++ found'
  simp only [List.map_append, and_self]

namespace Decoder

variable {d : Decoder}

/-- A record that was read without an entry has the code and the offset that are reported. -/
theorem RecordAt.reported {offset : Nat} {record : Bytes} {frame : Frame}
    (h : d.RecordAt offset record frame) :
  Reported frame.record.report?.toList frame.record.unlisted?.toList
  := by
  obtain ⟨code, operands, hframe⟩ := h.exists_record
  obtain ⟨-, -, rfl⟩ | ⟨_, _, _, _, -, -, rfl⟩ := record_eq_ok_iff.mp hframe
  · use [(code, offset)]
    exact ⟨rfl, rfl⟩
  · apply Reported.nil

mutual

/-- What is reported about a block is about its actions without an entry. -/
theorem BlockAt.reported {outermost : Bool} :
  ∀ {offset : Nat} {bytes : Bytes} {placed : List Placed}, d.BlockAt outermost offset bytes placed →
    Reported (blockReports (placed.map Placed.action)) (blockUnlisted (placed.map Placed.action))
  | _, _, _, .nil => .nil
  | _, _, _, .cons hrecord _ hbodies hrest =>
    (hrecord.reported.append hbodies.reported).append hrest.reported

/-- What is reported about bodies is about their actions without an entry. -/
theorem BodiesAt.reported :
  ∀ {offset : Nat} {sizes : List Nat} {bytes : Bytes} {bodies : List (List Action)},
    d.BodiesAt offset sizes bytes bodies → Reported (bodiesReports bodies) (bodiesUnlisted bodies)
  | _, _, _, _, .nil => .nil
  | _, _, _, _, .cons _ hbody hresolve hrest => by
    rw [bodiesReports, bodiesUnlisted, blockReports_of_resolve hresolve,
      blockUnlisted_of_resolve hresolve]
    apply hbody.reported.append hrest.reported

end

/-- A reading reports exactly the unlisted codes of what it reads, in order. -/
theorem reported_of_read {data : Bytes} {actions : List Action} {cursor : Int}
    (h : (d.read (.ofBytes data)).result = .ok (actions, cursor)) :
  Reported (d.read (.ofBytes data)).diagnostics (blockUnlisted actions)
  := by
  rw [diagnostics_of_read h]
  obtain ⟨bytes, tail, placed, -, hblock, hresolve, -⟩ := read_ofBytes_eq_ok_iff.mp h
  rw [blockReports_of_resolve hresolve, blockUnlisted_of_resolve hresolve]
  apply hblock.reported

end Decoder

/-! ### The theorem -/

/-- What a strict decoder makes of a byte string follows from what another one with the same table
reports, whether or not that one can read it. If nothing is reported, the two do the same. Otherwise
the strict decoder fails because of the action code that is reported first, at its offset. And if
the other one can read the byte string, its reports are the codes and the offsets of the actions
without an entry that it has read, each before those in its bodies and those after it. -/
theorem read_strict (t : OpcodeTable) (data : Bytes) :
  ((Decoder.read ⟨t, false⟩ (.ofBytes data)).diagnostics = [] →
      Decoder.read ⟨t, true⟩ (.ofBytes data) = Decoder.read ⟨t, false⟩ (.ofBytes data))
    ∧ (∀ e rest, (Decoder.read ⟨t, false⟩ (.ofBytes data)).diagnostics = e :: rest →
      (Decoder.read ⟨t, true⟩ (.ofBytes data)).result = .error e
        ∧ ∃ code offset, e = .unknownCode code offset)
    ∧ ∀ actions cursor, (Decoder.read ⟨t, false⟩ (.ofBytes data)).result = .ok (actions, cursor) →
      ∃ found : List (Int × Int),
        (Decoder.read ⟨t, false⟩ (.ofBytes data)).diagnostics
            = found.map (fun p => .unknownCode p.1 p.2)
          ∧ blockUnlisted actions = found.map fun p => (.int p.1, .int p.2)
  := by
  use Decoder.read_eq_of_diagnostics_nil
  constructor
  · intro e rest he
    use Decoder.result_of_diagnostics_cons he
    apply Decoder.exists_unknownCode_of_mem
    rw [he]
    apply List.mem_cons_self
  · intro actions cursor hread
    apply Decoder.reported_of_read hread

/-- Two actions without an entry, the first in the body of a `with`, and a record that is cut off.
The strict decoder fails because of the first action, and does not come to the cut. -/
theorem read_strict_body :
  (Decoder.read ⟨.shared, false⟩ (.ofBytes [0x94, 0x02, 0x00, 0x01, 0x00, 0x01, 0x02, 0x96])).result
      = .error (.truncated .length 7 (some 0x96))
    ∧ (Decoder.read ⟨.shared, true⟩
        (.ofBytes [0x94, 0x02, 0x00, 0x01, 0x00, 0x01, 0x02, 0x96])).result
      = .error (.unknownCode 1 5)
  := by
  have hreports : (Decoder.read ⟨.shared, false⟩ (.ofBytes
      [0x94, 0x02, 0x00, 0x01, 0x00, 0x01, 0x02, 0x96])).diagnostics
      = [.unknownCode 1 5, .unknownCode 2 6] := by
    decide +kernel
  use rfl
  apply ((read_strict .shared _).2.1 _ _ hreports).1

end ActionBlock
