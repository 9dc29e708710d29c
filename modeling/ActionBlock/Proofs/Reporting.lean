import ActionBlock.Proofs.Extent

/-!
# What a decoder reports

A decoder reports an action code that its table does not list when it reads the record, before the
bodies and the actions after it. What it has reported when a block is read can therefore be told
from the actions of the block: it is the list of the actions without an entry, each before those of
the actions that follow it.
-/

namespace ActionBlock

/-- What is reported about a record, by the offset at which it was read. -/
def Record.report? (r : Record) : Option DecodeError :=
  match r.kind, r.offset with
  | .unlisted code, .int offset => some (.unknownCode code offset)
  | _, _ => none

mutual

/-- What is reported about an action and the actions in its bodies. -/
def Action.reports : Action → List DecodeError
  | .mk _ record bodies => record.report?.toList ++ bodiesReports bodies

/-- What is reported about the actions of bodies. -/
def bodiesReports : List (List Action) → List DecodeError
  | [] => []
  | body :: bodies => blockReports body ++ bodiesReports bodies

/-- What is reported about the actions of a block. -/
def blockReports : List Action → List DecodeError
  | [] => []
  | a :: actions => a.reports ++ blockReports actions

end

theorem blockReports_eq_flatten (actions : List Action) :
  blockReports actions = (actions.map Action.reports).flatten
  := by
  induction actions with
  | nil => rfl
  | cons a actions ih => rw [blockReports, ih, List.map_cons, List.flatten_cons]

theorem Action.reports_withTarget (t : Nat) (a : Action) :
  (a.withTarget t).reports = a.reports
  := by
  cases a
  rfl

/-- Resolving the branches does not change what is reported of a block. -/
theorem blockReports_of_resolve {placed : List Placed} {stop : Int} {actions : List Action}
    (h : resolve placed stop = .ok actions) :
  blockReports actions = blockReports (placed.map Placed.action)
  := by
  rw [blockReports_eq_flatten, blockReports_eq_flatten, map_of_resolve Action.reports_withTarget h]

/-! ### One record -/

namespace Decoder

variable {d : Decoder}

/-- The event for a record is what is reported about it. -/
theorem diagnostics_event? {offset code : Int} {operands : Bytes} {frame : Frame}
    (h : d.record offset code operands = .ok frame) :
  (frame.event? offset).toList.filterMap Event.diagnostic? = frame.record.report?.toList
  := by
  obtain ⟨-, -, rfl⟩ | ⟨_, _, _, _, -, -, rfl⟩ := record_eq_ok_iff.mp h
  · rfl
  · rfl

theorem diagnostics_block_cons (actions branches : Nat) (stop : Int) (events : List Event) :
  (Event.block actions branches stop :: events).filterMap Event.diagnostic?
    = events.filterMap Event.diagnostic?
  := rfl

/-! ### Blocks and bodies -/

/-- Framing a block with a number of steps adds what is reported about its actions, the latest
first. -/
def FrameReports (d : Decoder) (steps : Nat) : Prop :=
  ∀ {limit : Option Int} {input : Input} {done : List Placed} {events events' : List Event}
    {framed : Framed}, d.frame limit steps input done events = (.ok framed, events') →
  ∃ placed, framed.actions = done.reverse ++ placed
    ∧ events'.filterMap Event.diagnostic?
      = (blockReports (placed.map Placed.action)).reverse ++ events.filterMap Event.diagnostic?

/-- Reading bodies with a number of steps adds what is reported about their actions, the latest
first. -/
def BodiesReport (d : Decoder) (steps : Nat) : Prop :=
  ∀ {limit : Option Int} {record : Record} {sizes : List (String × Nat)} {input next : Input}
    {done bodies : List (List Action)} {events events' : List Event},
  d.bodies limit steps record sizes input done events = (.ok (bodies, next), events') →
  ∃ new, bodies = done.reverse ++ new
    ∧ events'.filterMap Event.diagnostic?
      = (bodiesReports new).reverse ++ events.filterMap Event.diagnostic?

/-- The reader of blocks reports what its actions call for, given that the readers do for fewer
steps. -/
theorem frame_reports_of {steps : Nat} (ih : ∀ s < steps, d.FrameReports s ∧ d.BodiesReport s) :
  d.FrameReports steps
  := by
  intro limit input done events events' framed h
  cases steps with
  | zero =>
    rw [frame] at h
    cases h
  | succ steps =>
    obtain ⟨hframe, hbodies⟩ := ih steps (Nat.lt_succ_self steps)
    rw [frame] at h
    split at h
    · cases h
    · obtain ⟨rfl, rfl⟩ := h
      exact ⟨[], by simp, by simp [blockReports]⟩
    · rename_i frame next hnext
      obtain ⟨code, operands, hrecord⟩ := exists_record_of_upcoming hnext
      dsimp only at h
      split at h
      · cases h
      · rename_i bodies next events'' hread
        obtain ⟨new, hbodiesNew, hnew⟩ := hbodies hread
        obtain rfl : bodies = new := hbodiesNew
        obtain ⟨placed, hplaced, hevents⟩ := hframe h
        rw [hnew, List.filterMap_append, diagnostics_event? hrecord] at hevents
        refine ⟨⟨input.offset, .mk none frame.record bodies⟩ :: placed, ?_, ?_⟩
        · simpa using hplaced
        · rw [hevents, List.map_cons, blockReports, Action.reports]
          cases frame.record.report? <;> simp

/-- The reader of bodies reports what they call for, given that the readers do for fewer steps. -/
theorem bodies_report_of {steps : Nat} (ih : ∀ s < steps, d.FrameReports s ∧ d.BodiesReport s) :
  d.BodiesReport steps
  := by
  intro limit record sizes input next done bodies events events' h
  cases sizes with
  | nil =>
    rw [bodies_nil] at h
    obtain ⟨⟨rfl, rfl⟩, rfl⟩ := h
    exact ⟨[], by simp, by simp [bodiesReports]⟩
  | cons named sizes =>
    cases steps with
    | zero => simp [Decoder.bodies] at h
    | succ steps =>
      obtain ⟨hframe, hbodies⟩ := ih steps (Nat.lt_succ_self steps)
      rw [Decoder.bodies] at h
      split at h
      · cases h
      split at h
      · cases h
      rename_i body next' events'' hbody
      obtain ⟨framed, earlier, hframed, hresolve, rfl, rfl⟩ := Framed.finish_eq_ok_iff.mp hbody
      obtain ⟨placed, hplaced, hearlier⟩ := hframe hframed
      obtain ⟨new, rfl, hevents⟩ := hbodies h
      rw [hplaced, List.reverse_nil, List.nil_append] at hresolve
      refine ⟨body :: new, by simp, ?_⟩
      rw [hevents, diagnostics_block_cons, hearlier, bodiesReports,
        blockReports_of_resolve hresolve, List.reverse_append, List.append_assoc]

/-- The reader of blocks and the reader of bodies report exactly what the actions they read call
for. -/
theorem reports (steps : Nat) :
  d.FrameReports steps ∧ d.BodiesReport steps
  := by
  induction steps using Nat.strong_induction_on with
  | _ steps ih => exact ⟨frame_reports_of ih, bodies_report_of ih⟩

/-! ### Byte strings -/

/-- What is reported when a byte string is read, whether that succeeds or not. -/
theorem diagnostics_read_ofBytes (data : Bytes) :
  (d.read (.ofBytes data)).diagnostics
    = ((d.block none (.plain 0 data)).2.filterMap Event.diagnostic?).reverse
  := by
  have hblock : (d.readBlock (.ofBytes data) none).diagnostics
      = ((d.block none (.plain 0 data)).2.filterMap Event.diagnostic?).reverse := by
    rw [readBlock, ofStream_ofBytes, if_neg (by simp)]
    dsimp only [Option.map]
    rcases d.block none (.plain 0 data) with ⟨_ | ⟨actions, next⟩, events⟩
    · apply List.filterMap_reverse
    · apply List.filterMap_reverse
  rw [← hblock, read]
  dsimp only
  split
  · rfl
  · -- The events after the block tell of no action code.
    rw [Decoded.diagnostics, List.filterMap_append, List.filterMap_append, Decoded.diagnostics]
    split <;> simp [Event.diagnostic?]

/-- What is reported when a byte string is read, about the actions that it is read as. -/
theorem diagnostics_of_read {data : Bytes} {actions : List Action} {cursor : Int}
    (h : (d.read (.ofBytes data)).result = .ok (actions, cursor)) :
  (d.read (.ofBytes data)).diagnostics = blockReports actions
  := by
  rw [read_ofBytes, map_eq_ok_iff] at h
  obtain ⟨⟨actions', next⟩, hblock, hresult⟩ := h
  obtain ⟨rfl, -⟩ := Prod.mk.inj hresult
  have hrun : d.block none (.plain 0 data)
      = (.ok (actions', next), (d.block none (.plain 0 data)).2) := Prod.ext hblock rfl
  obtain ⟨framed, earlier, hframed, hresolve, -, hevents⟩ := Framed.finish_eq_ok_iff.mp hrun
  obtain ⟨placed, hplaced, hearlier⟩ := (reports _).1 hframed
  rw [hplaced, List.reverse_nil, List.nil_append] at hresolve
  rw [diagnostics_read_ofBytes, ← hevents, diagnostics_block_cons, hearlier,
    blockReports_of_resolve hresolve, List.filterMap_nil, List.append_nil, List.reverse_reverse]

end Decoder

end ActionBlock
