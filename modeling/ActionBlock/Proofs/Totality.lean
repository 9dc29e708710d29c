import ActionBlock.Opcode.Standard
import ActionBlock.Proofs.Scanning

/-!
# Reading always ends, and how it fails

A byte string is read, or reading fails because the bytes end too early, because a branch lands on
no action, or, if the decoder is strict, because a code is not in its table. There are always steps
enough, since each record takes a byte at least and each body a step that its record has paid for.
The error concerns an offset of the byte string.

The operations of the stream with which operands are read have other faults, and so does making a
pushed number or an action without an entry from what was read. None of them occurs: whatever the
bytes are, operands of every layout are read or found to be too short.
-/

namespace ActionBlock

open BitStream

/-! ### Errors -/

/-- The errors with which a decoder may end that reads from the start of a byte string. -/
def DecodeError.Expected (strict : Bool) : DecodeError → Prop
  | truncated .. | badLanding .. => True
  | unknownCode .. => strict = true
  | fault .. | exhausted _ => False

/-- An error of reading the bytes between two offsets. -/
structure DecodeError.Within (strict : Bool) (start stop : Nat) (e : DecodeError) : Prop where
  expected : e.Expected strict
  lower : (start : Int) ≤ e.offset
  upper : e.offset ≤ stop

/-- An error within a part of the input is within the whole. -/
theorem DecodeError.Within.mono {strict : Bool} {start start' stop stop' : Nat} {e : DecodeError}
    (h : e.Within strict start stop) (hstart : start' ≤ start) (hstop : stop ≤ stop') :
  e.Within strict start' stop'
  := by
  have hlower := h.lower
  have hupper := h.upper
  exact ⟨h.expected, by omega, by omega⟩

theorem DecodeError.Within.of_offset {strict : Bool} {start stop : Nat} {e : DecodeError}
    (hexpected : e.Expected strict) (hoffset : e.offset = start) (hstop : start ≤ stop) :
  e.Within strict start stop
  := ⟨hexpected, hoffset.ge, by omega⟩

/-- Finishing a block fails exactly when framing it did or a branch does not land. -/
theorem Framed.finish_eq_error_iff {outcome : Outcome Framed} {e : DecodeError}
    {events : List Event} :
  finish outcome = (.error e, events)
    ↔ outcome = (.error e, events)
      ∨ ∃ framed, outcome = (.ok framed, events) ∧ resolve framed.actions framed.stop = .error e
  := by
  obtain ⟨result, earlier⟩ := outcome
  cases result with
  | error e' => simp [finish]
  | ok framed =>
    cases hresolve : resolve framed.actions framed.stop with
    | ok actions => simp [finish, hresolve]
    | error e' =>
      simp only [finish, hresolve, Prod.mk.injEq, Except.error.injEq, reduceCtorEq, false_and,
        Except.ok.injEq, false_or]
      constructor
      · rintro ⟨rfl, rfl⟩
        exact ⟨framed, ⟨rfl, rfl⟩, hresolve⟩
      · rintro ⟨_, ⟨rfl, rfl⟩, herror⟩
        exact ⟨Except.error.inj (hresolve.symm.trans herror), rfl⟩

/-! ### Records -/

/-- Taking operands fails with a truncation only. -/
theorem takeOperands_eq_error {limit : Option Int} {offset code : Int} {length : Nat}
    {input : Input} {e : DecodeError} (h : takeOperands limit offset code length input = .error e) :
  ∃ shortfall, e = .truncated shortfall offset (some code)
  := by
  rw [takeOperands] at h
  split at h
  · exact ⟨_, (Except.error.inj h).symm⟩
  · split at h
    · cases h
    · exact ⟨_, (Except.error.inj h).symm⟩

/-- Reading a record's length and operands fails with a truncation only. -/
theorem frameOperands_eq_error {limit : Option Int} {offset code : Int} {input : Input}
    {e : DecodeError} (h : frameOperands limit offset code input = .error e) :
  ∃ shortfall, e = .truncated shortfall offset (some code)
  := by
  rw [frameOperands] at h
  split at h
  · cases h
  split at h
  · exact ⟨_, (Except.error.inj h).symm⟩
  split at h
  · apply takeOperands_eq_error h
  · exact ⟨_, (Except.error.inj h).symm⟩

namespace Decoder

variable {d : Decoder}

/-- Decoding a record fails with an expected error at its own offset. -/
theorem record_eq_error {offset code : Int} {operands : Bytes} {e : DecodeError}
    (h : d.record offset code operands = .error e) :
  e.Expected d.strict ∧ e.offset = offset
  := by
  rw [record] at h
  split at h
  · split at h
    · rename_i hstrict
      obtain rfl := Except.error.inj h
      exact ⟨hstrict, rfl⟩
    · cases h
  · split at h
    · obtain rfl := Except.error.inj h
      exact ⟨trivial, rfl⟩
    · cases h

/-- What makes no record fails at its own offset. -/
theorem upcoming_eq_failure {limit : Option Int} {input : Input} {e : DecodeError}
    (h : d.upcoming limit input = .failure e) :
  e.Expected d.strict ∧ e.offset = input.offset
  := by
  rw [upcoming] at h
  split at h
  · cases h
  split at h
  · obtain rfl := Upcoming.failure.inj h
    exact ⟨trivial, rfl⟩
  dsimp only at h
  split at h
  · cases h
  split at h
  · rename_i e' hoperands
    obtain rfl := Upcoming.failure.inj h
    obtain ⟨shortfall, rfl⟩ := frameOperands_eq_error hoperands
    exact ⟨trivial, rfl⟩
  split at h
  · rename_i e' hrecord
    obtain rfl := Upcoming.failure.inj h
    apply record_eq_error hrecord
  · cases h

/-! ### Blocks and bodies -/

/-- A branch that does not land is an action of its block. -/
theorem BlockAt.within_of_resolve {outermost strict : Bool} {offset : Nat} {bytes : Bytes}
    {placed : List Placed} {e : DecodeError} (h : d.BlockAt outermost offset bytes placed)
    (hresolve : resolve placed (offset + bytes.length : Nat) = .error e) :
  e.Within strict offset (offset + bytes.length)
  := by
  obtain ⟨hpairwise, hlower⟩ := h.pairwise_landings
  rw [ActionBlock.resolve_eq_mapM, mapM_eq_error_iff] at hresolve
  obtain ⟨before, ⟨p, stop⟩, after, hsplit, -, hland⟩ := hresolve
  obtain ⟨x, -, -, rfl⟩ := land_eq_error_iff.mp hland
  have hp : p ∈ placed := by
    have hzip : (p, stop) ∈ placed.zip _ := hsplit ▸ List.mem_append_right _ List.mem_cons_self
    exact (List.of_mem_zip hzip).1
  have hstart : p.start ∈ placed.map Placed.start := List.mem_map_of_mem hp
  refine ⟨trivial, hlower _ (List.mem_append_left _ hstart), ?_⟩
  apply le_of_lt
  exact (List.pairwise_append.mp hpairwise).2.2 _ hstart _ List.mem_cons_self

/-- A block that cannot be framed with more steps than bytes has an error of its own bytes. -/
def FrameFails (d : Decoder) (steps : Nat) : Prop :=
  ∀ {limit : Option Int} {offset : Nat} {rest : Bytes} {done : List Placed}
    {events events' : List Event} {e : DecodeError}, (∀ l ∈ limit, (offset : Int) ≤ l) →
  rest.length < steps →
  d.frame limit steps (.plain offset rest) done events = (.error e, events') →
  e.Within d.strict offset (offset + rest.length)

/-- Bodies that cannot be read with more steps than bytes and bodies have an error of their own
bytes. -/
def BodiesFail (d : Decoder) (steps : Nat) : Prop :=
  ∀ {limit : Option Int} {offset : Nat} {record : Record} {sizes : List (String × Nat)}
    {rest : Bytes} {done : List (List Action)} {events events' : List Event} {e : DecodeError},
  (∀ l ∈ limit, (offset : Int) ≤ l) → sizes.length + rest.length < steps →
  d.bodies limit steps record sizes (.plain offset rest) done events = (.error e, events') →
  e.Within d.strict offset (offset + rest.length)

/-- One more action fails as expected only, given that its bodies and the rest of the block do. -/
theorem frame_fails_succ {steps : Nat} (hframe : d.FrameFails steps)
    (hbodies : d.BodiesFail steps) :
  d.FrameFails (steps + 1)
  := by
  intro limit offset rest done events events' e hlimit hsteps h
  rw [frame] at h
  split at h
  · rename_i hfailure
    obtain ⟨hexpected, hoffset⟩ := upcoming_eq_failure hfailure
    obtain ⟨rfl, -⟩ := h
    exact .of_offset hexpected hoffset (Nat.le_add_right _ _)
  · cases h
  · rename_i frame next hnext
    obtain ⟨record, tail, rfl, hrecord, -, hstop, rfl⟩ := record_of_upcoming hnext
    have hpos := hrecord.length_pos
    have hsizes := hrecord.sizes_length_lt
    have hnames : frame.bodySizes.length = frame.sizes.length := by
      rw [← hrecord.map_bodySizes, List.length_map]
    rw [List.length_append] at hsteps ⊢
    dsimp only at h
    split at h
    · rename_i hread
      obtain ⟨rfl, -⟩ := h
      apply (hbodies hstop (by omega) hread).mono <;> omega
    · rename_i bodies next events'' hread
      obtain ⟨bodyBytes, tail, new, rfl, -, -, rfl, hstop⟩ := (sound steps).2 hstop hread
      rw [List.length_append] at hsteps ⊢
      apply (hframe hstop (by omega) h).mono <;> omega

/-- One more body fails as expected only, given that its block and the bodies after it do. -/
theorem bodies_fail_succ {steps : Nat} (hframe : d.FrameFails steps)
    (hbodies : d.BodiesFail steps) :
  d.BodiesFail (steps + 1)
  := by
  intro limit offset record sizes rest done events events' e hlimit hsteps h
  cases sizes with
  | nil =>
    rw [bodies_nil] at h
    cases h
  | cons named sizes =>
    obtain ⟨bodyName, size⟩ := named
    rw [List.length_cons] at hsteps
    rw [Decoder.bodies] at h
    split at h
    · obtain ⟨rfl, -⟩ := h
      exact .of_offset trivial rfl (Nat.le_add_right _ _)
    rename_i hroom
    simp only [Bool.or_eq_true, not_or, Bool.not_eq_true, Bool.not_eq_false',
      Bytes.hasAtLeast_iff, any_lt_eq_false_iff] at hroom
    have hbodyLimit : ∀ l ∈ some ((offset : Int) + size), (offset : Int) ≤ l := by simp
    split at h
    · rename_i hbody
      obtain ⟨rfl, -⟩ := h
      obtain hfailed | ⟨framed, hframed, hresolve⟩ := Framed.finish_eq_error_iff.mp hbody
      · apply hframe hbodyLimit (by omega) hfailed
      · obtain ⟨bytes, tail, placed, next, rfl, hblock, rfl, -⟩ :=
          (sound steps).1 hbodyLimit hframed
        apply (hblock.within_of_resolve hresolve).mono <;> simp
    · rename_i body next' events'' hbody
      obtain ⟨framed, earlier, hframed, -, rfl, -⟩ := Framed.finish_eq_ok_iff.mp hbody
      obtain ⟨bytes, tail, placed, next, rfl, -, rfl, hend⟩ := (sound steps).1 hbodyLimit hframed
      obtain ⟨hsize, rfl⟩ := hend.eq_of_limit
      have hstop : ∀ l ∈ limit, ((offset + bytes.length : Nat) : Int) ≤ l := by
        intro l hl
        have := hroom.2 l hl
        omega
      rw [List.length_append] at hsteps ⊢
      apply (hbodies hstop (by omega) h).mono <;> omega

/-- The reader of blocks and the reader of bodies fail with expected errors within the input
only. -/
theorem fails (steps : Nat) :
  d.FrameFails steps ∧ d.BodiesFail steps
  := by
  induction steps with
  | zero =>
    constructor
    · intro _ _ _ _ _ _ _ _ hsteps
      exact absurd hsteps (Nat.not_lt_zero _)
    · intro _ _ _ _ _ _ _ _ _ _ hsteps
      exact absurd hsteps (Nat.not_lt_zero _)
  | succ steps ih => exact ⟨frame_fails_succ ih.1 ih.2, bodies_fail_succ ih.1 ih.2⟩

/-- The outermost block of a byte string has an error of its own bytes, if any. -/
theorem within_of_read {data : Bytes} {e : DecodeError}
    (h : (d.read (.ofBytes data)).result = .error e) :
  e.Within d.strict 0 data.length
  := by
  rw [read_ofBytes, map_eq_error_iff] at h
  have hlimit : ∀ l ∈ (none : Option Int), ((0 : Nat) : Int) ≤ l := by simp
  have hrun : d.block none (.plain 0 data) = (.error e, (d.block none (.plain 0 data)).2) :=
    Prod.ext h rfl
  obtain hfailed | ⟨framed, hframed, hresolve⟩ := Framed.finish_eq_error_iff.mp hrun
  · apply ((fails _).1 hlimit (Nat.lt_succ_self _) hfailed).mono <;> simp
  · obtain ⟨bytes, tail, placed, next, rfl, hblock, rfl, -⟩ := (sound _).1 hlimit hframed
    apply (hblock.within_of_resolve hresolve).mono <;> simp

end Decoder

/-! ### What is made of the bytes -/

/-- An action without an entry can be made of the operands that stand after its code: if the code
has no length after it, there are none. -/
theorem Record.unlisted_of_frameOperands {limit : Option Int} {offset code : Int}
    {input next : Input} {operands : Bytes}
    (h : frameOperands limit offset code input = .ok (operands, next)) :
  (unlisted (.int code) operands).map (fun r => { r with offset := .int offset })
    = .ok (Frame.unlisted offset code operands).record
  := by
  have hroom : ¬ (compare code firstLongCode = .lt ∧ operands ≠ []) := by
    rintro ⟨hshort, hoperands⟩
    rw [frameOperands, if_pos (Int.compare_eq_lt.mp hshort)] at h
    obtain ⟨rfl, -⟩ := Prod.mk.inj (Except.ok.inj h)
    exact hoperands rfl
  simp only [unlisted, Value.compareInt, Scalar.compareInt, Value.whole?, Scalar.whole?,
    Except.bind, bind, Option.some.injEq, if_neg hroom]
  rfl

/-! ### The theorem -/

/-- Reading a byte string with the operations of the stream gives a block, or it gives an error of a
kind that is expected and that concerns an offset of the byte string. Nothing else can go wrong on
the way: the operands of every layout, the values of every type and the texts are read from a stream
of whole bytes as they are from the bytes, or the bytes have ended; and a pushed value and an action
without an entry can be made of what they are read from, whatever it is. -/
theorem read_total (d : Decoder) (data : Bytes) :
  ((∃ actions cursor, (d.scanBlock (.ofBytes data) none).result = .ok (actions, cursor))
    ∨ ∃ e, (d.scanBlock (.ofBytes data) none).result = .error e ∧ e.Expected d.strict
      ∧ 0 ≤ e.offset ∧ e.offset ≤ data.length)
    ∧ (d.read (.ofBytes data)).result = (d.scanBlock (.ofBytes data) none).result
    ∧ (∀ l : Layout, Follows l.scan l.read)
    ∧ (∀ t : PushType, Follows t.scan t.read)
    ∧ Follows readText Reader.text
    ∧ (∀ (t : PushType) (bytes rest : Bytes) (v : Scalar), t.read bytes = some (v, rest) →
      PushValue.make (.scalar v) t = .ok ⟨.scalar v, t⟩)
    ∧ ∀ (limit : Option Int) (offset code : Int) (input next : Input) (operands : Bytes),
      frameOperands limit offset code input = .ok (operands, next) →
      (Record.unlisted (.int code) operands).map (fun r => { r with offset := .int offset })
        = .ok (Frame.unlisted offset code operands).record
  := by
  have hread : (d.read (.ofBytes data)).result = (d.scanBlock (.ofBytes data) none).result := by
    rw [Decoder.scanBlock_eq (ready_ofBytes data), Decoder.result_read]
  refine ⟨?_, hread, Layout.follows_scan, PushType.follows_scan, follows_readText, ?_, ?_⟩
  · cases hresult : (d.scanBlock (.ofBytes data) none).result with
    | ok found => exact .inl ⟨found.1, found.2, rfl⟩
    | error e =>
      have hwithin := Decoder.within_of_read (hread.trans hresult)
      exact .inr ⟨e, rfl, hwithin.expected, hwithin.lower, hwithin.upper⟩
  · intro t bytes rest v hread
    apply PushValue.make_of_read hread
  · intro limit offset code input next operands hoperands
    apply Record.unlisted_of_frameOperands hoperands

/-- A signalling NaN and an action without an entry are made of what they are read from. The body of
a `with` after them is a branch into itself, which is reported at the offset of the branch. A push
of a text without an end is too short. -/
theorem read_total_branch :
  (∃ e, (Decoder.scanBlock ⟨OpcodeTable.shared, false⟩ (.ofBytes [0x96, 0x05, 0x00, 0x01, 0x01,
      0x00, 0xA0, 0x7F, 0x01, 0x94, 0x02, 0x00, 0x05, 0x00, 0x99, 0x02, 0x00, 0xFF, 0xFF, 0x00])
      none).result = .error e ∧ e.offset = 14 ∧ e.Expected false)
    ∧ (∃ t, (Layout.scan .push).run (.ofBytes [0x00, 0x41]) = (.error .pastEnd, t))
    ∧ PushValue.make (.double (.ofSingle ⟨0x7FA00001⟩)) .float
      = .ok ⟨.double (.ofSingle ⟨0x7FA00001⟩), .float⟩
    ∧ (Record.unlisted (.int 1) []).map (fun r => { r with offset := .int 8 })
      = .ok (Frame.unlisted 8 1 []).record
  := by
  obtain ⟨hresult, hread, hlayouts, -, -, hmake, hunlisted⟩ :=
    read_total ⟨OpcodeTable.shared, false⟩ [0x96, 0x05, 0x00, 0x01, 0x01, 0x00, 0xA0, 0x7F, 0x01,
      0x94, 0x02, 0x00, 0x05, 0x00, 0x99, 0x02, 0x00, 0xFF, 0xFF, 0x00]
  refine ⟨?_, ?_, hmake .float [0x01, 0x00, 0xA0, 0x7F] [] _ rfl,
    hunlisted none 8 1 ⟨9, [], none⟩ ⟨9, [], none⟩ [] rfl⟩
  · obtain ⟨_, _, hok⟩ | ⟨e, herror, hexpected, -⟩ := hresult
    · cases hread.trans hok
    · refine ⟨e, herror, ?_, hexpected⟩
      obtain rfl := Except.error.inj (hread.trans herror)
      rfl
  · have htaken := hlayouts .push _ (whole_ofBytes [0x00, 0x41])
    rw [pending_ofBytes] at htaken
    obtain ⟨t, hrun, -⟩ | ⟨_, _, _, _, hsome⟩ := htaken.short_or_ok
    · exact ⟨t, hrun⟩
    · cases hsome

end ActionBlock
