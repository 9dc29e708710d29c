import ActionBlock.Block.Decode
import ActionBlock.Proofs.Operands

/-!
# The grammar of blocks

What a decoder accepts, without steps and without events. A record is a code, and for a code that
takes operands also their length and the operands. A block is a sequence of records, each
followed by its bodies, and a body is a block of the declared size whose branches resolve.

The decoder is sound and complete for this grammar: it frames a block if and only if bytes of the
block stand next, followed by the end of the block, and it takes exactly these bytes.
-/

namespace ActionBlock

/-! ### Records -/

/-- The bytes left to read from an offset on, when reading began at the start or after it. -/
abbrev Input.plain (offset : Nat) (rest : Bytes) : Input := ⟨offset, rest, none⟩

/-- The bytes of a record at an offset, which the decoder takes for the given frame. -/
inductive Decoder.RecordAt (d : Decoder) (offset : Nat) : Bytes → Frame → Prop where
  | short {code : UInt8} {frame : Frame} (hcode : (code.toNat : Int) < firstLongCode)
      (hframe : d.record offset code.toNat [] = .ok frame) :
      RecordAt d offset [code] frame
  | long {code : UInt8} {operands : Bytes} {frame : Frame}
      (hcode : firstLongCode ≤ (code.toNat : Int)) (hlen : operands.length < 2 ^ 16)
      (hframe : d.record offset code.toNat operands = .ok frame) :
      RecordAt d offset (code :: (Bytes.littleEndian 2 operands.length ++ operands)) frame

/-- A record has at least its code. -/
theorem Decoder.RecordAt.length_pos {d : Decoder} {offset : Nat} {record : Bytes} {frame : Frame}
    (h : d.RecordAt offset record frame) :
  0 < record.length
  := by
  cases h <;> simp

theorem any_lt_eq_false_iff {limit : Option Int} {n : Int} :
  limit.any (· < n) = false ↔ ∀ l ∈ limit, n ≤ l
  := by
  cases limit <;> simp

theorem any_le_eq_false_iff {limit : Option Int} {n : Int} :
  limit.any (· ≤ n) = false ↔ ∀ l ∈ limit, n < l
  := by
  cases limit <;> simp

/-- Taking succeeds exactly when the input begins with so many bytes. -/
theorem Input.take?_eq_some_iff {offset : Int} {n : Nat} {rest front : Bytes} {next : Input} :
  take? ⟨offset, rest, none⟩ n = some (front, next)
    ↔ ∃ tail, rest = front ++ tail ∧ front.length = n ∧ next = ⟨offset + n, tail, none⟩
  := by
  rw [take?]
  split
  · rename_i hsplit
    simp only [reduceCtorEq, false_iff, not_exists, not_and]
    rintro tail rfl rfl
    simp at hsplit
  · rename_i front' tail' hsplit
    obtain ⟨rfl, rfl⟩ := Bytes.splitExact_eq_some_iff.mp hsplit
    simp only [Option.elim, Option.some.injEq, Prod.mk.injEq]
    constructor
    · rintro ⟨rfl, rfl⟩
      exact ⟨tail', rfl, rfl, rfl⟩
    · rintro ⟨tail, happend, hlen, rfl⟩
      obtain ⟨rfl, rfl⟩ := List.append_inj happend hlen.symm
      exact ⟨rfl, rfl⟩

/-- Operands are taken exactly when they are there in full and end within the limit. -/
theorem takeOperands_eq_ok_iff {limit : Option Int} {offset code start : Int} {length : Nat}
    {rest operands : Bytes} {next : Input} :
  takeOperands limit offset code length ⟨start, rest, none⟩ = .ok (operands, next)
    ↔ (∃ tail, rest = operands ++ tail ∧ operands.length = length
        ∧ next = ⟨start + length, tail, none⟩) ∧ ∀ l ∈ limit, start + length ≤ l
  := by
  rw [takeOperands, ← Input.take?_eq_some_iff]
  split
  · rename_i l hl
    obtain ⟨rfl, hlt⟩ := Option.filter_eq_some_iff.mp hl
    simp only [reduceCtorEq, false_iff, not_and, Option.mem_some, forall_eq', not_le]
    intro _
    simpa using hlt
  · rename_i hnone
    have hlimit : ∀ l ∈ limit, start + length ≤ l := by
      intro l hl
      have hge := Option.filter_eq_none_iff.mp hnone l hl
      simpa using hge
    split <;> simp_all

/-- The operands of a record after its code: none after a short code, else those of the length
that stands before them, up to the limit at most. -/
theorem frameOperands_eq_ok_iff {limit : Option Int} {offset code start : Int}
    {rest operands : Bytes} {next : Input} :
  frameOperands limit offset code ⟨start, rest, none⟩ = .ok (operands, next)
    ↔ (code < firstLongCode ∧ operands = [] ∧ next = ⟨start, rest, none⟩)
      ∨ (firstLongCode ≤ code ∧ operands.length < 2 ^ 16 ∧ ∃ tail,
          rest = Bytes.littleEndian 2 operands.length ++ (operands ++ tail)
          ∧ next = ⟨start + 2 + operands.length, tail, none⟩
          ∧ ∀ l ∈ limit, start + 2 + operands.length ≤ l)
  := by
  by_cases hcode : code < firstLongCode
  · have hnot : ¬ firstLongCode ≤ code := not_le.mpr hcode
    simp [frameOperands, hcode, hnot, eq_comm]
  rw [frameOperands, if_neg hcode]
  simp only [hcode, not_lt.mp hcode, false_and, true_and, false_or]
  constructor
  · intro h
    split at h
    · cases h
    split at h
    · rename_i length next' htake
      obtain ⟨tail, rfl, hlen, rfl⟩ := Input.take?_eq_some_iff.mp htake
      obtain ⟨⟨tail, rfl, hoperands, rfl⟩, hlimit⟩ := takeOperands_eq_ok_iff.mp h
      have hlt := Bytes.ofLittleEndian_lt length
      rw [hlen] at hlt
      refine ⟨by omega, tail, ?_, ?_, ?_⟩
      · rw [hoperands, ← hlen, Bytes.littleEndian_ofLittleEndian]
      · rw [hoperands]
        rfl
      · rw [hoperands]
        exact hlimit
    · cases h
  · rintro ⟨hlen, tail, rfl, rfl, hlimit⟩
    have hany : limit.any (· < start + 2) = false := by
      apply any_lt_eq_false_iff.mpr
      intro l hl
      have := hlimit l hl
      omega
    have htake : Input.take?
        ⟨start, Bytes.littleEndian 2 operands.length ++ (operands ++ tail), none⟩ 2
        = some (Bytes.littleEndian 2 operands.length, ⟨start + 2, operands ++ tail, none⟩) := by
      apply Input.take?_eq_some_iff.mpr
      exact ⟨_, rfl, Bytes.length_littleEndian _ _, rfl⟩
    rw [hany, htake]
    simp only [Bool.false_eq_true, if_false]
    apply takeOperands_eq_ok_iff.mpr
    rw [Bytes.ofLittleEndian_littleEndian hlen]
    exact ⟨⟨tail, rfl, rfl, rfl⟩, hlimit⟩

/-- The end of a block at an offset, and the input after it: its limit, or else a code zero. -/
inductive BlockEnd : Option Int → Nat → Bytes → Input → Prop where
  | limit {offset : Nat} {tail : Bytes} :
      BlockEnd (some (offset : Int)) offset tail (.plain offset tail)
  | zero {offset : Nat} {tail : Bytes} :
      BlockEnd none offset (0 :: tail) (.plain (offset + 1) tail)

theorem BlockEnd.eq_of_mem {limit : Option Int} {offset : Nat} {tail : Bytes} {next : Input}
    (h : BlockEnd limit offset tail next) :
  ∀ l ∈ limit, l = offset
  := by
  cases h <;> simp

theorem BlockEnd.eq_of_limit {l : Int} {offset : Nat} {tail : Bytes} {next : Input}
    (h : BlockEnd (some l) offset tail next) :
  l = offset ∧ next = .plain offset tail
  := by
  cases h
  exact ⟨rfl, rfl⟩

namespace Decoder

variable {d : Decoder}

/-- At the end of a block the reader finishes. -/
theorem upcoming_of_end {limit : Option Int} {offset : Nat} {rest : Bytes} {next : Input}
    (h : BlockEnd limit offset rest next) :
  d.upcoming limit (.plain offset rest) = .finish next
  := by
  cases h with
  | limit => simp [upcoming]
  | zero => rfl

/-- Before the limit, and apart from a code zero where there is none, a code begins a record. -/
theorem upcoming_cons {limit : Option Int} {offset : Nat} {code : UInt8} {rest operands : Bytes}
    {frame : Frame} {next : Input} (hlimit : ∀ l ∈ limit, (offset : Int) < l)
    (hcode : limit = none → code ≠ 0)
    (hoperands : frameOperands limit offset code.toNat ⟨offset + 1, rest, none⟩
      = .ok (operands, next))
    (hframe : d.record offset code.toNat operands = .ok frame) :
  d.upcoming limit (.plain offset (code :: rest)) = .record frame next
  := by
  have hzero : (limit.isNone && decide (code = 0)) = false := by
    cases limit with
    | none => simpa using hcode rfl
    | some l => rfl
  simp only [upcoming, any_le_eq_false_iff.mpr hlimit, hzero, hoperands, hframe,
    Bool.false_eq_true, if_false]

/-- Where a record of the grammar stands within the limit, the reader reads it. -/
theorem upcoming_of_record {limit : Option Int} {offset : Nat} {record tail : Bytes}
    {frame : Frame} (hrecord : d.RecordAt offset record frame)
    (hcode : limit = none → record.head? ≠ some 0)
    (hlimit : ∀ l ∈ limit, (offset + record.length : Nat) ≤ l) :
  d.upcoming limit (.plain offset (record ++ tail))
    = .record frame (.plain (offset + record.length) tail)
  := by
  have hstart : ∀ l ∈ limit, (offset : Int) < l := by
    intro l hl
    have := hlimit l hl
    have := hrecord.length_pos
    omega
  cases hrecord with
  | @short code _ hshort hframe =>
    apply upcoming_cons hstart (by simpa using hcode) _ hframe
    apply frameOperands_eq_ok_iff.mpr (.inl ⟨hshort, rfl, rfl⟩)
  | @long code operands _ hlong hlen hframe =>
    rw [List.cons_append, List.append_assoc]
    apply upcoming_cons hstart (by simpa using hcode) _ hframe
    apply frameOperands_eq_ok_iff.mpr
    refine .inr ⟨hlong, hlen, tail, rfl, ?_, ?_⟩
    · simp only [Input.plain, List.length_cons, List.length_append, Bytes.length_littleEndian,
        Input.mk.injEq, and_true]
      omega
    · intro l hl
      have := hlimit l hl
      simp only [List.length_cons, List.length_append, Bytes.length_littleEndian] at this
      omega

/-- The reader finishes only at the end of a block. -/
theorem end_of_upcoming {limit : Option Int} {offset : Nat} {rest : Bytes} {next : Input}
    (hlimit : ∀ l ∈ limit, (offset : Int) ≤ l)
    (h : d.upcoming limit (.plain offset rest) = .finish next) :
  BlockEnd limit offset rest next
  := by
  rw [upcoming] at h
  split at h
  · rename_i hany
    obtain rfl := Upcoming.finish.inj h
    cases limit with
    | none => cases hany
    | some l =>
      have hle : l ≤ offset := by simpa using hany
      obtain rfl := le_antisymm hle (hlimit l rfl)
      apply BlockEnd.limit
  · split at h
    · cases h
    · rename_i code rest' hrest
      obtain rfl := hrest
      dsimp only at h
      split at h
      · rename_i hzero
        obtain rfl := Upcoming.finish.inj h
        simp only [Bool.and_eq_true, Option.isNone_iff_eq_none, decide_eq_true_eq] at hzero
        obtain ⟨rfl, rfl⟩ := hzero
        apply BlockEnd.zero
      · split at h
        · cases h
        · split at h <;> cases h

/-- A record that stands next has a byte for its code, and begins at the offset of the input. -/
theorem exists_record_of_upcoming {limit : Option Int} {input next : Input} {frame : Frame}
    (h : d.upcoming limit input = .record frame next) :
  ∃ (code : UInt8) (operands : Bytes), d.record input.offset code.toNat operands = .ok frame
  := by
  rw [upcoming] at h
  split at h
  · cases h
  split at h
  · cases h
  rename_i code rest _
  dsimp only at h
  split at h
  · cases h
  split at h
  · cases h
  rename_i operands next' _
  split at h
  · cases h
  rename_i frame' hrecord
  obtain ⟨rfl, -⟩ := Upcoming.record.inj h
  exact ⟨code, operands, hrecord⟩

/-- The reader reads only records of the grammar that end within the limit. -/
theorem record_of_upcoming {limit : Option Int} {offset : Nat} {rest : Bytes} {frame : Frame}
    {next : Input} (h : d.upcoming limit (.plain offset rest) = .record frame next) :
  ∃ record tail, rest = record ++ tail ∧ d.RecordAt offset record frame
    ∧ (limit = none → record.head? ≠ some 0)
    ∧ (∀ l ∈ limit, (offset + record.length : Nat) ≤ l)
    ∧ next = .plain (offset + record.length) tail
  := by
  rw [upcoming] at h
  split at h
  · cases h
  rename_i hlimit
  replace hlimit := any_le_eq_false_iff.mp (Bool.eq_false_of_not_eq_true hlimit)
  split at h
  · cases h
  rename_i code rest' hrest
  obtain rfl := hrest
  dsimp only at h
  split at h
  · cases h
  rename_i hzero
  have hcode : limit = none → code ≠ 0 := by
    rintro rfl rfl
    exact hzero rfl
  split at h
  · cases h
  rename_i operands next' hoperands
  split at h
  · cases h
  rename_i frame' hframe
  obtain ⟨rfl, rfl⟩ := Upcoming.record.inj h
  obtain ⟨hshort, rfl, rfl⟩ | ⟨hlong, hlen, tail, rfl, rfl, hstop⟩ :=
    frameOperands_eq_ok_iff.mp hoperands
  · refine ⟨[code], rest', rfl, .short hshort hframe, by simpa using hcode, ?_, rfl⟩
    intro l hl
    have hlt : (offset : Int) < l := hlimit l hl
    simp only [List.length_singleton]
    omega
  · refine ⟨_, tail, by simp, .long hlong hlen hframe, by simpa using hcode, ?_, ?_⟩
    · intro l hl
      have := hstop l hl
      simp only [List.length_cons, List.length_append, Bytes.length_littleEndian]
      omega
    · simp only [Input.plain, List.length_cons, List.length_append, Bytes.length_littleEndian,
        Input.mk.injEq, and_true]
      omega

end Decoder

/-! ### Frames -/

namespace Decoder

variable {d : Decoder}

/-- A record of a code that the table does not list keeps its operands; one that it lists reads
them by its layout. -/
theorem record_eq_ok_iff {offset code : Int} {operands : Bytes} {frame : Frame} :
  d.record offset code operands = .ok frame
    ↔ (d.table.find? code = none ∧ d.strict = false ∧ frame = .unlisted offset code operands)
      ∨ ∃ entry o ns trailing, d.table.find? code = some entry
        ∧ entry.layout.read operands = some ((o, ns), trailing)
        ∧ frame = .listed d.table.id entry offset o ns trailing
  := by
  rw [record]
  cases hentry : d.table.find? code with
  | none => cases d.strict <;> simp [eq_comm]
  | some entry =>
    cases hread : entry.layout.read operands with
    | none => simp [hread]
    | some result =>
      obtain ⟨⟨o, ns⟩, trailing⟩ := result
      simp only [hread, Except.ok.injEq]
      constructor
      · rintro rfl
        exact .inr ⟨entry, o, ns, trailing, rfl, hread, rfl⟩
      · rintro (⟨hnone, -⟩ | ⟨entry, o, ns, trailing, hsome, hread', rfl⟩)
        · cases hnone
        · obtain rfl := Option.some.inj hsome
          obtain ⟨⟨rfl, rfl⟩, rfl⟩ := Option.some.inj (hread.symm.trans hread')
          rfl

/-- A record holds a size for each of its bodies. -/
theorem record_sizes {offset code : Int} {operands : Bytes} {frame : Frame}
    (h : d.record offset code operands = .ok frame) :
  frame.record.operands.bodyNames.length = frame.sizes.length
    ∧ 2 * frame.sizes.length ≤ operands.length
  := by
  obtain ⟨-, -, rfl⟩ | ⟨entry, o, ns, trailing, -, hread, rfl⟩ := record_eq_ok_iff.mp h
  · exact ⟨rfl, Nat.zero_le _⟩
  · apply Layout.sizes_of_read hread

namespace RecordAt

variable {offset : Nat} {record : Bytes} {frame : Frame}

theorem exists_record (h : d.RecordAt offset record frame) :
  ∃ code operands, d.record offset code operands = .ok frame
  := by
  cases h with
  | short _ hframe => exact ⟨_, _, hframe⟩
  | long _ _ hframe => exact ⟨_, _, hframe⟩

/-- An action has as many named bodies as its record declares sizes. -/
theorem length_bodyNames (h : d.RecordAt offset record frame) :
  frame.record.operands.bodyNames.length = frame.sizes.length
  := by
  obtain ⟨code, operands, hframe⟩ := h.exists_record
  exact (record_sizes hframe).1

theorem map_bodySizes (h : d.RecordAt offset record frame) :
  frame.bodySizes.map Prod.snd = frame.sizes
  := by
  apply List.map_snd_zip
  exact h.length_bodyNames.ge

/-- A record is longer than the number of bodies it declares. -/
theorem sizes_length_lt (h : d.RecordAt offset record frame) :
  frame.sizes.length < record.length
  := by
  cases h with
  | short _ hframe =>
    have := (record_sizes hframe).2
    simp_all
  | long _ _ hframe =>
    have := (record_sizes hframe).2
    simp
    omega

end RecordAt

end Decoder

/-! ### Blocks -/

mutual

/-- The bytes of the actions of a block from an offset on, with their branches unresolved. If the
block is the outermost one, no record begins with a code zero. -/
inductive Decoder.BlockAt (d : Decoder) : Bool → Nat → Bytes → List Placed → Prop where
  | nil {outermost : Bool} {offset : Nat} : BlockAt d outermost offset [] []
  | cons {outermost : Bool} {offset : Nat} {record bodyBytes rest : Bytes} {frame : Frame}
      {bodies : List (List Action)} {placed : List Placed}
      (hrecord : d.RecordAt offset record frame) (hcode : outermost → record.head? ≠ some 0)
      (hbodies : d.BodiesAt (offset + record.length) frame.sizes bodyBytes bodies)
      (hrest : d.BlockAt outermost (offset + record.length + bodyBytes.length) rest placed) :
      BlockAt d outermost offset (record ++ bodyBytes ++ rest)
        (⟨offset, .mk none frame.record bodies⟩ :: placed)

/-- The bytes of bodies of the given sizes from an offset on, with their branches resolved. -/
inductive Decoder.BodiesAt (d : Decoder) :
    Nat → List Nat → Bytes → List (List Action) → Prop where
  | nil {offset : Nat} : BodiesAt d offset [] [] []
  | cons {offset size : Nat} {sizes : List Nat} {body rest : Bytes} {placed : List Placed}
      {actions : List Action} {bodies : List (List Action)}
      (hsize : body.length = size) (hbody : d.BlockAt false offset body placed)
      (hresolve : resolve placed (offset + size : Nat) = .ok actions)
      (hrest : d.BodiesAt (offset + size) sizes rest bodies) :
      BodiesAt d offset (size :: sizes) (body ++ rest) (actions :: bodies)

end

/-- Induction on the actions of a block, which leaves their bodies aside. -/
@[elab_as_elim]
theorem Decoder.BlockAt.induct {d : Decoder}
    {motive : ∀ outermost offset bytes placed, d.BlockAt outermost offset bytes placed → Prop}
    (nil : ∀ {outermost offset}, motive outermost offset [] [] .nil)
    (cons : ∀ {outermost : Bool} {offset record bodyBytes rest frame bodies placed}
      (hrecord : d.RecordAt offset record frame) (hcode : outermost → record.head? ≠ some 0)
      (hbodies : d.BodiesAt (offset + record.length) frame.sizes bodyBytes bodies)
      (hrest : d.BlockAt outermost (offset + record.length + bodyBytes.length) rest placed),
      motive _ _ _ _ hrest → motive _ _ _ _ (.cons hrecord hcode hbodies hrest))
    {outermost : Bool} {offset : Nat} {bytes : Bytes} {placed : List Placed}
    (h : d.BlockAt outermost offset bytes placed) :
  motive outermost offset bytes placed h
  :=
  @Decoder.BlockAt.rec d motive (fun _ _ _ _ _ => True) nil
    (fun hrecord hcode hbodies hrest _ ih => cons hrecord hcode hbodies hrest ih)
    trivial (fun _ _ _ _ _ _ => trivial) outermost offset bytes placed h

/-! ### Soundness -/

/-- A block is read if it is framed and its branches are resolved. -/
theorem Framed.finish_eq_ok_iff {outcome : Outcome Framed} {actions : List Action} {next : Input}
    {events : List Event} :
  finish outcome = (.ok (actions, next), events)
    ↔ ∃ framed earlier, outcome = (.ok framed, earlier)
      ∧ resolve framed.actions framed.stop = .ok actions ∧ framed.next = next
      ∧ .block actions.length (actions.filter Action.isBranch).length framed.stop :: earlier
        = events
  := by
  obtain ⟨result, earlier⟩ := outcome
  cases result with
  | error e => simp [finish]
  | ok framed =>
    cases hresolve : resolve framed.actions framed.stop with
    | error e => simp [finish, hresolve]
    | ok actions' =>
      simp only [finish, hresolve, Prod.mk.injEq, Except.ok.injEq]
      constructor
      · rintro ⟨⟨rfl, rfl⟩, rfl⟩
        exact ⟨framed, earlier, ⟨rfl, rfl⟩, hresolve, rfl, rfl⟩
      · rintro ⟨_, _, ⟨rfl, rfl⟩, hactions, rfl, rfl⟩
        obtain rfl := Except.ok.inj (hresolve.symm.trans hactions)
        exact ⟨⟨rfl, rfl⟩, rfl⟩

namespace Decoder

variable {d : Decoder}

theorem bodies_nil {limit : Option Int} {steps : Nat} {record : Record} {input : Input}
    {done : List (List Action)} {events : List Event} :
  d.bodies limit steps record [] input done events = (.ok (done.reverse, input), events)
  := by
  cases steps <;> rfl

/-- What is framed with a number of steps is a block, followed by its end. -/
def FrameSound (d : Decoder) (steps : Nat) : Prop :=
  ∀ {limit : Option Int} {offset : Nat} {rest : Bytes} {done : List Placed}
    {events events' : List Event} {framed : Framed}, (∀ l ∈ limit, (offset : Int) ≤ l) →
  d.frame limit steps (.plain offset rest) done events = (.ok framed, events') →
  ∃ bytes tail placed next, rest = bytes ++ tail ∧ d.BlockAt limit.isNone offset bytes placed
    ∧ framed = ⟨done.reverse ++ placed, (offset + bytes.length : Nat), next⟩
    ∧ BlockEnd limit (offset + bytes.length) tail next

/-- What is read with a number of steps as the bodies of an action are bodies of these sizes. -/
def BodiesSound (d : Decoder) (steps : Nat) : Prop :=
  ∀ {limit : Option Int} {offset : Nat} {record : Record} {sizes : List (String × Nat)}
    {rest : Bytes} {done bodies : List (List Action)} {events events' : List Event}
    {next : Input}, (∀ l ∈ limit, (offset : Int) ≤ l) →
  d.bodies limit steps record sizes (.plain offset rest) done events
    = (.ok (bodies, next), events') →
  ∃ bytes tail new, rest = bytes ++ tail ∧ d.BodiesAt offset (sizes.map Prod.snd) bytes new
    ∧ bodies = done.reverse ++ new ∧ next = .plain (offset + bytes.length) tail
    ∧ ∀ l ∈ limit, (offset + bytes.length : Nat) ≤ l

/-- What the reader of blocks accepts is of the grammar, given that the readers are sound for fewer
steps. -/
theorem frame_sound_of {steps : Nat} (ih : ∀ s < steps, d.FrameSound s ∧ d.BodiesSound s) :
  d.FrameSound steps
  := by
  intro limit offset rest done events events' framed hlimit h
  cases steps with
  | zero =>
    rw [frame] at h
    cases h
  | succ steps =>
    obtain ⟨hframe, hbodies⟩ := ih steps (Nat.lt_succ_self steps)
    rw [frame] at h
    split at h
    · cases h
    · rename_i next hnext
      obtain ⟨rfl, rfl⟩ := h
      refine ⟨[], rest, [], next, rfl, .nil, by simp, ?_⟩
      apply end_of_upcoming hlimit hnext
    · rename_i frame next hnext
      obtain ⟨record, tail, rfl, hrecord, hcode, hstop, rfl⟩ := record_of_upcoming hnext
      dsimp only at h
      split at h
      · cases h
      · rename_i bodies next events'' hread
        obtain ⟨bodyBytes, tail, new, rfl, hnew, rfl, rfl, hstop⟩ := hbodies hstop hread
        obtain ⟨bytes, tail, placed, next, rfl, hblock, rfl, hend⟩ := hframe hstop h
        rw [hrecord.map_bodySizes] at hnew
        refine ⟨_, tail, _, next, ?_, .cons hrecord ?_ hnew hblock, ?_, ?_⟩
        · simp
        · simpa using hcode
        · simp [add_assoc]
        · simpa [add_assoc] using hend

/-- What the reader of bodies accepts is of the grammar, given that the readers are sound for fewer
steps. -/
theorem bodies_sound_of {steps : Nat} (ih : ∀ s < steps, d.FrameSound s ∧ d.BodiesSound s) :
  d.BodiesSound steps
  := by
  intro limit offset record sizes rest done bodies events events' next hlimit h
  cases sizes with
  | nil =>
    rw [bodies_nil] at h
    obtain ⟨⟨rfl, rfl⟩, rfl⟩ := h
    exact ⟨[], rest, [], rfl, .nil, by simp, rfl, hlimit⟩
  | cons named sizes =>
    cases steps with
    | zero => simp [Decoder.bodies] at h
    | succ steps =>
      obtain ⟨hframe, hbodies⟩ := ih steps (Nat.lt_succ_self steps)
      rw [Decoder.bodies] at h
      split at h
      · cases h
      rename_i hroom
      simp only [Bool.or_eq_true, not_or, Bool.not_eq_true, Bool.not_eq_false',
        Bytes.hasAtLeast_iff, any_lt_eq_false_iff] at hroom
      split at h
      · cases h
      rename_i body next' events'' hbody
      obtain ⟨framed, earlier, hframed, hresolve, rfl, -⟩ := Framed.finish_eq_ok_iff.mp hbody
      obtain ⟨bytes, tail, placed, next, rfl, hblock, rfl, hend⟩ := hframe (by simp) hframed
      obtain ⟨hsize, rfl⟩ := hend.eq_of_limit
      obtain ⟨bodyName, size⟩ := named
      obtain rfl : bytes.length = size := by
        simp only at hsize
        omega
      have hstop : ∀ l ∈ limit, ((offset + bytes.length : Nat) : Int) ≤ l := hroom.2
      obtain ⟨rest, tail, new, rfl, hnew, rfl, rfl, hstop⟩ := hbodies hstop h
      refine ⟨bytes ++ rest, tail, body :: new, ?_, .cons rfl hblock hresolve hnew, ?_, ?_, ?_⟩
      · simp
      · simp
      · simp [add_assoc]
      · simpa [add_assoc] using hstop

/-- A decoder reads only what is in the grammar. -/
theorem sound (steps : Nat) :
  d.FrameSound steps ∧ d.BodiesSound steps
  := by
  induction steps using Nat.strong_induction_on with
  | _ steps ih => exact ⟨frame_sound_of ih, bodies_sound_of ih⟩

/-! ### Completeness -/

/-- A block in fewer bytes than there are steps is framed, if its end follows. -/
def FrameComplete (d : Decoder) (steps : Nat) : Prop :=
  ∀ (limit : Option Int) {offset : Nat} {bytes tail : Bytes} {placed : List Placed}
    {next : Input} (done : List Placed) (events : List Event),
  d.BlockAt limit.isNone offset bytes placed →
  BlockEnd limit (offset + bytes.length) tail next → bytes.length < steps →
  ∃ events', d.frame limit steps (.plain offset (bytes ++ tail)) done events
    = (.ok ⟨done.reverse ++ placed, (offset + bytes.length : Nat), next⟩, events')

/-- Bodies are read, if there are fewer bytes and bodies than steps. -/
def BodiesComplete (d : Decoder) (steps : Nat) : Prop :=
  ∀ {limit : Option Int} {offset : Nat} {sizes : List (String × Nat)} {bytes : Bytes}
    {bodies : List (List Action)} (record : Record) (tail : Bytes) (done : List (List Action))
    (events : List Event),
  d.BodiesAt offset (sizes.map Prod.snd) bytes bodies →
  (∀ l ∈ limit, (offset + bytes.length : Nat) ≤ l) → sizes.length + bytes.length < steps →
  ∃ events', d.bodies limit steps record sizes (.plain offset (bytes ++ tail)) done events
    = (.ok (done.reverse ++ bodies, .plain (offset + bytes.length) tail), events')

/-- A block of the grammar is read, given that its bodies and its tail are. -/
theorem frame_complete_succ {steps : Nat} (hframe : d.FrameComplete steps)
    (hbodies : d.BodiesComplete steps) :
  d.FrameComplete (steps + 1)
  := by
  intro limit offset bytes tail placed next done events h hend hsteps
  rw [frame]
  cases h with
  | nil =>
    rw [List.nil_append, upcoming_of_end (by simpa using hend)]
    simp
  | @cons _ _ record bodyBytes rest frame bodies placed hrecord hcode hread hrest =>
    simp only [List.length_append] at hend hsteps
    have hpos := hrecord.length_pos
    have hsizes := hrecord.sizes_length_lt
    have hlength : frame.bodySizes.length = frame.sizes.length := by
      rw [← hrecord.map_bodySizes, List.length_map]
    have hstop : ∀ l ∈ limit, ((offset + record.length + bodyBytes.length : Nat) : Int) ≤ l := by
      intro l hl
      have := hend.eq_of_mem l hl
      omega
    have hrecordStop : ∀ l ∈ limit, ((offset + record.length : Nat) : Int) ≤ l := by
      intro l hl
      have := hstop l hl
      omega
    rw [← hrecord.map_bodySizes] at hread
    rw [List.append_assoc, List.append_assoc,
      upcoming_of_record hrecord (by simpa using hcode) hrecordStop]
    obtain ⟨events', hbodies⟩ := hbodies frame.record (rest ++ tail) []
      ((frame.event? offset).toList ++ events) hread hstop (by omega)
    obtain ⟨events'', hframe⟩ := hframe limit
      (⟨offset, .mk none frame.record bodies⟩ :: done) events' hrest
      (by simpa [add_assoc] using hend) (by omega)
    refine ⟨events'', ?_⟩
    simp only [hbodies]
    simpa [add_assoc] using hframe

/-- A body of the declared size is read before the bodies that follow it. -/
theorem exists_bodies_cons {steps : Nat} {limit : Option Int} {offset : Nat} {body : Bytes}
    {placed : List Placed} {actions : List Action} (hframe : d.FrameComplete steps)
    (hbody : d.BlockAt false offset body placed)
    (hresolve : resolve placed (offset + body.length : Nat) = .ok actions)
    (hlimit : ∀ l ∈ limit, ((offset + body.length : Nat) : Int) ≤ l) (hsteps : body.length < steps)
    (bodyName : String) (record : Record) (sizes : List (String × Nat)) (tail : Bytes)
    (done : List (List Action)) (events : List Event) :
  ∃ events', d.bodies limit (steps + 1) record ((bodyName, body.length) :: sizes)
      (.plain offset (body ++ tail)) done events
    = d.bodies limit steps record sizes (.plain (offset + body.length) tail) (actions :: done)
      events'
  := by
  have hroom : (!Bytes.hasAtLeast body.length (body ++ tail)
      || limit.any (· < (offset : Int) + body.length)) = false := by
    simp only [Bool.or_eq_false_iff, Bool.not_eq_false', Bytes.hasAtLeast_iff,
      any_lt_eq_false_iff, List.length_append]
    exact ⟨Nat.le_add_right _ _, hlimit⟩
  have hend : BlockEnd (some ((offset : Int) + body.length)) (offset + body.length) tail
      (.plain (offset + body.length) tail) := .limit
  obtain ⟨earlier, hframe⟩ := hframe (some (offset + body.length)) [] events hbody hend hsteps
  obtain ⟨events', hfinish⟩ : ∃ events', Framed.finish (d.frame
      (some ((offset : Int) + body.length)) steps (.plain offset (body ++ tail)) [] events)
      = (.ok (actions, .plain (offset + body.length) tail), events') :=
    ⟨_, Framed.finish_eq_ok_iff.mpr ⟨_, _, hframe, hresolve, rfl, rfl⟩⟩
  refine ⟨events', ?_⟩
  rw [Decoder.bodies]
  simp only [hroom, hfinish, Bool.false_eq_true, if_false]

/-- The bodies of an action are read, given that the first block and the bodies after it are. -/
theorem bodies_complete_succ {steps : Nat} (hframe : d.FrameComplete steps)
    (hbodies : d.BodiesComplete steps) :
  d.BodiesComplete (steps + 1)
  := by
  intro limit offset sizes bytes bodies record tail done events h hlimit hsteps
  cases sizes with
  | nil =>
    cases h
    simp [bodies_nil]
  | cons named sizes =>
    obtain ⟨bodyName, size⟩ := named
    simp only [List.map_cons] at h
    cases h with
    | @cons _ _ _ body rest placed actions bodies hsize hbody hresolve hrest =>
      obtain rfl := hsize
      simp only [List.length_append, List.length_cons] at hlimit hsteps
      have hstop : ∀ l ∈ limit, ((offset + body.length : Nat) : Int) ≤ l := by
        intro l hl
        have := hlimit l hl
        omega
      obtain ⟨events', hcons⟩ := exists_bodies_cons hframe hbody hresolve hstop (by omega) bodyName
        record sizes (rest ++ tail) done events
      obtain ⟨events'', hbodies⟩ := hbodies record tail (actions :: done) events' hrest
        (by simpa [add_assoc] using hlimit) (by omega)
      refine ⟨events'', ?_⟩
      rw [List.append_assoc, hcons]
      simpa [add_assoc] using hbodies

/-- A decoder reads all that is in the grammar. -/
theorem complete (steps : Nat) :
  d.FrameComplete steps ∧ d.BodiesComplete steps
  := by
  induction steps with
  | zero =>
    constructor
    · intro _ _ _ _ _ _ _ _ _ _ hsteps
      exact absurd hsteps (Nat.not_lt_zero _)
    · intro _ _ _ _ _ _ _ _ _ _ _ hsteps
      exact absurd hsteps (Nat.not_lt_zero _)
  | succ steps ih => exact ⟨frame_complete_succ ih.1 ih.2, bodies_complete_succ ih.1 ih.2⟩

/-- A block is read if and only if bytes of the grammar stand next, followed by the end of the
block, and its branches resolve. -/
theorem block_eq_ok_iff {limit : Option Int} {offset : Nat} {rest : Bytes} {actions : List Action}
    {next : Input} (hlimit : ∀ l ∈ limit, (offset : Int) ≤ l) :
  (d.block limit (.plain offset rest)).1 = .ok (actions, next)
    ↔ ∃ bytes tail placed, rest = bytes ++ tail ∧ d.BlockAt limit.isNone offset bytes placed
      ∧ resolve placed (offset + bytes.length : Nat) = .ok actions
      ∧ BlockEnd limit (offset + bytes.length) tail next
  := by
  constructor
  · intro h
    obtain ⟨framed, events, hframed, hresolve, rfl, -⟩ :=
      Framed.finish_eq_ok_iff.mp (Prod.ext h rfl)
    obtain ⟨bytes, tail, placed, next, rfl, hblock, rfl, hend⟩ := (sound _).1 hlimit hframed
    exact ⟨bytes, tail, placed, rfl, hblock, hresolve, hend⟩
  · rintro ⟨bytes, tail, placed, rfl, hblock, hresolve, hend⟩
    have hsteps : bytes.length < (bytes ++ tail).length + 1 := by
      rw [List.length_append]
      omega
    obtain ⟨events, hframed⟩ := (complete _).1 limit [] [] hblock hend hsteps
    have hfinish := Framed.finish_eq_ok_iff.mpr ⟨_, _, hframed, hresolve, rfl, rfl⟩
    rw [block, hfinish]

/-! ### Byte strings -/

theorem ofStream_ofBytes (data : Bytes) :
  Input.ofStream (.ofBytes data) = .plain 0 data
  := by
  simp [Input.ofStream, BitStream.ofBytes, BitStream.wholeBytes, BitStream.available]

/-- A whole stream is read as one block without a limit. -/
theorem result_read (s : BitStream) :
  (d.read s).result = (d.readBlock s none).result
  := by
  rw [read]
  dsimp only
  split <;> simp_all

/-- The outermost block of a byte string is read from its beginning. -/
theorem read_ofBytes (data : Bytes) :
  (d.read (.ofBytes data)).result
    = (d.block none (.plain 0 data)).1.map fun r => (r.1, 8 * r.2.offset)
  := by
  rw [result_read, readBlock, ofStream_ofBytes, if_neg (by simp)]
  dsimp only [Option.map]
  rcases d.block none (.plain 0 data) with ⟨_ | ⟨actions, next⟩, events⟩
  · rfl
  · simp [BitStream.ofBytes, Except.map]

/-- A byte string is read as a block if and only if a block of the grammar stands at its
beginning, its branches resolve and a code zero follows. -/
theorem read_ofBytes_eq_ok_iff {data : Bytes} {actions : List Action} {cursor : Int} :
  (d.read (.ofBytes data)).result = .ok (actions, cursor)
    ↔ ∃ bytes tail placed, data = bytes ++ 0 :: tail ∧ d.BlockAt true 0 bytes placed
      ∧ resolve placed bytes.length = .ok actions ∧ cursor = 8 * (bytes.length + 1)
  := by
  rw [read_ofBytes, map_eq_ok_iff]
  constructor
  · rintro ⟨⟨actions', next⟩, hblock, hresult⟩
    obtain ⟨rfl, rfl⟩ := hresult
    obtain ⟨bytes, tail, placed, rfl, hbytes, hresolve, hend⟩ :=
      (block_eq_ok_iff (by simp)).mp hblock
    simp only [zero_add] at hresolve hend
    cases hend
    exact ⟨bytes, _, placed, rfl, hbytes, hresolve, rfl⟩
  · rintro ⟨bytes, tail, placed, rfl, hbytes, hresolve, rfl⟩
    refine ⟨(actions, .plain (bytes.length + 1) tail), ?_, rfl⟩
    apply (block_eq_ok_iff (by simp)).mpr
    refine ⟨bytes, 0 :: tail, placed, rfl, hbytes, ?_⟩
    rw [zero_add]
    exact ⟨hresolve, .zero⟩

end Decoder

end ActionBlock
