import ActionBlock.Opcode.Standard
import ActionBlock.Proofs.Reporting

/-!
# Blocks delimit themselves

The bytes of a block tell where it ends. Whatever follows them, the same actions are read, and the
same is reported about them. And if any of them are missing, reading fails because the bytes end too
early, and for no other reason: a record, a body or the end of the block is looked at only when all
of its bytes are there, and branches are resolved only at the end.
-/

namespace ActionBlock

/-- An outcome of reading bytes that end too early. -/
def Outcome.IsTruncated {α : Type} (outcome : Outcome α) : Prop :=
  ∃ shortfall offset code, outcome.1 = .error (.truncated shortfall offset code)

/-- Resolving the branches does not hide a truncation. -/
theorem Framed.isTruncated_finish {outcome : Outcome Framed} (h : outcome.IsTruncated) :
  (finish outcome).IsTruncated
  := by
  obtain ⟨result, events⟩ := outcome
  obtain ⟨shortfall, offset, code, rfl⟩ := h
  exact ⟨_, _, _, rfl⟩

/-! ### Records -/

theorem Input.take?_eq_none_iff {offset : Int} {n : Nat} {rest : Bytes} :
  take? ⟨offset, rest, none⟩ n = none ↔ rest.length < n
  := by
  rw [take?, ← Bytes.splitExact_eq_none_iff]
  split
  · rename_i hsplit
    simp [hsplit]
  · rename_i hsplit
    simp [hsplit]

/-- The length of the operands or the operands themselves are missing. -/
theorem exists_frameOperands_of_cut {code : Int} {operands pre cut : Bytes}
    (hcode : firstLongCode ≤ code) (hlen : operands.length < 2 ^ 16) (hcut : cut ≠ [])
    (h : Bytes.littleEndian 2 operands.length ++ operands = pre ++ cut) (offset start : Int) :
  ∃ shortfall, frameOperands none offset code ⟨start, pre, none⟩
    = .error (.truncated shortfall offset (some code))
  := by
  have hpos := List.length_pos_iff.mpr hcut
  rw [frameOperands, if_neg (not_lt.mpr hcode), if_neg (by simp)]
  obtain ⟨missing, hmissing, hfront⟩ | ⟨tail, rfl, htail⟩ := Bytes.cut_append h.symm
  · have hshort : pre.length < 2 := by
      have hwidth := congrArg List.length hfront
      have := List.length_pos_iff.mpr hmissing
      simp only [Bytes.length_littleEndian, List.length_append] at hwidth
      omega
    rw [Input.take?_eq_none_iff.mpr hshort]
    exact ⟨_, rfl⟩
  · have htake : Input.take? ⟨start, Bytes.littleEndian 2 operands.length ++ tail, none⟩ 2
        = some (Bytes.littleEndian 2 operands.length, ⟨start + 2, tail, none⟩) := by
      apply Input.take?_eq_some_iff.mpr
      exact ⟨tail, rfl, Bytes.length_littleEndian _ _, rfl⟩
    have hshort : tail.length < operands.length := by
      rw [← htail, List.length_append]
      omega
    have hlength : (Bytes.littleEndian 2 operands.length).ofLittleEndian = operands.length :=
      Bytes.ofLittleEndian_littleEndian hlen
    rw [htake]
    simp only [takeOperands, Option.filter_none, hlength, Input.take?_eq_none_iff.mpr hshort]
    exact ⟨_, rfl⟩

namespace Decoder

variable {d : Decoder}

/-- A record that is not complete is not looked into. -/
theorem RecordAt.exists_upcoming_of_cut {offset : Nat} {record pre cut : Bytes} {frame : Frame}
    (h : d.RecordAt offset record frame) (hcode : record.head? ≠ some 0) (hcut : cut ≠ [])
    (hrecord : record = pre ++ cut) :
  ∃ shortfall start code, d.upcoming none (.plain offset pre)
    = .failure (.truncated shortfall start code)
  := by
  cases pre with
  | nil => exact ⟨_, _, _, rfl⟩
  | cons first pre =>
    cases h with
    | short _ _ =>
      obtain ⟨-, hrest⟩ := List.cons.inj hrecord
      exact absurd (List.append_eq_nil_iff.mp hrest.symm).2 hcut
    | @long code operands _ hlong hlen hframe =>
      obtain ⟨rfl, hoperands⟩ := List.cons.inj hrecord
      obtain ⟨shortfall, hfailure⟩ :=
        exists_frameOperands_of_cut hlong hlen hcut hoperands offset (offset + 1)
      have hzero : code ≠ 0 := by simpa using hcode
      refine ⟨shortfall, offset, some code.toNat, ?_⟩
      simp only [upcoming, Option.any_none, Bool.false_eq_true, if_false, Option.isNone_none,
        Bool.true_and, decide_eq_true_eq, if_neg hzero, hfailure]

/-! ### Bodies -/

/-- Bodies that are not complete are read up to the first that is not. -/
theorem BodiesAt.isTruncated_of_cut {offset steps : Nat} {names : List (String × Nat)}
    {bytes pre cut : Bytes} {bodies : List (List Action)}
    (h : d.BodiesAt offset (names.map Prod.snd) bytes bodies) (hcut : cut ≠ [])
    (hbytes : bytes = pre ++ cut) (hsteps : names.length + pre.length < steps) (record : Record)
    (done : List (List Action)) (events : List Event) :
  (d.bodies none steps record names (.plain offset pre) done events).IsTruncated
  := by
  induction names generalizing offset steps bytes pre bodies done events with
  | nil =>
    cases h
    exact absurd (List.append_eq_nil_iff.mp hbytes.symm).2 hcut
  | cons named names ih =>
    obtain ⟨bodyName, size⟩ := named
    obtain ⟨steps, rfl⟩ : ∃ s, steps = s + 1 := Nat.exists_eq_succ_of_ne_zero (by omega)
    rw [List.map_cons] at h
    cases h with
    | @cons _ _ _ body rest placed actions bodies hsize hbody hresolve hrest =>
      obtain rfl : body.length = size := hsize
      obtain ⟨missing, hmissing, hfront⟩ | ⟨tail, rfl, htail⟩ := Bytes.cut_append hbytes.symm
      · have hshort : Bytes.hasAtLeast body.length pre = false := by
          have hwidth := congrArg List.length hfront
          have := List.length_pos_iff.mpr hmissing
          rw [List.length_append] at hwidth
          apply Bool.eq_false_of_not_eq_true
          rw [Bytes.hasAtLeast_iff]
          omega
        rw [Decoder.bodies, hshort]
        exact ⟨_, _, _, rfl⟩
      · rw [List.length_append, List.length_cons] at hsteps
        have hlimit : ∀ l ∈ (none : Option Int), ((offset + body.length : Nat) : Int) ≤ l := by
          simp
        obtain ⟨events', hcons⟩ := exists_bodies_cons (complete steps).1 hbody hresolve hlimit
          (by omega) bodyName record names tail done events
        rw [hcons]
        apply ih hrest htail.symm
        omega

/-! ### Blocks -/

/-- A block that is not complete, or is without the code zero at its end, is not read. -/
theorem BlockAt.isTruncated_of_cut {outermost : Bool} {offset steps : Nat} {bytes pre cut : Bytes}
    {placed : List Placed} (h : d.BlockAt outermost offset bytes placed)
    (houtermost : outermost = true) (hcut : cut ≠ []) (hbytes : bytes ++ [0] = pre ++ cut)
    (hsteps : pre.length < steps) (done : List Placed) (events : List Event) :
  (d.frame none steps (.plain offset pre) done events).IsTruncated
  := by
  induction h using BlockAt.induct generalizing steps pre done events with
  | nil =>
    obtain ⟨steps, rfl⟩ : ∃ s, steps = s + 1 := Nat.exists_eq_succ_of_ne_zero (by omega)
    cases pre with
    | nil => exact ⟨_, _, _, rfl⟩
    | cons first pre =>
      obtain ⟨-, hrest⟩ := List.cons.inj hbytes
      exact absurd (List.append_eq_nil_iff.mp hrest.symm).2 hcut
  | @cons outermost offset record bodyBytes rest frame bodies placed hrecord hcode hbodies _ ih =>
    obtain ⟨steps, rfl⟩ : ∃ s, steps = s + 1 := Nat.exists_eq_succ_of_ne_zero (by omega)
    have hhead : record.head? ≠ some 0 := hcode houtermost
    have hpos := hrecord.length_pos
    have hsizes := hrecord.sizes_length_lt
    have hnames : frame.bodySizes.length = frame.sizes.length := by
      rw [← hrecord.map_bodySizes, List.length_map]
    rw [← hrecord.map_bodySizes] at hbodies
    rw [List.append_assoc, List.append_assoc] at hbytes
    rw [Decoder.frame]
    obtain ⟨missing, hmissing, hfront⟩ | ⟨tail, rfl, htail⟩ := Bytes.cut_append hbytes.symm
    · obtain ⟨shortfall, start, code, hfailure⟩ :=
        hrecord.exists_upcoming_of_cut hhead hmissing hfront
      rw [hfailure]
      exact ⟨_, _, _, rfl⟩
    have hlimit : ∀ l ∈ (none : Option Int), ((offset + record.length : Nat) : Int) ≤ l := by
      simp
    rw [upcoming_of_record hrecord (fun _ => hhead) hlimit]
    rw [List.length_append] at hsteps
    dsimp only
    obtain ⟨missing, hmissing, hfront⟩ | ⟨tail, rfl, hrest⟩ := Bytes.cut_append htail
    · have hbodySteps : frame.bodySizes.length + tail.length < steps := by omega
      have htruncated := hbodies.isTruncated_of_cut hmissing hfront hbodySteps frame.record []
        ((frame.event? offset).toList ++ events)
      generalize d.bodies none steps _ _ _ _ _ = outcome at htruncated ⊢
      obtain ⟨result, events'⟩ := outcome
      obtain ⟨shortfall, start, code, rfl⟩ := htruncated
      exact ⟨_, _, _, rfl⟩
    · rw [List.length_append] at hsteps
      have hbodyLimit : ∀ l ∈ (none : Option Int),
          ((offset + record.length + bodyBytes.length : Nat) : Int) ≤ l := by
        simp
      have hbodySteps : frame.bodySizes.length + bodyBytes.length < steps := by omega
      obtain ⟨events', hread⟩ := (complete steps).2 frame.record tail []
        ((frame.event? offset).toList ++ events) hbodies hbodyLimit hbodySteps
      rw [hread]
      apply ih houtermost hrest.symm
      omega

end Decoder

/-! ### The theorem -/

/-- A block that is read from a byte string delimits itself. After the bytes that were read,
whatever follows them, the same actions are read up to the same place, and the same is reported;
and from fewer bytes than these nothing is read, because they end too early. -/
theorem read_delimited {d : Decoder} {data : Bytes} {actions : List Action} {cursor : Int}
    (h : (d.read (.ofBytes data)).result = .ok (actions, cursor)) :
  ∃ consumed : Nat, cursor = 8 * consumed ∧ consumed ≤ data.length
    ∧ (∀ rest, (d.read (.ofBytes (data.take consumed ++ rest))).result = .ok (actions, cursor)
      ∧ (d.read (.ofBytes (data.take consumed ++ rest))).diagnostics
        = (d.read (.ofBytes data)).diagnostics)
    ∧ ∀ q < consumed, ∃ shortfall offset code,
      (d.read (.ofBytes (data.take q))).result = .error (.truncated shortfall offset code)
  := by
  have hreports := Decoder.diagnostics_of_read h
  obtain ⟨bytes, tail, placed, rfl, hblock, hresolve, rfl⟩ :=
    Decoder.read_ofBytes_eq_ok_iff.mp h
  have htake : (bytes ++ 0 :: tail).take (bytes.length + 1) = bytes ++ [0] := by
    rw [List.take_append]
    simp
  refine ⟨bytes.length + 1, by simp, by simp, ?_, ?_⟩
  · intro rest
    have hread : (d.read (.ofBytes ((bytes ++ 0 :: tail).take (bytes.length + 1) ++ rest))).result
        = .ok (actions, 8 * (bytes.length + 1)) := by
      apply Decoder.read_ofBytes_eq_ok_iff.mpr
      refine ⟨bytes, rest, placed, ?_, hblock, hresolve, rfl⟩
      rw [htake, List.append_assoc, List.singleton_append]
    refine ⟨hread, ?_⟩
    rw [Decoder.diagnostics_of_read hread, hreports]
  · intro q hq
    have hpre : (bytes ++ 0 :: tail).take q = (bytes ++ [0]).take q := by
      rw [← htake, List.take_take, Nat.min_eq_left hq.le]
    have hcut : (bytes ++ [0]).drop q ≠ [] := by
      rw [ne_eq, List.drop_eq_nil_iff, List.length_append]
      exact not_le.mpr hq
    have hsplit : bytes ++ [0] = (bytes ++ [0]).take q ++ (bytes ++ [0]).drop q :=
      (List.take_append_drop q _).symm
    have hframe := hblock.isTruncated_of_cut rfl hcut hsplit (Nat.lt_succ_self _) [] []
    obtain ⟨shortfall, offset, code, hfinish⟩ := Framed.isTruncated_finish hframe
    refine ⟨shortfall, offset, code, ?_⟩
    rw [Decoder.read_ofBytes, map_eq_error_iff, hpre]
    exact hfinish

/-- An action with three bodies, and a byte after the end. The last body is missing from the first
thirteen bytes. -/
theorem read_delimited_try :
  ∃ actions, (Decoder.read ⟨OpcodeTable.shared, true⟩ (.ofBytes [0x8F, 0x08, 0x00, 0x07, 0x01,
      0x00, 0x01, 0x00, 0x01, 0x00, 0x02, 0x06, 0x07, 0x17, 0x00, 0xFF])).result
      = .ok (actions, 8 * 15)
    ∧ (∀ rest, (Decoder.read ⟨OpcodeTable.shared, true⟩ (.ofBytes ([0x8F, 0x08, 0x00, 0x07, 0x01,
      0x00, 0x01, 0x00, 0x01, 0x00, 0x02, 0x06, 0x07, 0x17, 0x00] ++ rest))).result
      = .ok (actions, 8 * 15))
    ∧ ∃ shortfall offset code, (Decoder.read ⟨OpcodeTable.shared, true⟩ (.ofBytes [0x8F, 0x08, 0x00,
      0x07, 0x01, 0x00, 0x01, 0x00, 0x01, 0x00, 0x02, 0x06, 0x07])).result
      = .error (.truncated shortfall offset code)
  := by
  refine ⟨_, rfl, ?_⟩
  obtain ⟨consumed, hconsumed, -, hsame, hcut⟩ := @read_delimited ⟨OpcodeTable.shared, true⟩
    [0x8F, 0x08, 0x00, 0x07, 0x01, 0x00, 0x01, 0x00, 0x01, 0x00, 0x02, 0x06, 0x07, 0x17, 0x00, 0xFF]
    _ (8 * 15) rfl
  obtain rfl : consumed = 15 := by omega
  exact ⟨fun rest => (hsame rest).1, hcut 13 (by decide)⟩

end ActionBlock
