import ActionBlock.Proofs.Grammar
import ActionBlock.Proofs.Landing

/-!
# Where actions stand

The actions of a block stand in the data one after the other. Each begins with its record, whose
end can be told from its code and its length, and its bodies follow up to the next action or to
the end of the block.
-/

namespace ActionBlock

/-- The offset after the record at an offset: after its code, or after the operands whose length
stands after the code. -/
def recordEnd (data : Bytes) (offset : Nat) : Nat :=
  if ((data.getD offset 0).toNat : Int) < firstLongCode then offset + 1
  else offset + 3 + Bytes.ofLittleEndian ((data.drop (offset + 1)).take 2)

/-- The end of a record, found from its code and length alone, is where the grammar ends it. -/
theorem Decoder.RecordAt.recordEnd_eq {d : Decoder} {data : Bytes} {offset : Nat}
    {record tail : Bytes} {frame : Frame} (h : d.RecordAt offset record frame)
    (hdata : data.drop offset = record ++ tail) :
  recordEnd data offset = offset + record.length
  := by
  have hget : data.getD offset 0 = (record ++ tail).headD 0 := by
    rw [← hdata]
    simp
  have hnext : data.drop (offset + 1) = (record ++ tail).drop 1 := by
    rw [← hdata, List.drop_drop]
  cases h with
  | short hcode _ =>
    rw [recordEnd, hget]
    exact if_pos hcode
  | @long code operands _ hcode hlen _ =>
    have htake : (data.drop (offset + 1)).take 2 = Bytes.littleEndian 2 operands.length := by
      rw [hnext, List.cons_append, List.drop_one, List.tail_cons, List.append_assoc,
        List.take_left' (Bytes.length_littleEndian _ _)]
    rw [recordEnd, hget, List.cons_append, List.headD_cons, if_neg (not_lt.mpr hcode), htake,
      Bytes.ofLittleEndian_littleEndian hlen, List.length_cons, List.length_append,
      Bytes.length_littleEndian]
    omega

/-! ### The actions of a block -/

namespace Decoder

variable {d : Decoder} {data : Bytes}

/-- An action of a block stands in the data from its start to where the next one starts. -/
def ActionAt (d : Decoder) (data : Bytes) (p : Placed) (stop : Int) : Prop :=
  ∃ (offset : Nat) (record bodyBytes tail : Bytes) (frame : Frame) (bodies : List (List Action)),
    p = ⟨offset, .mk none frame.record bodies⟩
    ∧ data.drop offset = record ++ (bodyBytes ++ tail) ∧ d.RecordAt offset record frame
    ∧ d.BodiesAt (offset + record.length) frame.sizes bodyBytes bodies
    ∧ stop = (offset + record.length + bodyBytes.length : Nat)

/-- The first place a branch of a block can land on is the block's own start. -/
theorem BlockAt.landings_eq_cons {outermost : Bool} {offset : Nat} {bytes : Bytes}
    {placed : List Placed} (h : d.BlockAt outermost offset bytes placed) :
  landings placed (offset + bytes.length : Nat)
    = (offset : Int) :: (landings placed (offset + bytes.length : Nat)).drop 1
  := by
  cases h <;> simp

/-- The actions of a block stand one after the other. -/
theorem BlockAt.forall₂_actionAt {outermost : Bool} {offset : Nat} {bytes tail : Bytes}
    {placed : List Placed} (h : d.BlockAt outermost offset bytes placed)
    (hdata : data.drop offset = bytes ++ tail) :
  List.Forall₂ (d.ActionAt data) placed ((landings placed (offset + bytes.length : Nat)).drop 1)
  := by
  induction h using BlockAt.induct with
  | nil => exact .nil
  | @cons _ offset record bodyBytes rest frame bodies placed hrecord _ hbodies hrest ih =>
    rw [List.append_assoc, List.append_assoc] at hdata
    have hnext := Bytes.drop_add_length (Bytes.drop_add_length hdata)
    rw [Bytes.add_length_append_append, landings_cons, List.drop_one, List.tail_cons,
      hrest.landings_eq_cons]
    refine .cons ⟨offset, record, bodyBytes, rest ++ tail, frame, bodies, rfl, hdata, hrecord,
      hbodies, rfl⟩ (ih hnext)

/-- The actions of a block start at different offsets, in their order. -/
theorem BlockAt.pairwise_landings {outermost : Bool} {offset : Nat} {bytes : Bytes}
    {placed : List Placed} (h : d.BlockAt outermost offset bytes placed) :
  (landings placed (offset + bytes.length : Nat)).Pairwise (· < ·)
    ∧ ∀ x ∈ landings placed (offset + bytes.length : Nat), (offset : Int) ≤ x
  := by
  induction h using BlockAt.induct with
  | nil => simp
  | @cons _ offset record bodyBytes rest frame bodies placed hrecord _ hbodies hrest ih =>
    obtain ⟨hpairwise, hle⟩ := ih
    have hpos := hrecord.length_pos
    rw [Bytes.add_length_append_append, landings_cons]
    constructor
    · apply List.Pairwise.cons _ hpairwise
      intro x hx
      have hlt : (offset : Int) < x := by
        have := hle x hx
        omega
      exact hlt
    · intro x hx
      obtain rfl | hx := List.mem_cons.mp hx
      · exact le_rfl
      · have := hle x hx
        omega

end Decoder

/-! ### Spans -/

/-- Where a record stands in the data, by the offset at which it was read: its offset, and the
offset after it. -/
def Record.spans (data : Bytes) (r : Record) : List (Nat × Nat) :=
  match r.offset with
  | .int offset => [(offset.toNat, recordEnd data offset.toNat)]
  | _ => []

mutual

/-- Where the record of an action stands, and the records of the actions in its bodies. -/
def Action.spans (data : Bytes) : Action → List (Nat × Nat)
  | .mk _ record bodies => record.spans data ++ bodiesSpans data bodies

/-- Where the records of the actions of bodies stand. -/
def bodiesSpans (data : Bytes) : List (List Action) → List (Nat × Nat)
  | [] => []
  | body :: bodies => blockSpans data body ++ bodiesSpans data bodies

/-- Where the records of the actions of a block stand, and of the actions in their bodies. -/
def blockSpans (data : Bytes) : List Action → List (Nat × Nat)
  | [] => []
  | a :: actions => a.spans data ++ blockSpans data actions

end

theorem blockSpans_eq_flatten (data : Bytes) (actions : List Action) :
  blockSpans data actions = (actions.map (Action.spans data)).flatten
  := by
  induction actions with
  | nil => rfl
  | cons a actions ih => rw [blockSpans, ih, List.map_cons, List.flatten_cons]

theorem mem_blockSpans {data : Bytes} {a : Action} {actions : List Action} {span : Nat × Nat}
    (ha : a ∈ actions) (h : span ∈ a.spans data) :
  span ∈ blockSpans data actions
  := by
  rw [blockSpans_eq_flatten]
  exact List.mem_flatten.mpr ⟨_, List.mem_map_of_mem ha, h⟩

theorem Action.spans_withTarget (data : Bytes) (t : Nat) (a : Action) :
  (a.withTarget t).spans data = a.spans data
  := by
  cases a
  rfl

/-- Resolving the branches does not change the bytes a block spans. -/
theorem blockSpans_of_resolve {data : Bytes} {placed : List Placed} {stop : Int}
    {actions : List Action} (h : resolve placed stop = .ok actions) :
  blockSpans data actions = blockSpans data (placed.map Placed.action)
  := by
  rw [blockSpans_eq_flatten, blockSpans_eq_flatten, map_of_resolve (Action.spans_withTarget data) h]

/-- Spans that stand one after the other, from a start to a stop. -/
inductive Contiguous : Nat → List (Nat × Nat) → Nat → Prop where
  | nil {start : Nat} : Contiguous start [] start
  | cons {start next stop : Nat} {spans : List (Nat × Nat)} (hspan : start < next)
      (hspans : Contiguous next spans stop) :
      Contiguous start ((start, next) :: spans) stop

namespace Contiguous

variable {start next stop : Nat} {spans : List (Nat × Nat)}

/-- Spans that begin where others end are contiguous with them. -/
theorem append {others : List (Nat × Nat)} (h : Contiguous start spans next)
    (h' : Contiguous next others stop) :
  Contiguous start (spans ++ others) stop
  := by
  induction h with
  | nil => exact h'
  | cons hspan _ ih => exact .cons hspan (ih h')

theorem le (h : Contiguous start spans stop) :
  start ≤ stop
  := by
  induction h with
  | nil => exact le_rfl
  | cons hspan _ ih => omega

/-- Contiguous spans are not empty and lie between their two ends. -/
theorem within (h : Contiguous start spans stop) :
  ∀ span ∈ spans, start ≤ span.1 ∧ span.1 < span.2 ∧ span.2 ≤ stop
  := by
  induction h with
  | nil => simp
  | cons hspan hspans ih =>
    intro span hmem
    obtain rfl | hmem := List.mem_cons.mp hmem
    · exact ⟨le_rfl, hspan, hspans.le⟩
    · obtain ⟨hstart, hpos, hstop⟩ := ih span hmem
      exact ⟨by omega, hpos, hstop⟩

/-- Every offset from the start to the stop is in exactly one of the spans. -/
theorem existsUnique {i : Nat} (h : Contiguous start spans stop) (hi : start ≤ i) (hi' : i < stop) :
  ∃! k : Nat, ∃ span, spans[k]? = some span ∧ span.1 ≤ i ∧ i < span.2
  := by
  induction h with
  | nil => omega
  | @cons start next stop spans hspan hspans ih =>
    by_cases hnext : i < next
    · refine ⟨0, ⟨_, rfl, hi, hnext⟩, ?_⟩
      rintro k ⟨span, hspan', hle, -⟩
      cases k with
      | zero => rfl
      | succ k =>
        have := hspans.within span (List.mem_of_getElem? (by simpa using hspan'))
        omega
    · obtain ⟨k, hk, hunique⟩ := ih (by omega) hi'
      refine ⟨k + 1, by simpa using hk, ?_⟩
      rintro j ⟨span, hspan', hle, hlt⟩
      cases j with
      | zero =>
        obtain rfl := Option.some.inj hspan'
        exact absurd hlt hnext
      | succ j => rw [hunique j ⟨span, by simpa using hspan', hle, hlt⟩]

end Contiguous

namespace Decoder

variable {d : Decoder} {data : Bytes}

theorem RecordAt.offset_eq {offset : Nat} {record : Bytes} {frame : Frame}
    (h : d.RecordAt offset record frame) :
  frame.record.offset = .int offset
  := by
  obtain ⟨_, _, hframe⟩ := h.exists_record
  obtain ⟨-, -, rfl⟩ | ⟨_, _, _, _, -, -, rfl⟩ := record_eq_ok_iff.mp hframe
  · rfl
  · rfl

/-- A record spans the bytes it was read from. -/
theorem RecordAt.spans_eq {offset : Nat} {record tail : Bytes} {frame : Frame}
    (h : d.RecordAt offset record frame) (hdata : data.drop offset = record ++ tail) :
  frame.record.spans data = [(offset, offset + record.length)]
  := by
  rw [Record.spans, h.offset_eq, ← h.recordEnd_eq hdata]
  rfl

/-- An action spans its record and then its bodies, without a gap. -/
theorem RecordAt.contiguous {offset stop : Nat} {record tail : Bytes} {frame : Frame}
    {bodies : List (List Action)} (h : d.RecordAt offset record frame)
    (hdata : data.drop offset = record ++ tail)
    (hbodies : Contiguous (offset + record.length) (bodiesSpans data bodies) stop) :
  Contiguous offset ((Action.mk none frame.record bodies).spans data) stop
  := by
  rw [Action.spans, h.spans_eq hdata]
  exact .cons (Nat.lt_add_of_pos_right h.length_pos) hbodies

mutual

/-- The records of a block and of its bodies stand one after the other. -/
theorem BlockAt.contiguous {outermost : Bool} :
  ∀ {offset : Nat} {bytes tail : Bytes} {placed : List Placed},
    d.BlockAt outermost offset bytes placed → data.drop offset = bytes ++ tail →
    Contiguous offset (blockSpans data (placed.map Placed.action)) (offset + bytes.length)
  | _, _, _, _, .nil, _ => .nil
  | offset, _, tail, _,
      @BlockAt.cons _ _ _ record bodyBytes rest frame bodies placed hrecord _ hbodies hrest,
      hdata => by
    simp only [List.append_assoc] at hdata
    have hbody := Bytes.drop_add_length hdata
    have haction := hrecord.contiguous hdata (hbodies.contiguous hbody)
    have hrestSpans := hrest.contiguous (Bytes.drop_add_length hbody)
    have hstop : offset + (record ++ bodyBytes ++ rest).length
        = offset + record.length + bodyBytes.length + rest.length := by
      simp only [List.length_append]
      omega
    rw [hstop, List.map_cons, blockSpans]
    exact haction.append hrestSpans

/-- The records of bodies stand one after the other. -/
theorem BodiesAt.contiguous :
  ∀ {offset : Nat} {sizes : List Nat} {bytes tail : Bytes} {bodies : List (List Action)},
    d.BodiesAt offset sizes bytes bodies → data.drop offset = bytes ++ tail →
    Contiguous offset (bodiesSpans data bodies) (offset + bytes.length)
  | _, _, _, _, _, .nil, _ => .nil
  | offset, _, _, tail, _,
      @BodiesAt.cons _ _ size _ body rest placed actions bodies hsize hbody hresolve hrest,
      hdata => by
    simp only [List.append_assoc] at hdata
    have hnext := Bytes.drop_add_length hdata
    rw [hsize] at hnext
    have hbodySpans := hbody.contiguous hdata
    have hrestSpans := hrest.contiguous hnext
    rw [hsize] at hbodySpans
    rw [bodiesSpans, blockSpans_of_resolve hresolve, List.length_append, hsize, ← add_assoc]
    exact hbodySpans.append hrestSpans

end

end Decoder

end ActionBlock
