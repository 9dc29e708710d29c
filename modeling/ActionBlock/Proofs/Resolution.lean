import ActionBlock.Opcode.Standard
import ActionBlock.Proofs.Extent

/-!
# Branch resolution

A branch lands on the offset after its record plus its displacement. Resolution succeeds if and
only if every branch of the block lands on the start of an action of that block or on the end of
the block, and then gives each branch the index of what it lands on. Otherwise it fails with the
first branch that does not. What a branch may land on is in no record but at its start, in no
other block, and not after the end of the block.
-/

namespace ActionBlock

/-- A branch has no bodies. -/
theorem Operands.bodyNames_of_displacement {o : Operands} {x : Int} (h : o.displacement? = some x) :
  o.bodyNames = []
  := by
  cases o <;> first | rfl | cases h

/-- Where a branch lands: the offset after its record, plus its displacement. -/
def Placed.destination? (data : Bytes) (p : Placed) : Option Int :=
  p.action.record.operands.displacement?.map ((recordEnd data p.start.toNat : Int) + ·)

namespace Decoder

variable {d : Decoder} {data : Bytes}

/-- A branch ends with its record. -/
theorem ActionAt.stop_of_displacement {p : Placed} {stop x : Int} (h : d.ActionAt data p stop)
    (hx : p.action.record.operands.displacement? = some x) :
  stop = recordEnd data p.start.toNat
  := by
  obtain ⟨offset, record, bodyBytes, tail, frame, bodies, rfl, hdata, hrecord, hbodies, rfl⟩ := h
  obtain ⟨_, _, hframe⟩ := hrecord.exists_record
  have hsizes : frame.sizes = [] := by
    have hnames : frame.record.operands.bodyNames = [] := Operands.bodyNames_of_displacement hx
    apply List.eq_nil_of_length_eq_zero
    rw [← (record_sizes hframe).1, hnames]
    rfl
  rw [hsizes] at hbodies
  cases hbodies
  rw [Int.toNat_natCast, hrecord.recordEnd_eq hdata]
  simp

/-- Where an action lands depends on the end of its record only. -/
theorem ActionAt.land_eq {starts : List Int} {p : Placed} {stop : Int}
    (h : d.ActionAt data p stop) :
  land starts p stop = land starts p (recordEnd data p.start.toNat)
  := by
  cases hx : p.action.record.operands.displacement? with
  | none => simp [land, hx]
  | some x => rw [h.stop_of_displacement hx]

/-- The actions of a block are resolved one by one, each branch from the end of its record. -/
theorem BlockAt.resolve_eq_mapM {outermost : Bool} {offset : Nat} {bytes tail : Bytes}
    {placed : List Placed} (h : d.BlockAt outermost offset bytes placed)
    (hdata : data.drop offset = bytes ++ tail) :
  resolve placed (offset + bytes.length : Nat)
    = placed.mapM fun p => land (landings placed (offset + bytes.length : Nat)) p
      (recordEnd data p.start.toNat)
  := by
  have hplaces := h.forall₂_actionAt hdata
  rw [ActionBlock.resolve_eq_mapM]
  generalize landings placed (offset + bytes.length : Nat) = starts at hplaces ⊢
  generalize starts.drop 1 = stops at hplaces ⊢
  clear h
  induction hplaces with
  | nil => rfl
  | cons hplace _ ih =>
    rw [List.zip_cons_cons, List.mapM_cons, List.mapM_cons, ih, Function.uncurry_apply_pair,
      hplace.land_eq]

/-- No offset at which a branch may land is in a record of an action or of its bodies, except for
the start of the action. -/
theorem BlockAt.eq_start_of_mem_span {outermost : Bool} {offset : Nat} {bytes tail : Bytes}
    {placed : List Placed} (h : d.BlockAt outermost offset bytes placed)
    (hdata : data.drop offset = bytes ++ tail) :
  ∀ p ∈ placed, ∀ span ∈ p.action.spans data,
    ∀ x ∈ landings placed (offset + bytes.length : Nat),
      (span.1 : Int) ≤ x → x < span.2 → x = p.start
  := by
  induction h using BlockAt.induct with
  | nil => simp
  | @cons _ offset record bodyBytes rest frame bodies placed hrecord _ hbodies hrest ih =>
    rw [List.append_assoc, List.append_assoc] at hdata
    have hbody := Bytes.drop_add_length hdata
    have hnext := Bytes.drop_add_length hbody
    have haction := (hrecord.contiguous hdata (hbodies.contiguous hbody)).within
    have hrestSpans := (hrest.contiguous hnext).within
    have hlandings := hrest.pairwise_landings.2
    have hpos := hrecord.length_pos
    intro p hp span hspan x hx hle hlt
    rw [Bytes.add_length_append_append, landings_cons] at hx
    obtain rfl | hp := List.mem_cons.mp hp
    · obtain rfl | hx := List.mem_cons.mp hx
      · rfl
      · have := haction span hspan
        have := hlandings x hx
        omega
    · obtain rfl | hx := List.mem_cons.mp hx
      · have := hrestSpans span (mem_blockSpans (List.mem_map_of_mem hp) hspan)
        simp only at hle
        omega
      · exact ih hnext p hp span hspan x hx hle hlt

end Decoder

/-! ### Where branches land -/

section Destinations

variable {data : Bytes} {starts : List Int} {p : Placed}

/-- An action lands exactly when it has no destination, or one among the starts, which is then its
target. -/
theorem land_eq_ok_iff_destination {a : Action} :
  land starts p (recordEnd data p.start.toNat) = .ok a
    ↔ (p.destination? data = none ∧ a = p.action)
      ∨ ∃ x t, p.destination? data = some x ∧ starts.idxOf? x = some t
        ∧ a = p.action.withTarget t
  := by
  rw [land_eq_ok_iff, Placed.destination?]
  cases p.action.record.operands.displacement? with
  | none => simp only [Option.map_none, reduceCtorEq, false_and, exists_false]
  | some n => simp only [Option.map_some, reduceCtorEq, Option.some.injEq, exists_and_left,
      exists_eq_left']

/-- An action fails to land exactly when its destination is not among the starts, and the error
names it. -/
theorem land_eq_error_iff_destination {e : DecodeError} :
  land starts p (recordEnd data p.start.toNat) = .error e
    ↔ ∃ x, p.destination? data = some x ∧ x ∉ starts
      ∧ e = .badLanding p.action.record.nameText p.action.record.codeNumber p.start x
  := by
  rw [land_eq_error_iff, Placed.destination?]
  cases p.action.record.operands.displacement? with
  | none => simp only [Option.map_none, reduceCtorEq, false_and, exists_false]
  | some n => simp only [Option.map_some, Option.some.injEq, exists_eq_left']

/-- An action lands exactly when its destination, if it has one, is among the starts. -/
theorem exists_land_iff :
  (∃ a, land starts p (recordEnd data p.start.toNat) = .ok a)
    ↔ ∀ x ∈ p.destination? data, x ∈ starts
  := by
  cases h : land starts p (recordEnd data p.start.toNat) with
  | ok a =>
    obtain ⟨hx, -⟩ | ⟨x, t, hx, ht, -⟩ := land_eq_ok_iff_destination.mp h
    · simp [hx]
    · have hmem := List.mem_of_getElem? (getElem?_of_idxOf? ht)
      simp [hx, hmem]
  | error e =>
    obtain ⟨x, hx, hmem, -⟩ := land_eq_error_iff_destination.mp h
    simp [hx, hmem]

end Destinations

/-- A framed block is finished by resolving its branches. -/
theorem Framed.finish_fst (framed : Framed) (events : List Event) :
  (finish (.ok framed, events)).1
    = (resolve framed.actions framed.stop).map fun actions => (actions, framed.next)
  := by
  rw [finish]
  cases resolve framed.actions framed.stop <;> rfl

/-! ### The theorem -/

/-- In every block that is framed, the outermost one or a body of the given size, branches are
resolved if and only if each of them lands on the start of an action of the block or on its end. A
resolved branch has the index of what it lands on as its target and is otherwise as it was, and the
first branch that does not land is the one of the error. The offsets on which branches land lie
between the start and the end of the block, which is its size after the start or else at a code
zero, and none of them lies within a record, of the block or of a body, other than at the start of
an action of the block. -/
theorem resolution_sound_complete {d : Decoder} {data : Bytes} {start : Nat} {size : Option Nat}
    {steps : Nat} {events earlier : List Event} {framed : Framed}
    (h : d.frame (size.map fun n => ((start + n : Nat) : Int)) steps
      (.plain start (data.drop start)) [] events = (.ok framed, earlier)) :
  ((∃ r, (Framed.finish (.ok framed, earlier)).1 = .ok r)
      ↔ ∀ p ∈ framed.actions, ∀ x ∈ p.destination? data,
        x ∈ landings framed.actions framed.stop)
    ∧ (∀ actions next, (Framed.finish (.ok framed, earlier)).1 = .ok (actions, next) →
      List.Forall₂ (fun p a =>
        (p.destination? data = none ∧ a = p.action)
          ∨ ∃ x t, p.destination? data = some x
            ∧ (landings framed.actions framed.stop)[t]? = some x ∧ p.action.Targeted t a)
        framed.actions actions)
    ∧ (∀ e, (Framed.finish (.ok framed, earlier)).1 = .error e →
      ∃ before p after x, framed.actions = before ++ p :: after
        ∧ (∀ q ∈ before, ∀ y ∈ q.destination? data, y ∈ landings framed.actions framed.stop)
        ∧ p.destination? data = some x ∧ x ∉ landings framed.actions framed.stop
        ∧ e = .badLanding p.action.record.nameText p.action.record.codeNumber p.start x)
    ∧ (landings framed.actions framed.stop).Pairwise (· < ·)
    ∧ (∀ x ∈ landings framed.actions framed.stop, (start : Int) ≤ x ∧ x ≤ framed.stop)
    ∧ (∀ p ∈ framed.actions, ∀ span ∈ p.action.spans data,
      ∀ x ∈ landings framed.actions framed.stop, (span.1 : Int) ≤ x → x < span.2 → x = p.start)
    ∧ (∀ n ∈ size, framed.stop = (start + n : Nat))
    ∧ (size = none → data[framed.stop.toNat]? = some 0)
  := by
  have hlimit : ∀ l ∈ size.map fun n => ((start + n : Nat) : Int), (start : Int) ≤ l := by
    simp
  obtain ⟨bytes, tail, placed, next, hdata, hblock, rfl, hend⟩ := (Decoder.sound steps).1 hlimit h
  have hresolve := hblock.resolve_eq_mapM hdata
  have hlandings := hblock.pairwise_landings
  simp only [Framed.finish_fst, List.reverse_nil, List.nil_append, hresolve]
  refine ⟨?_, ?_, ?_, hlandings.1, ?_, hblock.eq_start_of_mem_span hdata, ?_, ?_⟩
  · simp only [map_eq_ok_iff, ← exists_land_iff, ← exists_mapM_eq_ok_iff]
    constructor
    · rintro ⟨_, actions, hactions, -⟩
      exact ⟨actions, hactions⟩
    · rintro ⟨actions, hactions⟩
      exact ⟨_, actions, hactions, rfl⟩
  · intro actions next' hok
    obtain ⟨_, hactions, heq⟩ := map_eq_ok_iff.mp hok
    obtain ⟨rfl, -⟩ := Prod.mk.inj heq
    apply (mapM_eq_ok_iff.mp hactions).imp
    intro p a ha
    obtain hplain | ⟨x, t, hx, ht, rfl⟩ := land_eq_ok_iff_destination.mp ha
    · exact .inl hplain
    · obtain ⟨d, hd, -⟩ := Option.map_eq_some_iff.mp hx
      exact .inr ⟨x, t, hx, getElem?_of_idxOf? ht, targeted_withTarget hd t⟩
  · intro e herror
    obtain ⟨before, p, after, hsplit, hbefore, hp⟩ :=
      mapM_eq_error_iff.mp (map_eq_error_iff.mp herror)
    obtain ⟨x, hx, hmem, rfl⟩ := land_eq_error_iff_destination.mp hp
    exact ⟨before, p, after, x, hsplit, fun q hq => exists_land_iff.mp (hbefore q hq), hx, hmem,
      rfl⟩
  · intro x hx
    refine ⟨hlandings.2 x hx, ?_⟩
    obtain hx | hx := List.mem_append.mp hx
    · exact ((List.pairwise_append.mp hlandings.1).2.2 x hx _ List.mem_cons_self).le
    · exact (List.mem_singleton.mp hx).le
  · intro n hn
    obtain rfl := hn
    exact (hend.eq_of_mem _ rfl).symm
  · rintro rfl
    cases hend
    rw [Int.toNat_natCast, ← List.getElem?_drop, hdata]
    simp

/-- A jump over an action to the end of the block. -/
def jumpOverPlay : Bytes := [0x99, 0x02, 0x00, 0x01, 0x00, 0x06, 0x00]

/-- A jump over an action lands on the end of the block, and has its index as the target. -/
theorem resolution_sound_complete_jump :
  ∃ framed, Decoder.frame ⟨OpcodeTable.shared, false⟩ none 8 (.plain 0 jumpOverPlay) [] []
      = (.ok framed, [])
    ∧ landings framed.actions framed.stop = [0, 5, 6]
    ∧ ∃ actions next, (Framed.finish (.ok framed, [])).1 = .ok (actions, next)
      ∧ actions.map (·.record.operands.target?) = [some (.int 2), none]
  := by
  obtain ⟨framed, jump, play, hframe, hlandings, hactions, hjump, hplay, huntargeted⟩ :
      ∃ framed jump play, Decoder.frame ⟨OpcodeTable.shared, false⟩ none 8 (.plain 0 jumpOverPlay)
          [] [] = (.ok framed, [])
        ∧ landings framed.actions framed.stop = [0, 5, 6] ∧ framed.actions = [jump, play]
        ∧ jump.destination? jumpOverPlay = some 6 ∧ play.destination? jumpOverPlay = none
        ∧ play.action.record.operands.target? = none :=
    ⟨_, _, _, rfl, rfl, rfl, by decide, by decide, rfl⟩
  refine ⟨framed, hframe, hlandings, ?_⟩
  obtain ⟨hreturns, hresolved, -⟩ := @resolution_sound_complete ⟨OpcodeTable.shared, false⟩
    jumpOverPlay 0 none 8 [] [] framed hframe
  rw [hlandings] at hreturns hresolved
  rw [hactions] at hreturns hresolved
  obtain ⟨⟨actions, next⟩, hok⟩ := hreturns.mpr (by simp [hjump, hplay])
  refine ⟨actions, next, hok, ?_⟩
  obtain ⟨a, rest, ha, hrest, rfl⟩ := List.forall₂_cons_left_iff.mp (hresolved actions next hok)
  obtain ⟨b, last, hb, hlast, rfl⟩ := List.forall₂_cons_left_iff.mp hrest
  obtain rfl := List.forall₂_nil_left_iff.mp hlast
  have hlands : a.record.operands.target? = some (.int 2) := by
    obtain ⟨hnone, -⟩ | ⟨x, t, hx, ht, htargeted⟩ := ha
    · rw [hjump] at hnone
      cases hnone
    · obtain rfl := Option.some.inj (hjump.symm.trans hx)
      obtain _ | _ | _ | t := t
      · cases ht
      · cases ht
      · exact htargeted.target
      · cases ht
  obtain ⟨-, rfl⟩ | ⟨x, t, hx, -⟩ := hb
  · rw [List.map_cons, List.map_cons, hlands, huntargeted]
    rfl
  · rw [hplay] at hx
    cases hx

end ActionBlock
