import ActionBlock.Proofs.Effects

/-!
# Edits keep branches on their actions

If the actions of a block are distinct and every branch among them names an action of the block or
its end, then this is so again after an edit, and so it goes on for any number of edits. What a
branch names afterwards is what it named before or, if that was removed, the next action that is
left.
-/

namespace ActionBlock

/-! ### Following actions -/

/-- When `refs` has become `refs'`, the index `t'` names in it the action that `t` named or, if that
is gone, the next one that is still there. If there is none, it is the end. -/
structure Follows (refs refs' : List Ref) (t t' : Nat) : Prop where
  le : t' ≤ refs'.length
  getElem?_eq : refs'[t']? = (refs.drop t).find? (· ∈ refs')

namespace Follows

variable {refs refs' : List Ref} {t t' : Nat}

/-- A target follows the edit when what lies behind it is what is left of what lay behind it
before. -/
theorem of_drop (hle : t' ≤ refs'.length)
    (h : refs'.drop t' = (refs.drop t).filter (· ∈ refs')) :
  Follows refs refs' t t'
  := by
  refine ⟨hle, ?_⟩
  rw [← List.head?_drop, h, List.head?_filter]

theorem refl (h : t ≤ refs.length) :
  Follows refs refs t t
  := by
  apply of_drop h
  symm
  apply filter_mem_eq_self (List.drop_subset t refs)

/-- Other actions are inserted. -/
theorem splice (h : Follows refs refs' t t') {i : Nat} (hi : i ≤ refs'.length) {rs : List Ref}
    (hfresh : ∀ r ∈ rs, r ∉ refs) :
  Follows refs (refs'.take i ++ rs ++ refs'.drop i) t (if i ≤ t' then t' + rs.length else t')
  := by
  have hperm := splice_perm refs' rs i
  have hle := h.le
  constructor
  · rw [hperm.length_eq, List.length_append]
    split <;> omega
  · rw [getElem?_splice hi, h.getElem?_eq, ← List.head?_filter, ← List.head?_filter]
    congr 1
    apply List.filter_congr
    intro x hx
    have hold : x ∉ rs := fun hnew => hfresh x hnew (List.mem_of_mem_drop hx)
    rw [decide_eq_decide, hperm.mem_iff, List.mem_append, or_iff_right hold]

/-- The action that an index names, if it is still there, is named again. -/
theorem same (h : Follows refs refs' t t') {x : Ref} (hx : refs[t]? = some x) (hmem : x ∈ refs') :
  refs'[t']? = some x
  := by
  obtain ⟨ht, rfl⟩ := List.getElem?_eq_some_iff.mp hx
  rw [h.getElem?_eq, List.drop_eq_getElem_cons ht, List.find?_cons_of_pos (by simpa using hmem)]

/-- If the action that an index names is gone, the next one that is still there is named. -/
theorem next (h : Follows refs refs' t t') {x : Ref} (hx : refs[t]? = some x) (hmem : x ∉ refs') :
  refs'[t']? = (refs.drop (t + 1)).find? (· ∈ refs')
  := by
  obtain ⟨ht, rfl⟩ := List.getElem?_eq_some_iff.mp hx
  rw [h.getElem?_eq, List.drop_eq_getElem_cons ht, List.find?_cons_of_neg (by simpa using hmem)]

/-- The end stays the end. -/
theorem length_eq (h : Follows refs refs' t t') (ht : t = refs.length) :
  t' = refs'.length
  := by
  have hnone := h.getElem?_eq
  rw [ht, List.drop_length, List.find?_nil, List.getElem?_eq_none_iff] at hnone
  exact le_antisymm h.le hnone

end Follows

/-! ### Edits -/

/-- An edit of a block. -/
inductive Edit where
  | insert (index : Int) (r : Ref)
  /-- The removal of the action at an index. -/
  | pop (index : Int)
  | deleteSlice (s : Slice)
  | remove (r : Ref)
  | replaceSlice (s : Slice) (rs : List Ref)

namespace Workspace

/-- Whether an action is a branch. -/
def IsBranch (w : Workspace) (r : Ref) : Prop :=
  ∃ record, w.record? r = some record ∧ record.operands.isBranch = true

/-- A block of distinct actions, each branch of which names an action of the block or its end. -/
structure Sound (w : Workspace) (place : Place) : Prop where
  has : w.Has place
  nodup : (w.contents place).Nodup
  action : ∀ r ∈ w.contents place,
    ∃ record, w.record? r = some record ∧ record.kind.misuse? "jumplike" = none
  landing : ∀ r ∈ w.contents place, w.IsBranch r →
    ∃ t : Nat, w.landing? r = some (t : Int) ∧ t ≤ (w.contents place).length

/-- An action that is no branch and is not in the block. -/
def Fresh (w : Workspace) (place : Place) (r : Ref) : Prop :=
  r ∉ w.contents place
    ∧ ∃ record, w.record? r = some record ∧ record.kind.misuse? "jumplike" = none
      ∧ record.operands.isBranch = false

end Workspace

namespace Edit

/-- Makes an edit of the block at a place. -/
def apply (place : Place) : Edit → EditOp Unit
  | insert index r => Workspace.insert place index r
  | pop index => discard (Workspace.pop place index)
  | deleteSlice s => Workspace.deleteSlice place s
  | remove r => Workspace.remove place r
  | replaceSlice s rs => Workspace.replaceSlice place s rs

/-- The edits that keep branches where they are: an index is one of the block, an action to be
removed is in it, a slice to be replaced has no gaps, and what is inserted is new and no branch. -/
def Admissible (place : Place) (w : Workspace) : Edit → Prop
  | insert _ r => w.Fresh place r
  | pop index => -((w.contents place).length : Int) ≤ index ∧ index < (w.contents place).length
  | deleteSlice _ => True
  | remove r => r ∈ w.contents place
  | replaceSlice s rs => s.step.getD 1 = 1 ∧ rs.Nodup ∧ ∀ r ∈ rs, w.Fresh place r

/-- How an edit ends. Only a slice with a step of zero cannot be deleted. -/
def outcome : Edit → Except EditError Unit
  | deleteSlice s => if s.step = some 0 then .error .zeroStep else .ok ()
  | _ => .ok ()

/-- What an edit leaves of a block. -/
def contents (refs : List Ref) : Edit → List Ref
  | insert index r =>
    refs.insertIdx (min (max (fromStart refs.length index) 0) refs.length).toNat r
  | pop index => refs.eraseIdx (fromStart refs.length index).toNat
  | deleteSlice s => (s.bounds? refs.length).elim refs fun b => without refs b.positions
  | remove r => refs.erase r
  | replaceSlice s rs => (s.bounds? refs.length).elim refs fun b =>
      refs.take b.start.toNat ++ rs ++ refs.drop (max b.start b.stop).toNat

end Edit

namespace Workspace

variable {w w' : Workspace} {place : Place}

theorem Sound.editable (h : w.Sound place) :
  w.Editable place
  where
  has := h.has
  distinct := h.nodup.filter _
  movable r hr := by
    obtain ⟨record, hrecord, hkind⟩ := h.action r hr
    refine ⟨record, hrecord, hkind, ?_⟩
    intro v hv
    cases hbranch : record.operands.isBranch with
    | false =>
      rw [Record.target?_of_not_branch hbranch] at hv
      cases hv
    | true =>
      obtain ⟨t, ht, -⟩ := h.landing r hr ⟨record, hrecord, hbranch⟩
      rw [landing?, hrecord, Option.bind_some, Record.landing?, hv, Option.bind_some] at ht
      exact Value.isNumber_of_whole ht

theorem Fresh.plain {r : Ref} (h : w.Fresh place r) :
  w.Plain r
  := h.2

/-- An action stays the same kind of action. -/
theorem Effect.record {refs : List Ref} {f : Int → Int} (h : Effect place refs f w w') {r : Ref}
    {record' : Record} (hrecord' : w'.record? r = some record') :
  ∃ record, w.record? r = some record ∧ record'.kind = record.kind
    ∧ record'.operands.isBranch = record.operands.isBranch
  := by
  have huntargeted := h.untargeted r
  rw [hrecord', Option.map_some, eq_comm, Option.map_eq_some_iff] at huntargeted
  obtain ⟨record, hrecord, hsame⟩ := huntargeted
  refine ⟨record, hrecord, ?_, ?_⟩
  · rw [← Record.kind_untargeted, ← hsame, Record.kind_untargeted]
  · rw [← Record.isBranch_untargeted, ← hsame, Record.isBranch_untargeted]

/-- What it takes for an edit to keep the branches of a block on its actions. -/
structure Keeps (place : Place) (refs : List Ref) (w w' : Workspace) : Prop where
  editable : w'.Editable place
  nodup : refs.Nodup
  members : ∀ r ∈ refs, r ∈ w.contents place ∨ w.Fresh place r
  tracks : ∃ f, Effect place refs f w w' ∧ ∀ t : Nat, t ≤ (w.contents place).length →
    ∃ t' : Nat, f t = t' ∧ Follows (w.contents place) refs t t'

theorem Sound.keeps (h : w.Sound place) :
  Keeps place (w.contents place) w w
  := ⟨h.editable, h.nodup, fun _ => .inl, id, .refl h.has, fun t ht => ⟨t, rfl, .refl ht⟩⟩

/-- If what is left of a block keeps its branches, it still does with fresh actions among it. -/
theorem Keeps.splice {w₁ : Workspace} {refs rs : List Ref} {g : Int → Int} {i : Nat}
    (h : Keeps place refs w w₁) (hleft : refs ⊆ w.contents place) (hi : i ≤ refs.length)
    (hnodup : rs.Nodup) (hfresh : ∀ r ∈ rs, w.Fresh place r)
    (heffect : Effect place (refs.take i ++ rs ++ refs.drop i) g w₁ w')
    (hg : ∀ t : Nat, g t = (if i ≤ t then t + rs.length else t : Nat)) :
  Keeps place (refs.take i ++ rs ++ refs.drop i) w w'
  := by
  have hgone : ∀ r ∈ rs, r ∉ refs := fun r hr hmem => (hfresh r hr).1 (hleft hmem)
  have hmem : ∀ r, r ∈ refs.take i ++ rs ++ refs.drop i ↔ r ∈ rs ∨ r ∈ refs := by
    intro r
    rw [(splice_perm refs rs i).mem_iff, List.mem_append]
  obtain ⟨f, hleaves, htracks⟩ := h.tracks
  obtain rfl := hleaves.contents
  refine ⟨?_, ?_, ?_, _, hleaves.trans heffect ?_, ?_⟩
  · apply h.editable.of_splice heffect
    exact fun r hr => hleaves.plain (hfresh r hr).plain
  · rw [(splice_perm _ _ _).nodup_iff, List.nodup_append]
    exact ⟨hnodup, h.nodup, fun a ha b hb hab => hgone a ha (hab ▸ hb)⟩
  · intro r hr
    exact ((hmem r).mp hr).elim (fun hnew => .inr (hfresh r hnew)) (fun hold => .inl (hleft hold))
  · intro r hr hold
    exact .inl (((hmem r).mp hr).resolve_left fun hnew => (hfresh r hnew).1 hold)
  · intro t ht
    obtain ⟨t', ht', hfollows⟩ := htracks t ht
    refine ⟨_, ?_, hfollows.splice hi fun r hr => (hfresh r hr).1⟩
    rw [Function.comp_apply, ht', hg]

/-- An action removed by its position, from either end, keeps the branches of the other actions. -/
theorem Sound.exists_pop (h : w.Sound place) {p : Nat} (hp : p < (w.contents place).length)
    {index : Int} (hindex : fromStart (w.contents place).length index = p) :
  ∃ w', (discard (pop place index)).run w = (.ok (), w')
    ∧ Keeps place ((w.contents place).eraseIdx p) w w'
  := by
  obtain ⟨w', hrun, heffect⟩ := h.editable.exists_pop hp hindex
  have hsublist := List.eraseIdx_sublist (w.contents place) p
  refine ⟨w', run_discard_of_ok hrun, h.editable.of_sublist heffect hsublist,
    hsublist.nodup h.nodup, fun r hr => .inl (hsublist.subset hr), _, heffect, ?_⟩
  intro t ht
  refine ⟨if p < t then t - 1 else t, ?_, .of_drop ?_ (drop_eraseIdx h.nodup hp t)⟩
  · rw [Shift.moved_removal]
    split <;> split <;> omega
  · rw [List.length_eraseIdx_of_lt hp]
    split <;> omega

/-- A slice deleted keeps the branches of the other actions. -/
theorem Sound.exists_deleteBounds (h : w.Sound place) {b : Bounds}
    (hb : b.Within (w.contents place).length) :
  ∃ w', (deleteBounds place b).run w = (.ok (), w')
    ∧ Keeps place (without (w.contents place) b.positions) w w'
  := by
  obtain ⟨w', hrun, heffect⟩ := h.editable.exists_deleteBounds hb
  have hsublist := without_sublist (w.contents place) b.positions
  refine ⟨w', hrun, h.editable.of_sublist heffect hsublist, hsublist.nodup h.nodup,
    fun r hr => .inl (hsublist.subset hr), _, heffect, ?_⟩
  intro t ht
  obtain ⟨hle, hdrop⟩ := drop_without h.nodup hb.nodup_positions (fun p => hb.lt_of_mem) ht
  refine ⟨_, ?_, .of_drop hle hdrop⟩
  have hcount := countP_lt_le hb.nodup_positions t
  simp only [Int.ofNat_lt]
  omega

/-- A fresh action inserted at any index, which is clamped to the block, keeps the branches of the
other actions. -/
theorem Sound.exists_insert (h : w.Sound place) (index : Int) {r : Ref} (hr : w.Fresh place r) :
  ∃ w', (insert place index r).run w = (.ok (), w')
    ∧ Keeps place ((w.contents place).insertIdx
      (min (max (fromStart (w.contents place).length index) 0)
        (w.contents place).length).toNat r) w w'
  := by
  obtain ⟨i, hi⟩ : ∃ i : Nat, (i : Int) = min (max (fromStart (w.contents place).length index) 0)
      (w.contents place).length := ⟨_, Int.toNat_of_nonneg (by omega)⟩
  have hlength : i ≤ (w.contents place).length := by omega
  obtain ⟨w', hrun, heffect⟩ := h.editable.exists_insert index r hi
  rw [← hi, Int.toNat_natCast, insertIdx_eq_splice hlength]
  refine ⟨w', hrun, ?_⟩
  apply h.keeps.splice (List.Subset.refl _) hlength (List.nodup_singleton r) _ heffect
  · intro t
    rw [Shift.moved_insertion, List.length_singleton]
    split <;> split <;> omega
  · simpa using hr

/-- A slice without gaps is replaced. -/
theorem Sound.exists_replace (h : w.Sound place) {b : Bounds}
    (hb : b.Within (w.contents place).length) (hstep : b.step = 1) {rs : List Ref}
    (hnodup : rs.Nodup) (hfresh : ∀ r ∈ rs, w.Fresh place r) :
  ∃ w', (do
      deleteBounds place ⟨b.start, max b.start b.stop, 1⟩
      insertAll place b.start.toNat rs).run w = (.ok (), w')
    ∧ Keeps place ((w.contents place).take b.start.toNat ++ rs
      ++ (w.contents place).drop (max b.start b.stop).toNat) w w'
  := by
  obtain ⟨hstart, hstart', hstop⟩ := hb.ascending (by omega)
  have hwithin : (Bounds.mk b.start (max b.start b.stop) 1).Within (w.contents place).length :=
    ⟨by simp, fun _ => ⟨hstart, hstart', max_le hstart' hstop⟩, fun hneg => by simp at hneg⟩
  obtain ⟨w₁, hdelete, hkeeps⟩ := h.exists_deleteBounds hwithin
  have hleft := (without_sublist (w.contents place)
    (Bounds.mk b.start (max b.start b.stop) 1).positions).subset
  rw [without_of_interval (by omega) (by omega) fun p => Bounds.mem_positions_of_step_one hstart]
    at hkeeps hleft
  obtain ⟨f, heffect, -⟩ := hkeeps.tracks
  have hfront : ((w.contents place).take b.start.toNat).length = b.start.toNat := by
    rw [List.length_take]
    omega
  have hi : b.start.toNat ≤ (w₁.contents place).length := by
    rw [heffect.contents, List.length_append, hfront]
    omega
  obtain ⟨w', hinsert, heffect'⟩ := hkeeps.editable.exists_insertAll hi
    fun r hr => heffect.plain (hfresh r hr).plain
  rw [heffect.contents] at hi heffect'
  have hspliced := hkeeps.splice hleft hi hnodup hfresh heffect' (by
    intro t
    split <;> split <;> omega)
  rw [List.take_left' hfront, List.drop_left' hfront] at hspliced
  exact ⟨w', by rw [run_bind_of_ok hdelete, hinsert], hspliced⟩

/-- Every edit that is admissible is made, and keeps branches on their actions. -/
theorem Sound.exists_keeps (h : w.Sound place) {e : Edit} (he : e.Admissible place w) :
  ∃ w', (e.apply place).run w = (e.outcome, w')
    ∧ Keeps place (e.contents (w.contents place)) w w'
  := by
  cases e with
  | insert index r => exact h.exists_insert index he
  | pop index =>
    obtain ⟨hlow, hhigh⟩ := he
    have hrange : 0 ≤ fromStart (w.contents place).length index
        ∧ fromStart (w.contents place).length index < (w.contents place).length := by
      rw [fromStart]
      split <;> omega
    exact h.exists_pop (by omega) (Int.toNat_of_nonneg hrange.1).symm
  | remove r =>
    cases hindex : (w.contents place).idxOf? r with
    | none => exact absurd he (List.idxOf?_eq_none_iff.mp hindex)
    | some p =>
      obtain ⟨hp, -⟩ := List.idxOf?_eq_some_iff.mp hindex
      obtain ⟨w', hrun, hkeeps⟩ := h.exists_pop hp (fromStart_of_nonneg (Int.natCast_nonneg p))
      refine ⟨w', ?_, ?_⟩
      · rw [Edit.apply, remove, run_bind_of_ok run_get]
        simp only [indexOf, hindex]
        exact hrun
      · rw [Edit.contents, List.erase_eq_eraseIdx, hindex]
        exact hkeeps
  | deleteSlice s =>
    cases hbounds : s.bounds? (w.contents place).length with
    | none =>
      refine ⟨w, ?_, ?_⟩
      · rw [Edit.apply, deleteSlice, run_bind_of_error (run_boundsOf_of_none hbounds),
          Edit.outcome, if_pos (Slice.bounds?_eq_none_iff.mp hbounds)]
      · rw [Edit.contents, hbounds, Option.elim_none]
        exact h.keeps
    | some b =>
      obtain ⟨w', hrun, hkeeps⟩ := h.exists_deleteBounds (Slice.within_of_bounds? hbounds)
      have hstep : s.step ≠ some 0 := by
        intro hzero
        rw [Slice.bounds?_eq_none_iff.mpr hzero] at hbounds
        cases hbounds
      refine ⟨w', ?_, ?_⟩
      · rw [Edit.apply, deleteSlice, run_bind_of_ok (run_boundsOf hbounds), hrun,
          Edit.outcome, if_neg hstep]
      · rw [Edit.contents, hbounds, Option.elim_some]
        exact hkeeps
  | replaceSlice s rs =>
    obtain ⟨hone, hnodup, hfresh⟩ := he
    cases hbounds : s.bounds? (w.contents place).length with
    | none =>
      rw [Slice.bounds?_eq_none_iff.mp hbounds] at hone
      cases hone
    | some b =>
      have hstep : b.step = 1 := (Slice.step_of_bounds? hbounds).trans hone
      obtain ⟨w', hrun, hkeeps⟩ :=
        h.exists_replace (Slice.within_of_bounds? hbounds) hstep hnodup hfresh
      refine ⟨w', ?_, ?_⟩
      · rw [Edit.apply, replaceSlice, run_bind_of_ok (run_boundsOf hbounds), hstep]
        exact hrun
      · rw [Edit.contents, hbounds, Option.elim_some]
        exact hkeeps

namespace Keeps

variable {refs : List Ref}

/-- A branch that is left follows the action that it named. -/
theorem follows (h : Keeps place refs w w') (hsound : w.Sound place) {r : Ref} (hr : r ∈ refs)
    (hbranch : w'.IsBranch r) :
  r ∈ w.contents place
    ∧ ∃ t t' : Nat, w.landing? r = some (t : Int) ∧ w'.landing? r = some (t' : Int)
      ∧ Follows (w.contents place) refs t t'
  := by
  obtain ⟨f, heffect, htracks⟩ := h.tracks
  obtain ⟨record', hrecord', hbranch'⟩ := hbranch
  obtain ⟨record, hrecord, -, hsame⟩ := heffect.record hrecord'
  obtain hold | ⟨-, fresh, hfresh, -, hplain⟩ := h.members r hr
  · obtain ⟨t, ht, hle⟩ := hsound.landing r hold ⟨record, hrecord, hsame ▸ hbranch'⟩
    obtain ⟨t', ht', hfollows⟩ := htracks t hle
    refine ⟨hold, t, t', ht, ?_, hfollows⟩
    rw [heffect.landing r hr hold, ht, Option.map_some, ht']
  · obtain rfl := Option.some.inj (hrecord.symm.trans hfresh)
    rw [hsame, hplain] at hbranch'
    cases hbranch'

/-- What keeps the branches of a sound block leaves it sound. -/
theorem sound (h : Keeps place refs w w') (hsound : w.Sound place) :
  w'.Sound place
  := by
  obtain ⟨f, heffect, -⟩ := h.tracks
  refine ⟨h.editable.has, heffect.contents ▸ h.nodup, ?_, ?_⟩
  · intro r hr
    obtain ⟨record, hrecord, hkind, -⟩ := h.editable.movable r hr
    exact ⟨record, hrecord, hkind⟩
  · intro r hr hbranch
    rw [heffect.contents] at hr ⊢
    obtain ⟨-, t, t', -, ht', hfollows⟩ := h.follows hsound hr hbranch
    exact ⟨t', ht', hfollows.le⟩

end Keeps

end Workspace

/-! ### Runs of edits -/

/-- The workspaces that a workspace becomes by edits of one of its blocks, and by making actions
that occur nowhere yet. -/
inductive Edited (place : Place) (w : Workspace) : Workspace → Prop where
  | refl : Edited place w w
  | make {w' : Workspace} (hrun : Edited place w w') (cell : Cell) : Edited place w (w'.add cell).2
  | step {w' : Workspace} (hrun : Edited place w w') (e : Edit) (he : e.Admissible place w') :
      Edited place w ((e.apply place).run w').2

/-- What occurs nowhere yet makes no difference to a block. -/
theorem Workspace.Sound.add {place : Place} {w : Workspace} (h : w.Sound place) (cell : Cell) :
  (w.add cell).2.Sound place
  := by
  refine ⟨has_add h.has cell, ?_, ?_, ?_⟩ <;> rw [contents_add h.has]
  · exact h.nodup
  · intro r hr
    obtain ⟨record, hold, hkind⟩ := h.action r hr
    exact ⟨record, record?_add hold cell, hkind⟩
  · rintro r hr ⟨record', hrecord', hbranch⟩
    obtain ⟨record, hold, -⟩ := h.action r hr
    have hrecord := record?_add hold cell
    obtain rfl := Option.some.inj (hrecord.symm.trans hrecord')
    obtain ⟨t, ht, hle⟩ := h.landing r hr ⟨record, hold, hbranch⟩
    rw [landing?, hold] at ht
    exact ⟨t, by rw [landing?, hrecord, ht], hle⟩

/-- A sound block stays sound, however often it is edited. -/
theorem Edited.sound {place : Place} {w w' : Workspace} (h : Edited place w w')
    (hsound : w.Sound place) :
  w'.Sound place
  := by
  induction h with
  | refl => exact hsound
  | make _ cell ih => exact ih.add cell
  | step _ e he ih =>
    obtain ⟨w'', hrun, hkeeps⟩ := ih.exists_keeps he
    rw [hrun]
    apply hkeeps.sound ih

/-! ### The theorem -/

/-- Edits keep branches on their actions. Start from a block of distinct actions each branch of
which names an action of the block or its end, and make any number of admissible edits. The next one
leaves of the block what it should, and the block sound. A branch that is still in the block names
what it named before, an action or the end; and if the action that it named is gone, it names the
next one that is still there, or the end if there is none. -/
theorem edits_keep_branches {place : Place} {w w' : Workspace} (hsound : w.Sound place)
    (hrun : Edited place w w') {e : Edit} (he : e.Admissible place w') :
  ∃ w'', (e.apply place).run w' = (e.outcome, w'')
    ∧ w''.contents place = e.contents (w'.contents place)
    ∧ w''.Sound place
    ∧ ∀ r ∈ w''.contents place, w''.IsBranch r → r ∈ w'.contents place
      ∧ ∃ t t' : Nat, w'.landing? r = some (t : Int) ∧ w''.landing? r = some (t' : Int)
        ∧ t' ≤ (w''.contents place).length
        ∧ (∀ x, (w'.contents place)[t]? = some x → x ∈ w''.contents place →
          (w''.contents place)[t']? = some x)
        ∧ (t = (w'.contents place).length → t' = (w''.contents place).length)
        ∧ ∀ x, (w'.contents place)[t]? = some x → x ∉ w''.contents place →
          (w''.contents place)[t']?
            = ((w'.contents place).drop (t + 1)).find? (· ∈ w''.contents place)
  := by
  have hsound' := hrun.sound hsound
  obtain ⟨w'', hstep, hkeeps⟩ := hsound'.exists_keeps he
  obtain ⟨f, heffect, -⟩ := hkeeps.tracks
  refine ⟨w'', hstep, heffect.contents, hkeeps.sound hsound', ?_⟩
  intro r hr hbranch
  rw [heffect.contents] at hr ⊢
  obtain ⟨hold, t, t', ht, ht', hfollows⟩ := hkeeps.follows hsound' hr hbranch
  exact ⟨hold, t, t', ht, ht', hfollows.le, fun x => hfollows.same, hfollows.length_eq,
    fun x => hfollows.next⟩

/-- A branch to the third of four actions, a branch to the end, and an action that is not in the
block. -/
def branchesAround : Workspace where
  cells := #[⟨.jump 2, []⟩, ⟨.pop, []⟩, ⟨.play, []⟩, ⟨.jumpIf 4, []⟩, ⟨.stop, []⟩]
  root := [0, 1, 2, 3]

theorem edits_keep_branches_branchesAround :
  branchesAround.Sound .root
    ∧ ∃ w, ((Edit.remove 2).apply .root).run
        (((Edit.insert (-3) 4).apply .root).run branchesAround).2 = (.ok (), w)
      ∧ w.contents .root = [0, 4, 1, 3]
      ∧ (∃ t : Nat, w.landing? 0 = some (t : Int) ∧ (w.contents .root)[t]? = some 3)
      ∧ w.landing? 3 = some 4
  := by
  have hmem : ∀ r ∈ branchesAround.contents .root, r = 0 ∨ r = 1 ∨ r = 2 ∨ r = 3 := by
    simp [branchesAround, Workspace.contents]
  have hsound : branchesAround.Sound .root := by
    refine ⟨trivial, by decide, ?_, ?_⟩
    · intro r hr
      obtain rfl | rfl | rfl | rfl := hmem r hr
      all_goals exact ⟨_, rfl, rfl⟩
    · rintro r hr ⟨record, hrecord, hbranch⟩
      obtain rfl | rfl | rfl | rfl := hmem r hr
      · exact ⟨2, rfl, by decide⟩
      · cases hrecord
        cases hbranch
      · cases hrecord
        cases hbranch
      · exact ⟨4, rfl, by decide⟩
  have hinsert : (Edit.insert (-3) 4).Admissible .root branchesAround :=
    ⟨by decide, _, rfl, rfl, rfl⟩
  have hremove : (Edit.remove 2).Admissible .root
      (((Edit.insert (-3) 4).apply .root).run branchesAround).2 := by
    change 2 ∈ [0, 4, 1, 2, 3]
    decide
  obtain ⟨w, hrun, hcontents, -, hlands⟩ :=
    edits_keep_branches hsound (.step .refl (.insert (-3) 4) hinsert) hremove
  obtain rfl : (((Edit.remove 2).apply .root).run
      (((Edit.insert (-3) 4).apply .root).run branchesAround).2).2 = w := congrArg Prod.snd hrun
  refine ⟨hsound, _, hrun, hcontents, ?_, ?_⟩
  · obtain ⟨-, t, t', ht, ht', -, -, -, hnext⟩ := hlands 0 (by decide) ⟨_, rfl, rfl⟩
    have hnamed : some (3 : Int) = some (t : Int) := ht
    obtain rfl : 3 = t := by exact_mod_cast Option.some.inj hnamed
    exact ⟨t', ht', hnext 2 rfl (by decide)⟩
  · obtain ⟨-, t, t', ht, ht', -, -, hend, -⟩ := hlands 3 (by decide) ⟨_, rfl, rfl⟩
    have hnamed : some (5 : Int) = some (t : Int) := ht
    obtain rfl : 5 = t := by exact_mod_cast Option.some.inj hnamed
    rw [ht', hend rfl]
    rfl

end ActionBlock
