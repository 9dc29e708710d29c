import ActionBlock.Proofs.Shifting
import ActionBlock.Proofs.Slices

/-!
# What edits do

Removing actions from a block and inserting others into it. Each edit leaves in the block a list
function of what was there, and a branch of the block that names an index before it names another
after it, which is a function of that index, whatever integer it is. For this no branch may be in
the block twice. Other actions may.
-/

namespace ActionBlock

namespace Workspace

/-! ### What an edit does -/

/-- An action that is no branch. -/
def Plain (w : Workspace) (r : Ref) : Prop :=
  ∃ record, w.record? r = some record ∧ record.kind.misuse? "jumplike" = none
    ∧ record.operands.isBranch = false

theorem Plain.movable {w : Workspace} {r : Ref} (h : w.Plain r) :
  w.Movable r
  := by
  obtain ⟨record, hrecord, hkind, hbranch⟩ := h
  refine ⟨record, hrecord, hkind, ?_⟩
  intro v hv
  rw [Record.target?_of_not_branch hbranch] at hv
  cases hv

theorem Plain.landing?_eq_none {w : Workspace} {r : Ref} (h : w.Plain r) :
  w.landing? r = none
  := by
  obtain ⟨record, hrecord, -, hbranch⟩ := h
  apply Workspace.landing?_eq_none
  rw [hrecord, Option.bind_some, Record.target?_of_not_branch hbranch]

/-- There are no branches among plain actions. -/
theorem branchesIn_of_plain {w : Workspace} {refs : List Ref} (h : ∀ r ∈ refs, w.Plain r) :
  w.branchesIn refs = []
  := by
  apply List.filter_eq_nil_iff.mpr
  intro r hr
  obtain ⟨record, hrecord, -, hbranch⟩ := h r hr
  simp [hrecord, hbranch]

/-- What an edit does to a block: it leaves the given actions in it, and its branches name other
indices. Nothing else about the records changes. -/
structure Effect (place : Place) (refs : List Ref) (f : Int → Int) (w w' : Workspace) : Prop where
  contents : w'.contents place = refs
  has : w'.Has place
  untargeted : ∀ r, (w'.record? r).map Record.untargeted = (w.record? r).map Record.untargeted
  movable : ∀ r, w.Movable r → w'.Movable r
  landing : ∀ r ∈ refs, r ∈ w.contents place → w'.landing? r = (w.landing? r).map f

namespace Effect

variable {place : Place} {refs refs' : List Ref} {f g : Int → Int} {w w' w'' : Workspace}

theorem refl (h : w.Has place) :
  Effect place (w.contents place) id w w
  := ⟨rfl, h, fun _ => rfl, fun _ h => h, fun _ _ _ => by simp⟩

theorem congr (h : Effect place refs f w w') (hfg : ∀ t, f t = g t) :
  Effect place refs g w w'
  := funext hfg ▸ h

/-- An action that is no branch does not become one. -/
theorem plain (h : Effect place refs f w w') {r : Ref} (hr : w.Plain r) :
  w'.Plain r
  := by
  obtain ⟨record, hrecord, hkind, hbranch⟩ := hr
  have huntargeted := h.untargeted r
  rw [hrecord, Option.map_some, Option.map_eq_some_iff] at huntargeted
  obtain ⟨record', hrecord', hsame⟩ := huntargeted
  refine ⟨record', hrecord', ?_, ?_⟩
  · rw [← Record.kind_untargeted, hsame, Record.kind_untargeted, hkind]
  · rw [← Record.isBranch_untargeted, hsame, Record.isBranch_untargeted, hbranch]

/-- One edit after another. The branches that the second leaves in the block are left by the first.
-/
theorem trans (h : Effect place refs f w w') (h' : Effect place refs' g w' w'')
    (hkept : ∀ r ∈ refs', r ∈ w.contents place → r ∈ refs ∨ w.Plain r) :
  Effect place refs' (g ∘ f) w w''
  where
  contents := h'.contents
  has := h'.has
  untargeted r := (h'.untargeted r).trans (h.untargeted r)
  movable r hr := h'.movable r (h.movable r hr)
  landing r hr hold := by
    obtain hmid | hplain := hkept r hr hold
    · rw [h'.landing r hr (h.contents ▸ hmid), h.landing r hmid hold, Option.map_map]
    · rw [(h'.plain (h.plain hplain)).landing?_eq_none, hplain.landing?_eq_none]
      rfl

/-- Branches are moved, and then the block is changed. -/
theorem of_moved {s : Shift} (hplace : w.Has place)
    (hdistinct : (w.branchesIn (w.contents place)).Nodup) (h : Moved s (w.contents place) w w')
    (refs : List Ref) :
  Effect place refs s.moved w (w'.setContents place refs)
  where
  contents := contents_setContents (h.blocks.has hplace) refs
  has := has_setContents (h.blocks.has hplace) refs
  untargeted r := by rw [record?_setContents, h.untargeted]
  movable r hr := movable_setContents.mpr (h.movable r hr)
  landing r _ hr := by rw [landing?_setContents, h.landing_of_distinct hdistinct hr]

/-- The block is changed, and then branches are moved. -/
theorem of_setContents {s : Shift} (hplace : w.Has place)
    (hdistinct : ((w.setContents place refs).branchesIn refs).Nodup)
    (h : Moved s refs (w.setContents place refs) w') :
  Effect place refs s.moved w w'
  where
  contents := by rw [h.blocks.contents_eq, contents_setContents hplace]
  has := h.blocks.has (has_setContents hplace refs)
  untargeted r := by rw [h.untargeted, record?_setContents]
  movable r hr := h.movable r (movable_setContents.mpr hr)
  landing r hr _ := by rw [h.landing_of_distinct hdistinct hr, landing?_setContents]

/-- Branches stay branches, and nothing else becomes one. -/
theorem branchesIn_eq (h : Effect place refs f w w') (rs : List Ref) :
  w'.branchesIn rs = w.branchesIn rs
  := by
  apply List.filter_congr
  intro r _
  rw [← Record.any_isBranch_untargeted, h.untargeted, Record.any_isBranch_untargeted]

end Effect

section Bounds

variable {place : Place} {w : Workspace} {s : Slice}

/-- A slice with a step is turned into its bounds and nothing changes. -/
theorem run_boundsOf {b : Bounds} (h : s.bounds? (w.contents place).length = some b) :
  (boundsOf place s).run w = (.ok b, w)
  := by
  rw [boundsOf, run_bind_of_ok run_get, h]
  rfl

/-- A slice with a step of zero is refused and nothing changes. -/
theorem run_boundsOf_of_none (h : s.bounds? (w.contents place).length = none) :
  (boundsOf place s).run w = (.error .zeroStep, w)
  := by
  rw [boundsOf, run_bind_of_ok run_get, h]
  rfl

end Bounds

/-! ### Runs of edits -/

section Runs

variable {place : Place} {w : Workspace}

/-- An action is inserted after the branches of the block are moved. -/
theorem exists_insert_moved (hmovable : ∀ r ∈ w.contents place, w.Movable r) (index : Int) (r : Ref)
    {i : Nat} (hi : (i : Int) = min (max (fromStart (w.contents place).length index) 0)
      (w.contents place).length) :
  ∃ w', (insert place index r).run w
      = (.ok (), w'.setContents place ((w.contents place).insertIdx i r))
    ∧ Moved (.insertion i) (w.contents place) w w'
  := by
  obtain ⟨w', hrun, hmoved⟩ := exists_move (.insertion i) hmovable
  refine ⟨w', ?_, hmoved⟩
  rw [insert, run_bind_of_ok run_get]
  simp only [← hi, Int.toNat_natCast]
  rw [run_bind_of_ok hrun, run_modify]

/-- An action is removed before the branches that are left are moved. -/
theorem exists_removeAt_moved (hmovable : ∀ r ∈ w.contents place, w.Movable r) (p : Nat)
    (index : Int) :
  ∃ w', (removeAt place p index).run w = (.ok (), w')
    ∧ Moved (.removal index) ((w.contents place).eraseIdx p)
      (w.setContents place ((w.contents place).eraseIdx p)) w'
  := by
  have hleft : ∀ r ∈ (w.contents place).eraseIdx p,
      (w.setContents place ((w.contents place).eraseIdx p)).Movable r :=
    fun r hr => movable_setContents.mpr (hmovable r (List.mem_of_mem_eraseIdx hr))
  obtain ⟨w', hrun, hmoved⟩ := exists_move (.removal index) hleft
  refine ⟨w', ?_, hmoved⟩
  rw [removeAt, run_bind_of_ok run_get, run_bind_of_ok (run_modify _), hrun]

/-- An index that names an action pops it where the removal succeeds. -/
theorem run_pop_of_locate {index : Int} {p : Nat} {r : Ref} {w' : Workspace}
    (hlocate : locate? (w.contents place) (fromStart (w.contents place).length index) = some (p, r))
    (hrun : (removeAt place p (fromStart (w.contents place).length index)).run w = (.ok (), w')) :
  (pop place index).run w = (.ok r, w')
  := by
  rw [pop, run_bind_of_ok run_get]
  simp only [hlocate]
  rw [run_bind_of_ok hrun]
  rfl

end Runs

/-- A block in which no branch occurs twice, and whose targets are numbers. -/
structure Editable (w : Workspace) (place : Place) : Prop where
  has : w.Has place
  distinct : (w.branchesIn (w.contents place)).Nodup
  movable : ∀ r ∈ w.contents place, w.Movable r

namespace Editable

variable {w w' : Workspace} {place : Place} {refs : List Ref} {f : Int → Int}

/-- A block stays editable if actions are removed. -/
theorem of_sublist (h : w.Editable place) (heffect : Effect place refs f w w')
    (hsublist : refs.Sublist (w.contents place)) :
  w'.Editable place
  where
  has := heffect.has
  distinct := by
    rw [heffect.branchesIn_eq, heffect.contents]
    exact (hsublist.filter _).nodup h.distinct
  movable r hr := heffect.movable r (h.movable r (hsublist.subset (heffect.contents ▸ hr)))

/-! ### Removing actions -/

/-- An action is removed, and the branches move that name a greater index than the given one. -/
theorem exists_removeAt (h : w.Editable place) (p : Nat) (index : Int) :
  ∃ w', (removeAt place p index).run w = (.ok (), w')
    ∧ Effect place ((w.contents place).eraseIdx p) (Shift.removal index).moved w w'
  := by
  have hdistinct : ((w.setContents place ((w.contents place).eraseIdx p)).branchesIn
      ((w.contents place).eraseIdx p)).Nodup := by
    rw [branchesIn_setContents]
    exact ((List.eraseIdx_sublist _ p).filter _).nodup h.distinct
  obtain ⟨w', hrun, hmoved⟩ := exists_removeAt_moved h.movable p index
  exact ⟨w', hrun, .of_setContents h.has hdistinct hmoved⟩

/-- The action is removed that is found at the index counted from the start. -/
theorem exists_pop_of_locate (h : w.Editable place) {index : Int} {p : Nat} {r : Ref}
    (hlocate : locate? (w.contents place) (fromStart (w.contents place).length index)
      = some (p, r)) :
  ∃ w', (pop place index).run w = (.ok r, w')
    ∧ Effect place ((w.contents place).eraseIdx p)
      (Shift.removal (fromStart (w.contents place).length index)).moved w w'
  := by
  obtain ⟨w', hrun, heffect⟩ := h.exists_removeAt p (fromStart (w.contents place).length index)
  exact ⟨w', run_pop_of_locate hlocate hrun, heffect⟩

/-- Popping an action of an editable block succeeds, answers with it and moves every target as the
removal does. -/
theorem exists_pop (h : w.Editable place) {p : Nat} (hp : p < (w.contents place).length)
    {index : Int}
    (hindex : fromStart (w.contents place).length index = p) :
  ∃ w', (pop place index).run w = (.ok (w.contents place)[p], w')
    ∧ Effect place ((w.contents place).eraseIdx p) (Shift.removal p).moved w w'
  := by
  rw [← hindex]
  apply h.exists_pop_of_locate
  rw [hindex]
  exact locate?_eq_some (fromStart_of_nonneg (Int.natCast_nonneg p)) hp

/-- Actions are removed one after the other, the last one first. -/
theorem exists_popAll {ps : List Nat} (h : w.Editable place) (hdesc : ps.Pairwise (· > ·))
    (hlt : ∀ p ∈ ps, p < (w.contents place).length) :
  ∃ w', (popAll place ps).run w = (.ok (), w')
    ∧ Effect place (ps.foldl List.eraseIdx (w.contents place))
      (fun t => t - ps.countP (fun p : Nat => (p : Int) < t)) w w'
  := by
  induction ps generalizing w with
  | nil => exact ⟨w, rfl, (Effect.refl h.has).congr fun t => by simp⟩
  | cons p ps ih =>
    obtain ⟨hfirst, hrest⟩ := List.pairwise_cons.mp hdesc
    have hp := hlt p List.mem_cons_self
    obtain ⟨w₁, hpop, heffect⟩ := h.exists_pop hp (fromStart_of_nonneg (Int.natCast_nonneg p))
    have hsublist := List.eraseIdx_sublist (w.contents place) p
    have hlt' : ∀ q ∈ ps, q < (w₁.contents place).length := by
      intro q hq
      have := hfirst q hq
      rw [heffect.contents, List.length_eraseIdx_of_lt hp]
      omega
    obtain ⟨w', hrun, heffect'⟩ := ih (h.of_sublist heffect hsublist) hrest hlt'
    rw [heffect.contents] at heffect'
    refine ⟨w', ?_, (heffect.trans heffect' ?_).congr ?_⟩
    · rw [popAll, run_bind_of_ok (run_discard_of_ok hpop), hrun]
    · intro r hr _
      exact .inl ((foldl_eraseIdx_sublist ps _).subset hr)
    · -- The positions left are below the one removed, so moving past it changes none of them.
      intro t
      have hcount : ps.countP (fun q : Nat => (q : Int) < (Shift.removal p).moved t)
          = ps.countP (fun q : Nat => (q : Int) < t) := by
        apply List.countP_congr
        intro q hq
        have := hfirst q hq
        rw [Shift.moved_removal]
        simp only [decide_eq_true_eq]
        split <;> omega
      rw [Function.comp_apply, hcount, Shift.moved_removal, List.countP_cons]
      simp only [decide_eq_true_eq]
      split <;> omega

/-- The actions of a slice are removed. -/
theorem exists_deleteBounds (h : w.Editable place) {b : Bounds}
    (hb : b.Within (w.contents place).length) :
  ∃ w', (deleteBounds place b).run w = (.ok (), w')
    ∧ Effect place (without (w.contents place) b.positions)
      (fun t => t - b.positions.countP (fun p : Nat => (p : Int) < t)) w w'
  := by
  have hperm := List.mergeSort_perm b.positions fun i j => j ≤ i
  obtain ⟨w', hrun, heffect⟩ := h.exists_popAll (pairwise_mergeSort_gt hb.nodup_positions)
    (fun p hp => hb.lt_of_mem (hperm.mem_iff.mp hp))
  rw [foldl_eraseIdx_mergeSort hb.nodup_positions fun p => hb.lt_of_mem] at heffect
  refine ⟨w', hrun, heffect.congr fun t => ?_⟩
  rw [hperm.countP_eq]

/-! ### Inserting actions -/

/-- Inserting into an editable block succeeds at the clamped index and moves every target as the
insertion does. -/
theorem exists_insert (h : w.Editable place) (index : Int) (r : Ref) {i : Nat}
    (hi : (i : Int) = min (max (fromStart (w.contents place).length index) 0)
      (w.contents place).length) :
  ∃ w', (insert place index r).run w = (.ok (), w')
    ∧ Effect place ((w.contents place).take i ++ [r] ++ (w.contents place).drop i)
      (Shift.insertion i).moved w w'
  := by
  obtain ⟨w', hrun, hmoved⟩ := exists_insert_moved h.movable index r hi
  rw [insertIdx_eq_splice (by omega)] at hrun
  exact ⟨_, hrun, .of_moved h.has h.distinct hmoved _⟩

/-- A block stays editable if actions are inserted that are no branches. -/
theorem of_splice (h : w.Editable place) {i : Nat} {rs : List Ref}
    (heffect : Effect place ((w.contents place).take i ++ rs ++ (w.contents place).drop i) f w w')
    (hplain : ∀ r ∈ rs, w.Plain r) :
  w'.Editable place
  where
  has := heffect.has
  distinct := by
    have hperm := (splice_perm (w.contents place) rs i).filter
      fun r => (w.record? r).any (·.operands.isBranch)
    rw [heffect.branchesIn_eq, heffect.contents, branchesIn, hperm.nodup_iff, List.filter_append,
      ← branchesIn, branchesIn_of_plain hplain, List.nil_append]
    exact h.distinct
  movable r hr := by
    rw [heffect.contents, (splice_perm _ _ _).mem_iff, List.mem_append] at hr
    exact heffect.movable r (hr.elim (fun hnew => (hplain r hnew).movable) (h.movable r))

/-- Actions that are no branches are inserted one after the other. -/
theorem exists_insertAll (h : w.Editable place) {i : Nat} (hi : i ≤ (w.contents place).length)
    {rs : List Ref} (hplain : ∀ r ∈ rs, w.Plain r) :
  ∃ w', (insertAll place i rs).run w = (.ok (), w')
    ∧ Effect place ((w.contents place).take i ++ rs ++ (w.contents place).drop i)
      (fun t => if (i : Int) ≤ t then t + rs.length else t) w w'
  := by
  induction rs generalizing w i with
  | nil =>
    refine ⟨w, rfl, ?_⟩
    rw [List.append_nil, List.take_append_drop]
    exact (Effect.refl h.has).congr fun t => by simp
  | cons r rs ih =>
    have hindex : (i : Int) = min (max (fromStart (w.contents place).length (i : Int)) 0)
        (w.contents place).length := by
      rw [fromStart_of_nonneg (Int.natCast_nonneg i)]
      omega
    obtain ⟨w₁, hinsert, heffect⟩ := h.exists_insert i r hindex
    have hperm := splice_perm (w.contents place) [r] i
    have h₁ : w₁.Editable place := by
      apply h.of_splice heffect
      simpa using hplain r List.mem_cons_self
    have hplain' : ∀ x ∈ rs, w₁.Plain x :=
      fun x hx => heffect.plain (hplain x (List.mem_cons_of_mem r hx))
    have hlength : (w₁.contents place).length = (w.contents place).length + 1 := by
      rw [heffect.contents, hperm.length_eq, List.singleton_append, List.length_cons]
    have hi' : i + 1 ≤ (w₁.contents place).length := by omega
    obtain ⟨w', hrun, heffect'⟩ := ih h₁ hi' hplain'
    have hfront : ((w.contents place).take i ++ [r]).length = i + 1 := by
      simp [hi]
    rw [heffect.contents, List.take_left' hfront, List.drop_left' hfront] at heffect'
    refine ⟨w', ?_, ?_⟩
    · rw [insertAll, run_bind_of_ok hinsert, hrun]
    · rw [← List.singleton_append, ← List.append_assoc]
      apply (heffect.trans heffect' _).congr
      · intro t
        rw [Function.comp_apply, Shift.moved_insertion, List.length_append, List.length_singleton]
        push_cast
        split <;> split <;> omega
      · intro x _ hx
        rw [hperm.mem_iff]
        exact .inl (List.mem_append_right [r] hx)

end Editable

end Workspace

end ActionBlock
