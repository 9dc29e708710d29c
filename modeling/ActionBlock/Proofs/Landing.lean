import ActionBlock.Block.Decode
import ActionBlock.Proofs.Fields

/-!
# Landing

Resolution looks at the actions of a block one by one. A branch lands on the offset where it ends
plus its displacement, and gets the index of the action that starts there, or of the end of the
block. Apart from the targets of branches, resolution changes nothing.
-/

namespace ActionBlock

/-- Where the actions of a block start, and where the block ends. -/
def landings (block : List Placed) (stop : Int) : List Int := block.map Placed.start ++ [stop]

@[simp]
theorem landings_nil (stop : Int) : landings [] stop = [stop] := rfl

@[simp]
theorem landings_cons (p : Placed) (block : List Placed) (stop : Int) :
  landings (p :: block) stop = p.start :: landings block stop
  := rfl

/-- Resolves an action of a block, given where the actions of the block start and where the action
itself ends. -/
def land (starts : List Int) (p : Placed) (stop : Int) : Except DecodeError Action :=
  match p.action.record.operands.displacement? with
  | none => .ok p.action
  | some displacement =>
    match starts.idxOf? (stop + displacement) with
    | some target => .ok (p.action.withTarget target)
    | none =>
      .error (.badLanding p.action.record.nameText p.action.record.codeNumber p.start
        (stop + displacement))

theorem resolveFrom_cons (starts : List Int) (p : Placed) (block : List Placed) (stop : Int)
    (stops : List Int) (done : List Action) :
  resolveFrom starts (p :: block) (stop :: stops) done
    = (land starts p stop).bind fun a => resolveFrom starts block stops (a :: done)
  := by
  rw [resolveFrom, land]
  cases p.action.record.operands.displacement? with
  | none => rfl
  | some displacement =>
    dsimp only
    cases starts.idxOf? (stop + displacement) <;> rfl

/-- Resolution goes through the actions in order and fails with the first that does not land. -/
theorem resolveFrom_eq {starts : List Int} {block : List Placed} {stops : List Int}
    {done : List Action} (h : block.length = stops.length) :
  resolveFrom starts block stops done
    = ((block.zip stops).mapM (Function.uncurry (land starts))).map (done.reverse ++ ·)
  := by
  induction block generalizing stops done with
  | nil => simp [resolveFrom, Except.map, pure, Except.pure]
  | cons p block ih =>
    cases stops with
    | nil => cases h
    | cons stop stops =>
      rw [resolveFrom_cons, List.zip_cons_cons, List.mapM_cons, Function.uncurry_apply_pair]
      cases hland : land starts p stop with
      | error e => rfl
      | ok a =>
        simp only [Except.bind, bind, ih (Nat.succ.inj h)]
        cases (block.zip stops).mapM (Function.uncurry (land starts)) <;>
          simp [Except.map, pure, Except.pure]

/-- Branches are resolved action by action, each from where the next one starts. -/
theorem resolve_eq_mapM (block : List Placed) (stop : Int) :
  resolve block stop = (block.zip ((landings block stop).drop 1)).mapM
    (Function.uncurry (land (landings block stop)))
  := by
  have hid : ∀ x : Except DecodeError (List Action), x.map ([].reverse ++ ·) = x := by
    intro x
    cases x <;> rfl
  rw [resolve, resolveFrom_eq (by simp), hid]
  rfl

/-! ### What resolution does -/

theorem getElem?_of_idxOf? {starts : List Int} {x : Int} {t : Nat} (h : starts.idxOf? x = some t) :
  starts[t]? = some x
  := by
  obtain ⟨ht, hx, -⟩ := List.idxOf?_eq_some_iff.mp h
  rw [List.getElem?_eq_getElem ht, hx]

/-- In a list of starts that go up, each is found at its own place. -/
theorem idxOf?_of_pairwise {starts : List Int} {x : Int} {t : Nat}
    (hpairwise : starts.Pairwise (· < ·)) (h : starts[t]? = some x) :
  starts.idxOf? x = some t
  := by
  obtain ⟨ht, rfl⟩ := List.getElem?_eq_some_iff.mp h
  apply List.idxOf?_eq_some_iff.mpr
  refine ⟨ht, rfl, ?_⟩
  intro j hj
  apply Int.ne_of_lt
  exact List.pairwise_iff_getElem.mp hpairwise j t (Nat.lt_trans hj ht) ht hj

/-- A branch and what becomes of it as it is resolved: its target is the given index, and nothing
else about it is different. -/
structure Action.Targeted (t : Nat) (a b : Action) : Prop where
  target : b.record.operands.target? = some (.int t)
  record : ∃ old displacement, a.record.operands = .branch old displacement
    ∧ b.record = { a.record with operands := .branch (.int t) displacement }
  identity : b.identity = a.identity
  bodies : b.bodies = a.bodies

/-- A branch that is given a target has it. -/
theorem targeted_withTarget {a : Action} {d : Int} (h : a.record.operands.displacement? = some d)
    (t : Nat) :
  a.Targeted t (a.withTarget t)
  := by
  obtain ⟨identity, record, bodies⟩ := a
  obtain ⟨kind, operands⟩ := record
  cases operands with
  | branch old displacement => exact ⟨rfl, ⟨old, displacement, rfl, rfl⟩, rfl, rfl⟩
  | _ => cases h

/-- An action lands exactly when it has no displacement, or one that leads to a start, which is then
its target. -/
theorem land_eq_ok_iff {starts : List Int} {p : Placed} {stop : Int} {a : Action} :
  land starts p stop = .ok a
    ↔ (p.action.record.operands.displacement? = none ∧ a = p.action)
      ∨ ∃ d t, p.action.record.operands.displacement? = some d
        ∧ starts.idxOf? (stop + d) = some t ∧ a = p.action.withTarget t
  := by
  rw [land]
  cases p.action.record.operands.displacement? with
  | none => simp [eq_comm]
  | some d =>
    cases hidx : starts.idxOf? (stop + d) <;> simp [hidx, eq_comm]

/-- An action fails to land exactly when its displacement leads to none of the starts. -/
theorem land_eq_error_iff {starts : List Int} {p : Placed} {stop : Int} {e : DecodeError} :
  land starts p stop = .error e
    ↔ ∃ d, p.action.record.operands.displacement? = some d ∧ stop + d ∉ starts
      ∧ e = .badLanding p.action.record.nameText p.action.record.codeNumber p.start (stop + d)
  := by
  rw [land]
  cases p.action.record.operands.displacement? with
  | none => simp
  | some d =>
    cases hidx : starts.idxOf? (stop + d) with
    | none =>
      have hmem := List.idxOf?_eq_none_iff.mp hidx
      simp [hidx, hmem, eq_comm]
    | some t =>
      have hmem : stop + d ∈ starts := by
        apply Classical.byContradiction
        intro hmem
        rw [List.idxOf?_eq_none_iff.mpr hmem] at hidx
        cases hidx
      simp [hidx, hmem]

/-- Resolution changes the targets of branches and nothing else. -/
theorem forall₂_of_resolve {block : List Placed} {stop : Int} {actions : List Action}
    (h : resolve block stop = .ok actions) :
  List.Forall₂ (fun a b => b = a ∨ ∃ t : Nat, b = a.withTarget t) (block.map Placed.action)
    actions
  := by
  rw [resolve_eq_mapM, mapM_eq_ok_iff] at h
  have hlen : block.length ≤ ((landings block stop).drop 1).length := by
    simp [landings]
  rw [← List.map_fst_zip hlen, List.map_map, List.forall₂_map_left_iff]
  apply h.imp
  rintro ⟨p, stop'⟩ a ha
  obtain ⟨-, rfl⟩ | ⟨_, t, -, -, rfl⟩ := land_eq_ok_iff.mp ha
  · exact .inl rfl
  · exact .inr ⟨t, rfl⟩

/-- What does not depend on the targets of branches is the same after resolution. -/
theorem map_of_resolve {β : Type} {f : Action → β} (hf : ∀ t a, f (a.withTarget t) = f a)
    {block : List Placed} {stop : Int} {actions : List Action}
    (h : resolve block stop = .ok actions) :
  actions.map f = (block.map Placed.action).map f
  := by
  apply (congrFun₂ List.forall₂_eq_eq_eq _ _).mp
  rw [List.forall₂_map_left_iff, List.forall₂_map_right_iff]
  apply (forall₂_of_resolve h).flip.imp
  rintro _ a (rfl | ⟨t, rfl⟩)
  · rfl
  · apply hf

/-! ### Actions laid end to end -/

/-- Actions that start where chunks do, which are laid end to end from an offset on. -/
inductive Laid : Nat → List Placed → List Bytes → Prop where
  | nil {offset : Nat} : Laid offset [] []
  | cons {offset : Nat} {a : Action} {placed : List Placed} {chunk : Bytes} {chunks : List Bytes}
      (hrest : Laid (offset + chunk.length) placed chunks) :
      Laid offset (⟨offset, a⟩ :: placed) (chunk :: chunks)

namespace Laid

variable {offset : Nat} {placed : List Placed} {chunks : List Bytes}

/-- The actions start after the chunks before them, counted from the start of the block. -/
theorem landings_eq (h : Laid offset placed chunks) :
  landings placed (offset + chunks.flatten.length : Nat)
    = (List.range (chunks.length + 1)).map
      fun i => ((offset + (chunks.take i).flatten.length : Nat) : Int)
  := by
  induction h with
  | nil => simp
  | @cons offset a placed chunk chunks _ ih =>
    have hstop : offset + (chunk :: chunks).flatten.length
        = offset + chunk.length + chunks.flatten.length := by
      simp [Nat.add_assoc]
    rw [hstop, landings_cons, ih, List.length_cons,
      List.range_succ_eq_map (n := chunks.length + 1), List.map_cons, List.map_map]
    simp [Function.comp_def, Nat.add_assoc]

/-- The places a branch can land on are the starts of the chunks, and last their end. -/
theorem getElem?_landings {i : Nat} {x : Int} (h : Laid offset placed chunks) :
  (landings placed (offset + chunks.flatten.length : Nat))[i]? = some x
    ↔ i ≤ chunks.length ∧ x = (offset + (chunks.take i).flatten.length : Nat)
  := by
  rw [h.landings_eq, List.getElem?_map]
  constructor
  · intro hx
    obtain ⟨j, hj, rfl⟩ := Option.map_eq_some_iff.mp hx
    obtain ⟨hlt, rfl⟩ := List.getElem?_eq_some_iff.mp hj
    rw [List.length_range] at hlt
    exact ⟨Nat.le_of_lt_succ hlt, by rw [List.getElem_range]⟩
  · rintro ⟨hi, rfl⟩
    rw [List.getElem?_range (Nat.lt_succ_of_le hi)]
    rfl

/-- The first of actions that follow chunks of a block stops where its own chunk ends, and the
others after it. -/
theorem zip_cons {start : Nat} {a : Action} {chunk : Bytes} {before all : List Bytes}
    (h : Laid (offset + chunk.length) placed chunks)
    (hoffset : start + before.flatten.length = offset) (hall : before ++ chunk :: chunks = all) :
  (⟨offset, a⟩ :: placed).zip
      ((landings (⟨offset, a⟩ :: placed) (start + all.flatten.length : Nat)).drop 1)
    = (⟨offset, a⟩, ((start + (all.take (before.length + 1)).flatten.length : Nat) : Int))
      :: placed.zip ((landings placed (start + all.flatten.length : Nat)).drop 1)
  := by
  have htake : all.take (before.length + 1) = before ++ [chunk] := by
    rw [← hall, List.take_append]
    simp
  have hnext : start + (all.take (before.length + 1)).flatten.length = offset + chunk.length := by
    rw [htake]
    simp [← hoffset, Nat.add_assoc]
  have hstop : start + all.flatten.length = offset + chunk.length + chunks.flatten.length := by
    simp [← hoffset, ← hall, Nat.add_assoc]
  have hfirst : landings placed (offset + chunk.length + chunks.flatten.length : Nat)
      = ((offset + chunk.length : Nat) : Int)
        :: (landings placed (offset + chunk.length + chunks.flatten.length : Nat)).drop 1 := by
    cases h <;> simp
  rw [hnext, hstop, landings_cons, List.drop_one, List.tail_cons, hfirst, List.zip_cons_cons]
  rfl

end Laid

end ActionBlock
