import Mathlib.Logic.Basic

/-!
# Running operations that may fail

Operations on bit streams, edits of workspaces and steps of reading are state transformers over an
exception. How one of them runs follows from how its first part does.
-/

namespace ActionBlock

variable {ε σ α β : Type} {s t : σ}

theorem run_get :
  (get : ExceptT ε (StateM σ) σ).run s = (.ok s, s)
  := rfl

theorem run_modify (f : σ → σ) :
  (modify f : ExceptT ε (StateM σ) Unit).run s = (.ok (), f s)
  := rfl

theorem run_liftM (x : Except ε α) :
  (liftM x : ExceptT ε (StateM σ) α).run s = (x, s)
  := by
  cases x <;> rfl

/-- After a success a sequence goes on from its result and state. -/
theorem run_bind_of_ok {x : ExceptT ε (StateM σ) α} {a : α} (h : x.run s = (.ok a, t))
    (f : α → ExceptT ε (StateM σ) β) :
  (x >>= f).run s = (f a).run t
  := by
  change (ExceptT.bindCont f (x.run s).1).run (x.run s).2 = _
  rw [h]
  rfl

/-- After a failure a sequence stops in its state. -/
theorem run_bind_of_error {x : ExceptT ε (StateM σ) α} {e : ε} (h : x.run s = (.error e, t))
    (f : α → ExceptT ε (StateM σ) β) :
  (x >>= f).run s = (.error e, t)
  := by
  change (ExceptT.bindCont f (x.run s).1).run (x.run s).2 = _
  rw [h]
  rfl

theorem run_map (f : α → β) (x : ExceptT ε (StateM σ) α) :
  (f <$> x).run s = ((x.run s).1.map f, (x.run s).2)
  := by
  rw [map_eq_pure_bind]
  rcases h : x.run s with ⟨e | a, t⟩
  · rw [run_bind_of_error h]
    rfl
  · rw [run_bind_of_ok h]
    rfl

theorem run_discard_of_ok {x : ExceptT ε (StateM σ) α} {a : α} (h : x.run s = (.ok a, t)) :
  (discard x).run s = (.ok (), t)
  := by
  rw [Functor.discard, map_const, Function.comp_apply, map_eq_pure_bind, run_bind_of_ok h]
  rfl

end ActionBlock
