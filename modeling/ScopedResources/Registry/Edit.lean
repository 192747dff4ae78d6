import ScopedResources.Registry.Error

/-!
# Edits

An edit changes a state in place and may be refused on the way. What it has done to the state by then
is done, so an edit leaves a state behind in either case. Whether a refused edit has changed anything
is a question of its own.
-/

namespace ScopedResources

/-- A change of a state of type `σ`, which gives an `α` or a refusal. -/
abbrev Edit (σ α : Type) := ExceptT RegistryError (StateM σ) α

namespace Edit

variable {σ α β : Type}

/-- What comes of the edit, and the state that it leaves behind. -/
def apply (e : Edit σ α) (s : σ) : Except RegistryError α × σ := e.run.run s

/-- What comes of the edit, with the new state if it goes through. -/
def result (e : Edit σ α) (s : σ) : Except RegistryError (α × σ) :=
  match e.apply s with
  | (.ok a, s) => .ok (a, s)
  | (.error refusal, _) => .error refusal

/-- A refused edit leaves the state as it was. -/
def IsClean (e : Edit σ α) : Prop :=
  ∀ ⦃s refusal s'⦄, e.apply s = (.error refusal, s') → s' = s

/-! ## Step by step -/

@[simp]
theorem apply_pure (a : α) (s : σ) : (pure a : Edit σ α).apply s = (.ok a, s) := rfl

@[simp]
theorem apply_throw (refusal : RegistryError) (s : σ) :
    (throw refusal : Edit σ α).apply s = (.error refusal, s) := rfl

@[simp]
theorem apply_get (s : σ) : (get : Edit σ σ).apply s = (.ok s, s) := rfl

@[simp]
theorem apply_modify (f : σ → σ) (s : σ) : (modify f : Edit σ Unit).apply s = (.ok (), f s) := rfl

/-- A question that may be refused changes nothing. -/
@[simp]
theorem apply_liftM (x : Except RegistryError α) (s : σ) :
    (liftM x : Edit σ α).apply s = (x, s) := rfl

@[simp]
theorem apply_bind (e : Edit σ α) (f : α → Edit σ β) (s : σ) :
    (e >>= f).apply s = match e.apply s with
      | (.ok a, s) => (f a).apply s
      | (.error refusal, s) => (.error refusal, s) := by
  unfold apply ExceptT.run StateT.run
  simp only [bind, ExceptT.bind, ExceptT.mk, StateT.bind, ExceptT.bindCont]
  rcases e s with ⟨_ | _, s'⟩ <;> rfl

@[simp]
theorem apply_map (f : α → β) (e : Edit σ α) (s : σ) :
    (f <$> e).apply s = ((e.apply s).1.map f, (e.apply s).2) := by
  unfold apply ExceptT.run StateT.run
  simp only [Functor.map, ExceptT.map, ExceptT.mk, bind, StateT.bind]
  rcases e s with ⟨_ | _, s'⟩ <;> rfl

/-! ## Results -/

theorem fst_apply (e : Edit σ α) (s : σ) : (e.apply s).1 = (e.result s).map (·.1) := by
  unfold result
  rcases e.apply s with ⟨_ | _, s'⟩ <;> rfl

/-- Of a clean edit nothing is lost where the state is kept only if it goes through. -/
theorem IsClean.apply_eq {e : Edit σ α} (h : e.IsClean) (s : σ) :
    e.apply s = match e.result s with
      | .ok (a, s') => (.ok a, s')
      | .error refusal => (.error refusal, s) := by
  rw [result]
  rcases he : e.apply s with ⟨_ | _, s'⟩
  · rw [h he]
  · rfl

end Edit

end ScopedResources
