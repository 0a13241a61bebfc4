/-!
# Computations that may fail and still leave their changes behind

An attempt runs on a state and answers or fails; the state that it reached is kept in both
cases. The equations for `run` are all that is needed to reason about a composed attempt.
-/

namespace DimEquiv

/-- A computation on states of type `σ` that answers an `α` or fails with an `ε`. -/
def Attempt (ε σ α : Type) : Type := σ → Except ε α × σ

namespace Attempt

variable {ε σ α β : Type}

def run (x : Attempt ε σ α) (s : σ) : Except ε α × σ := x s

/-- An attempt that never fails. -/
def ofState (f : σ → α × σ) : Attempt ε σ α := fun s => (.ok (f s).1, (f s).2)

/-- An attempt that reads the state and leaves it alone. -/
def ofReader (f : σ → Except ε α) : Attempt ε σ α := fun s => (f s, s)

/-- An attempt that changes the state only when it succeeds. -/
def ofExcept (f : σ → Except ε (α × σ)) : Attempt ε σ α := fun s =>
  match f s with
  | .ok (a, s') => (.ok a, s')
  | .error e => (.error e, s)

def fail (e : ε) : Attempt ε σ α := fun s => (.error e, s)

instance : Monad (Attempt ε σ) where
  pure a := fun s => (.ok a, s)
  bind x f := fun s =>
    match x s with
    | (.ok a, s') => f a s'
    | (.error e, s') => (.error e, s')

@[ext] theorem ext {x y : Attempt ε σ α} (h : ∀ s, x.run s = y.run s) : x = y := funext h

@[simp] theorem run_pure (a : α) (s : σ) : (pure a : Attempt ε σ α).run s = (.ok a, s) := rfl

theorem run_bind (x : Attempt ε σ α) (f : α → Attempt ε σ β) (s : σ) :
    (x >>= f).run s =
      match x.run s with
      | (.ok a, s') => (f a).run s'
      | (.error e, s') => (.error e, s') := rfl

@[simp] theorem run_fail (e : ε) (s : σ) :
    (fail e : Attempt ε σ α).run s = (.error e, s) := rfl

@[simp] theorem run_ofState (f : σ → α × σ) (s : σ) :
    (ofState f : Attempt ε σ α).run s = (.ok (f s).1, (f s).2) := rfl

@[simp] theorem run_ofReader (f : σ → Except ε α) (s : σ) :
    (ofReader f : Attempt ε σ α).run s = (f s, s) := rfl

theorem run_ofExcept (f : σ → Except ε (α × σ)) (s : σ) :
    (ofExcept f : Attempt ε σ α).run s =
      match f s with
      | .ok (a, s') => (.ok a, s')
      | .error e => (.error e, s) := rfl

theorem eq_ok_of_run_ofExcept {f : σ → Except ε (α × σ)} {s s' : σ} {a : α}
    (h : (ofExcept f).run s = (.ok a, s')) : f s = .ok (a, s') := by
  rw [run_ofExcept] at h
  split at h
  · rename_i hf
    cases h
    exact hf
  · cases h

/-- A failing first part is the whole run. -/
theorem run_bind_of_error {x : Attempt ε σ α} {s s' : σ} {e : ε} (h : x.run s = (.error e, s'))
    (f : α → Attempt ε σ β) : (x >>= f).run s = (.error e, s') := by
  rw [run_bind, h]

/-- A first part that answers hands its answer and its state to the second. -/
theorem run_bind_of_ok {x : Attempt ε σ α} {s s' : σ} {a : α} (h : x.run s = (.ok a, s'))
    (f : α → Attempt ε σ β) : (x >>= f).run s = (f a).run s' := by
  rw [run_bind, h]

private theorem bind_pure_self (x : Attempt ε σ α) : (x >>= fun a => pure a) = x := by
  apply ext
  intro s
  rw [run_bind]
  split <;> simp_all

private theorem bind_bind {γ : Type} (x : Attempt ε σ α) (f : α → Attempt ε σ β)
    (g : β → Attempt ε σ γ) : x >>= f >>= g = x >>= fun a => f a >>= g := by
  apply ext
  intro s
  simp only [run_bind]
  rcases x.run s with ⟨_ | _, _⟩ <;> rfl

instance : LawfulMonad (Attempt ε σ) :=
  LawfulMonad.mk' (Attempt ε σ) bind_pure_self (fun _ _ => rfl) bind_bind

end Attempt

end DimEquiv
