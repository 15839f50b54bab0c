import CodeTiling.Error

/-!
# Running computations that may fail

Checks are values of `Except Error`; expansion and selection are computations with a state, whose
run on a state `s` is a result and the state after it. The lemmas here take a run apart into the
runs of its parts, so that later proofs do not look into the monads.

`SameOutcome` compares two computations: they fail with one error, or both succeed.
-/

namespace CodeTiling

namespace Run

variable {ε σ α β : Type}

theorem except_bind_ok_iff {x : Except ε α} {f : α → Except ε β} {b : β} :
    (x >>= f) = .ok b ↔ ∃ a, x = .ok a ∧ f a = .ok b := by
  cases x <;> simp [bind, Except.bind]

theorem except_bind_error_iff {x : Except ε α} {f : α → Except ε β} {e : ε} :
    (x >>= f) = .error e ↔ x = .error e ∨ ∃ a, x = .ok a ∧ f a = .error e := by
  cases x <;> simp [bind, Except.bind]

@[simp]
theorem within_ok_iff {x : Except Error α} {p : Place} {a : α} :
    Except.within p x = .ok a ↔ x = .ok a := by
  cases x with
  | error e => exact ⟨nofun, nofun⟩
  | ok b => exact Iff.rfl

theorem within_error_iff {x : Except Error α} {p : Place} {e : Error} :
    Except.within p x = .error e ↔ ∃ e', x = .error e' ∧ e'.within p = e := by
  constructor
  · intro h
    cases x with
    | error e' => exact ⟨e', rfl, Except.error.inj h⟩
    | ok a => cases h
  · rintro ⟨e', rfl, rfl⟩
    rfl

@[simp]
theorem get_apply (s : σ) : (get : ExceptT ε (StateM σ) σ) s = (.ok s, s) := rfl

theorem adapt_ok {x : ExceptT ε (StateM σ) α} {f : ε → ε} {s s' : σ} {a : α}
    (h : x s = (.ok a, s')) : ExceptT.adapt f x s = (.ok a, s') := by
  change ((x s).1.mapError f, (x s).2) = _
  rw [h]; rfl

theorem adapt_error {x : ExceptT ε (StateM σ) α} {f : ε → ε} {s s' : σ} {e : ε}
    (h : x s = (.error e, s')) : ExceptT.adapt f x s = (.error (f e), s') := by
  change ((x s).1.mapError f, (x s).2) = _
  rw [h]; rfl

theorem adapt_ok_iff {x : ExceptT ε (StateM σ) α} {f : ε → ε} {s s' : σ} {a : α} :
    ExceptT.adapt f x s = (.ok a, s') ↔ x s = (.ok a, s') := by
  refine ⟨fun h => ?_, adapt_ok⟩
  rcases hx : x s with ⟨e | b, s₁⟩
  · rw [adapt_error hx] at h; cases h
  · rw [adapt_ok hx] at h; exact h

variable {x : ExceptT ε (StateM σ) α} {f : α → ExceptT ε (StateM σ) β} {s s' : σ}

theorem bind_ok {a : α} (h : x s = (.ok a, s')) : (x >>= f) s = f a s' := by
  simp only [bind, ExceptT.bind, ExceptT.mk, StateT.bind, h]
  rfl

theorem bind_error {e : ε} (h : x s = (.error e, s')) : (x >>= f) s = (.error e, s') := by
  simp only [bind, ExceptT.bind, ExceptT.mk, StateT.bind, h]
  rfl

theorem bind_ok_iff {b : β} {s'' : σ} :
    (x >>= f) s = (.ok b, s'') ↔ ∃ a s', x s = (.ok a, s') ∧ f a s' = (.ok b, s'') := by
  constructor
  · intro h
    rcases hx : x s with ⟨e | a, s₁⟩
    · rw [bind_error hx] at h; cases h
    · rw [bind_ok hx] at h; exact ⟨a, s₁, rfl, h⟩
  · rintro ⟨a, s₁, hx, h⟩
    rw [bind_ok hx, h]

end Run

/-! ### Outcomes -/

/-- Two computations come to the same: to one error, or to related results. -/
inductive SameOutcome {α β : Type} (S : α → β → Prop) : Except Error α → Except Error β → Prop
  /-- Both fail with the error. -/
  | error (err : Error) : SameOutcome S (.error err) (.error err)
  /-- Both succeed. -/
  | ok {a : α} {b : β} (h : S a b) : SameOutcome S (.ok a) (.ok b)

namespace SameOutcome

variable {α β γ δ : Type} {S : α → β → Prop} {x : Except Error α} {y : Except Error β}

theorem refl (x : Except Error α) : SameOutcome (· = ·) x x := by
  cases x with
  | error err => exact .error err
  | ok a => exact .ok rfl

theorem imp {S' : α → β → Prop} (h : SameOutcome S x y) (hS : ∀ a b, S a b → S' a b) :
    SameOutcome S' x y := by
  cases h with
  | error err => exact .error err
  | ok h => exact .ok (hS _ _ h)

theorem exists_of_ok {a : α} (h : SameOutcome S x y) (hx : x = .ok a) : ∃ b, y = .ok b ∧ S a b := by
  subst hx
  cases h with
  | ok h => exact ⟨_, rfl, h⟩

/-- The results that are related are the ones that the computations come to. -/
theorem with_eq (h : SameOutcome S x y) :
    SameOutcome (fun a b => S a b ∧ x = .ok a ∧ y = .ok b) x y := by
  cases h with
  | error err => exact .error err
  | ok h => exact .ok ⟨h, rfl, rfl⟩

theorem within (p : Place) (h : SameOutcome S x y) :
    SameOutcome S (Except.within p x) (Except.within p y) := by
  cases h with
  | error err => exact .error _
  | ok h => exact .ok h

theorem bind {S' : γ → δ → Prop} {f : α → Except Error γ} {g : β → Except Error δ}
    (h : SameOutcome S x y) (hfg : ∀ a b, S a b → SameOutcome S' (f a) (g b)) :
    SameOutcome S' (x >>= f) (y >>= g) := by
  cases h with
  | error err => exact .error err
  | ok h => exact hfg _ _ h

theorem trans {S' : β → γ → Prop} {z : Except Error γ} (h : SameOutcome S x y)
    (h' : SameOutcome S' y z) : SameOutcome (fun a c => ∃ b, S a b ∧ S' b c) x z := by
  cases h with
  | error err =>
    cases h'
    exact .error err
  | ok h =>
    cases h' with
    | ok h' => exact .ok ⟨_, h, h'⟩

theorem symm (h : SameOutcome S x y) : SameOutcome (fun b a => S a b) y x := by
  cases h with
  | error err => exact .error err
  | ok h => exact .ok h

theorem eq {x y : Except Error α} (h : SameOutcome (· = ·) x y) : x = y := by
  cases h with
  | error err => rfl
  | ok h => exact congrArg Except.ok h

end SameOutcome

end CodeTiling
