import Mathlib.Data.List.Basic

/-!
# Stateful fallible computations

A method that borrows its receiver mutably and returns a result is an `EStateM`: the state
left behind survives an error, as the receiver does. A run is judged by two postconditions,
one for the value it returns and one for the error.
-/

namespace ClawHdf5.Stateful

variable {ε ε' σ τ α β : Type}
variable {Q : α → σ → Prop} {R : ε → σ → Prop} {a : α} {s : σ} {r : EStateM.Result ε σ α}
  {x : EStateM ε σ α}

/-- The value of a result meets `Q`, its error meets `R`. -/
def Ensures (Q : α → σ → Prop) (R : ε → σ → Prop) : EStateM.Result ε σ α → Prop
  | .ok a s => Q a s
  | .error e s => R e s

@[simp] theorem ensures_ok : Ensures Q R (.ok a s) ↔ Q a s := Iff.rfl

theorem ensures_get_bind {f : σ → EStateM ε σ α} :
    Ensures Q R ((get >>= f) s) ↔ Ensures Q R (f s s) := Iff.rfl

theorem ensures_modify_bind {g : σ → σ} {f : PUnit → EStateM ε σ α} :
    Ensures Q R ((modify g >>= f) s) ↔ Ensures Q R (f ⟨⟩ (g s)) := Iff.rfl

section

variable {Q' : α → σ → Prop} {R' : ε → σ → Prop} (h : Ensures Q R r)
include h

theorem Ensures.mono (hQ : ∀ a s, Q a s → Q' a s) (hR : ∀ e s, R e s → R' e s) :
    Ensures Q' R' r := by
  cases r with
  | ok a s => exact hQ a s h
  | error e s => exact hR e s h

theorem Ensures.and (h' : Ensures Q' R' r) :
    Ensures (fun a s => Q a s ∧ Q' a s) (fun e s => R e s ∧ R' e s) r := by
  cases r with
  | ok a s => exact ⟨h, h'⟩
  | error e s => exact ⟨h, h'⟩

end

/-- A sequence meets what its second part ensures after the first. -/
theorem Ensures.bind {P : α → σ → Prop} {Q : β → σ → Prop} {f : α → EStateM ε σ β}
    (hx : Ensures P R (x s)) (hf : ∀ a s', P a s' → Ensures Q R (f a s')) :
    Ensures Q R ((x >>= f) s) := by
  change Ensures Q R (EStateM.bind x f s)
  unfold EStateM.bind
  cases hrun : x s with
  | ok a s' =>
    rw [hrun] at hx
    exact hf a s' hx
  | error e s' =>
    rw [hrun] at hx
    exact hx

/-- A step, whose errors are errors of the whole, and what follows it. -/
theorem Ensures.seq {P : α → σ → Prop} {Q : β → σ → Prop} {R' : ε → σ → Prop}
    {f : α → EStateM ε σ β} (hx : Ensures P R' (x s)) (hR : ∀ e s, R' e s → R e s)
    (hf : ∀ a s', P a s' → Ensures Q R (f a s')) : Ensures Q R ((x >>= f) s) :=
  (hx.mono (fun _ _ h => h) hR).bind hf

theorem ensures_map {Q : β → σ → Prop} {g : α → β} :
    Ensures Q R ((g <$> x) s) ↔ Ensures (fun a s' => Q (g a) s') R (x s) := by
  change Ensures Q R (EStateM.map g x s) ↔ _
  unfold EStateM.map
  cases x s <;> rfl

theorem map_ok {g : α → β} {s' : σ} (h : x s = .ok a s') : (g <$> x) s = .ok (g a) s' := by
  change EStateM.map g x s = _
  rw [EStateM.map, h]

theorem Ensures.of_ok (h : Ensures Q R r) (hr : r = .ok a s) : Q a s := by
  rw [hr] at h
  exact h

theorem ensures_exists_ok (h : Ensures Q (fun _ _ => False) r) : ∃ a s, r = .ok a s ∧ Q a s := by
  cases r with
  | ok a s => exact ⟨a, s, rfl, h⟩
  | error e s => exact h.elim

/-- Whether a run failed in a given way. -/
instance decidableExistsError (r : EStateM.Result ε σ α) (P : ε → σ → Prop)
    [∀ e s, Decidable (P e s)] : Decidable (∃ e s, r = .error e s ∧ P e s) :=
  match r with
  | .ok _ _ => isFalse fun ⟨_, _, h, _⟩ => nomatch h
  | .error e s => decidable_of_iff (P e s)
    ⟨fun h => ⟨e, s, rfl, h⟩, fun ⟨_, _, heq, h⟩ => by cases heq; exact h⟩

/-- Run on the part of the state that `get` reads and `put` replaces. -/
def within (get : σ → τ) (put : σ → τ → σ) (wrap : ε → ε') (x : EStateM ε τ α) :
    EStateM ε' σ α := fun s =>
  match x (get s) with
  | .ok a t => .ok a (put s t)
  | .error e t => .error (wrap e) (put s t)

theorem ensures_within {get : σ → τ} {put : σ → τ → σ} {wrap : ε → ε'} {x : EStateM ε τ α}
    {R : ε' → σ → Prop} :
    Ensures Q R (within get put wrap x s) ↔
      Ensures (fun a t => Q a (put s t)) (fun e t => R (wrap e) (put s t)) (x (get s)) := by
  unfold within
  cases x (get s) <;> rfl

/-- Hand an error on as a value, with the state it left. -/
def attempt (x : EStateM ε σ α) : EStateM ε' σ (Except ε α) := fun s =>
  match x s with
  | .ok a s' => .ok (.ok a) s'
  | .error e s' => .ok (.error e) s'

theorem ensures_attempt {Q : Except ε α → σ → Prop} {R : ε' → σ → Prop} :
    Ensures Q R (attempt x s) ↔
      Ensures (fun a s' => Q (.ok a) s') (fun e s' => Q (.error e) s') (x s) := by
  unfold attempt
  cases x s <;> rfl

/-- A computation that does not touch the state. -/
def raise : Except ε α → EStateM ε σ α
  | .ok a => pure a
  | .error e => throw e

@[simp] theorem raise_ok (a : α) : (raise (.ok a) : EStateM ε σ α) = pure a := rfl

/-- The outcome of a run, with the state only when it returned a value. -/
def stateOf : EStateM.Result ε σ α → Except ε σ
  | .ok _ s => .ok s
  | .error e _ => .error e

theorem stateOf_eq_ok : stateOf r = .ok s ↔ ∃ a, r = .ok a s := by
  cases r <;> simp [stateOf]

/-- The state a run leaves, whether it fails or not. -/
def finalState : EStateM.Result ε σ α → σ
  | .ok _ s => s
  | .error _ s => s

theorem finalState_of_ensures {P : σ → Prop} (h : Ensures (fun _ s => P s) (fun _ s => P s) r) :
    P (finalState r) := by
  cases r <;> exact h

/-! ### Frames -/

section

variable {γ : Type} {f : σ → γ}

/-- A computation that leaves a part of the state alone, whether it fails or not. -/
def Keeps (f : σ → γ) (x : EStateM ε σ α) : Prop :=
  ∀ s, Ensures (fun _ s' => f s' = f s) (fun _ s' => f s' = f s) (x s)

theorem keeps_pure (a : α) : Keeps f (pure a : EStateM ε σ α) := fun _ => rfl

theorem keeps_get : Keeps f (get : EStateM ε σ σ) := fun _ => rfl

theorem keeps_modify {g : σ → σ} (h : ∀ s, f (g s) = f s) :
    Keeps f (modify g : EStateM ε σ PUnit) := fun s => h s

theorem Keeps.bind {k : α → EStateM ε σ β} (hx : Keeps f x) (hk : ∀ a, Keeps f (k a)) :
    Keeps f (x >>= k) := by
  intro s
  apply (hx s).bind
  intro a s' hkept
  rw [← hkept]
  exact hk a s'

theorem keeps_within {get : σ → τ} {put : σ → τ → σ} {wrap : ε → ε'} {x : EStateM ε τ α}
    (h : ∀ s t, f (put s t) = f s) : Keeps f (within get put wrap x) := by
  intro s
  rw [ensures_within]
  cases x (get s) with
  | ok a t => exact h s t
  | error e t => exact h s t

theorem Keeps.finalState (h : Keeps f x) (s : σ) : f (finalState (x s)) = f s :=
  finalState_of_ensures (h s)

end

end ClawHdf5.Stateful
