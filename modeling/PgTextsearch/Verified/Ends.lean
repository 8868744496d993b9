import Mathlib.Logic.Basic

/-!
# How a stateful program ends

Programs with a state and with errors that keep the state are terms of `EStateM`.
`Ends x s Q E` says how the program `x` ends from the state `s`: it returns with `Q` of value and
state, or it raises an error with `E` of error and state.  A program that must not raise an error
has `fun _ _ => False` for `E`.

## Main results

* `Ends.bind` — the sequence rule: what the first part returns is where the second one starts, and
  an error of either ends the whole.
* `Ends.mono` — the rule of consequence.
-/

namespace PgTextsearch.Verified

variable {ε σ α β : Type}

/-- `x` ends from `s` with `Q` or raises an error with `E`. -/
def Ends (x : EStateM ε σ α) (s : σ) (Q : α → σ → Prop) (E : ε → σ → Prop) : Prop :=
  match x s with
  | .ok a s' => Q a s'
  | .error e s' => E e s'

variable {x : EStateM ε σ α} {f : α → EStateM ε σ β} {s s' : σ} {a : α} {e : ε}
  {Q Q' : α → σ → Prop} {R : β → σ → Prop} {E E' : ε → σ → Prop}

namespace Ends

/-- The rule of consequence. -/
theorem mono (h : Ends x s Q E) (hQ : ∀ a s', Q a s' → Q' a s') (hE : ∀ e s', E e s' → E' e s') :
    Ends x s Q' E' := by
  unfold Ends at h ⊢
  cases hx : x s with
  | ok a s' =>
      rw [hx] at h
      exact hQ a s' h
  | error e s' =>
      rw [hx] at h
      exact hE e s' h

/-- The sequence rule. -/
theorem bind (h : Ends x s Q E') (hf : ∀ a s', Q a s' → Ends (f a) s' R E)
    (hE : ∀ e s', E' e s' → E e s') : Ends (x >>= f) s R E := by
  unfold Ends at h ⊢
  change match EStateM.bind x f s with
    | .ok a s' => R a s'
    | .error e s' => E e s'
  unfold EStateM.bind
  cases hx : x s with
  | ok a s' =>
      rw [hx] at h
      exact hf a s' h
  | error e s' =>
      rw [hx] at h
      exact hE e s' h

/-- A sequence whose first part raises no error. -/
theorem bind_total (h : Ends x s Q fun _ _ => False) (hf : ∀ a s', Q a s' → Ends (f a) s' R E) :
    Ends (x >>= f) s R E :=
  h.bind hf fun _ _ hfalse => hfalse.elim

theorem ret (h : Q a s) : Ends (pure a : EStateM ε σ α) s Q E := h

theorem raise (h : E e s) : Ends (throw e : EStateM ε σ α) s Q E := h

/-- The state is read and the program goes on with it. -/
theorem get_bind {f : σ → EStateM ε σ β} (h : Ends (f s) s R E) :
    Ends (get >>= f : EStateM ε σ β) s R E := h

/-- The state is changed and the program goes on. -/
theorem modify_bind {g : σ → σ} {f : PUnit → EStateM ε σ β} (h : Ends (f ⟨⟩) (g s) R E) :
    Ends (modify g >>= f : EStateM ε σ β) s R E := h

theorem modify {g : σ → σ} {Q : PUnit → σ → Prop} (h : Q ⟨⟩ (g s)) :
    Ends (modify g : EStateM ε σ PUnit) s Q E := h

/-- A value returned ends in a state with `Q`. -/
theorem of_ok (h : Ends x s Q E) (hx : x s = .ok a s') : Q a s' := by
  unfold Ends at h
  rwa [hx] at h

theorem of_error (h : Ends x s Q E) (hx : x s = .error e s') : E e s' := by
  unfold Ends at h
  rwa [hx] at h

end Ends

end PgTextsearch.Verified
