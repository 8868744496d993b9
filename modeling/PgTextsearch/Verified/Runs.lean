import Mathlib.Data.List.Basic

/-!
# Runs of a transition system

A system is a partial step function over states and actions; a schedule of
several parties is a list of actions that name the party.  `Reaches` collects
the states reached by runs whose steps all meet a side condition, which may
look at the history, at the state before the step and at the action.

## Main results

* `Reaches.invariant` — a property of history and state that holds initially and
  is kept by every admitted step holds in every state reached.
* `Reaches.mono` — weakening the side condition keeps the states reached.
* `reaches_of_run` — executing a concrete run.
-/

namespace PgTextsearch.Verified

variable {S A : Type*}

/-- `Reaches step ok init hist s`: the run `hist` leads from `init` to `s`, and
each of its steps met `ok` for the history and the state before it. -/
inductive Reaches (step : S → A → Option S) (ok : List A → S → A → Prop) (init : S) :
    List A → S → Prop where
  | nil : Reaches step ok init [] init
  | snoc {hist : List A} {s s' : S} {a : A} (run : Reaches step ok init hist s)
      (meets : ok hist s a) (next : step s a = some s') :
      Reaches step ok init (hist ++ [a]) s'

variable {step : S → A → Option S} {ok ok' : List A → S → A → Prop} {init s : S} {hist : List A}

/-- **Invariant rule.** -/
theorem Reaches.invariant {Inv : List A → S → Prop} (h : Reaches step ok init hist s)
    (hinit : Inv [] init)
    (hstep : ∀ hist s a s', Inv hist s → ok hist s a → step s a = some s' →
      Inv (hist ++ [a]) s') : Inv hist s := by
  induction h with
  | nil => exact hinit
  | snoc _ hok hnext ih => exact hstep _ _ _ _ ih hok hnext

/-- The invariant rule for a property of the state. -/
theorem Reaches.preserves (h : Reaches step ok init hist s) (Inv : S → Prop) (hinit : Inv init)
    (hstep : ∀ hist s a s', Inv s → ok hist s a → step s a = some s' → Inv s') : Inv s := by
  induction h with
  | nil => exact hinit
  | snoc _ hok hnext ih => exact hstep _ _ _ _ ih hok hnext

theorem Reaches.mono (h : Reaches step ok init hist s)
    (himp : ∀ hist s a, ok hist s a → ok' hist s a) : Reaches step ok' init hist s := by
  induction h with
  | nil => exact Reaches.nil
  | snoc _ hok hnext ih => exact Reaches.snoc ih (himp _ _ _ hok) hnext

/-- Execute a run, stopping when a step fails or does not pass the check `okb`. -/
def runChecked (step : S → A → Option S) (okb : List A → S → A → Bool) :
    List A → S → List A → Option S
  | _, s, [] => some s
  | hist, s, a :: rest =>
      if okb hist s a then
        match step s a with
        | none => none
        | some s' => runChecked step okb (hist ++ [a]) s' rest
      else none

private theorem reaches_append {okb : List A → S → A → Bool}
    (hok : ∀ hist s a, okb hist s a = true → ok hist s a) (as : List A) :
    ∀ (hist : List A) (s₀ : S), Reaches step ok init hist s₀ →
      runChecked step okb hist s₀ as = some s → Reaches step ok init (hist ++ as) s := by
  induction as with
  | nil =>
      intro hist s₀ hr hrun
      cases hrun
      rw [List.append_nil]
      exact hr
  | cons a rest ih =>
      intro hist s₀ hr hrun
      unfold runChecked at hrun
      split at hrun
      case isFalse => cases hrun
      case isTrue hcheck =>
        cases hnext : step s₀ a with
        | none => simp [hnext] at hrun
        | some s₁ =>
            simp only [hnext] at hrun
            have := ih (hist ++ [a]) s₁ (Reaches.snoc hr (hok _ _ _ hcheck) hnext) hrun
            rwa [List.append_assoc, List.singleton_append] at this

/-- A run whose steps pass the check reaches its result. -/
theorem reaches_of_runChecked (okb : List A → S → A → Bool) {as : List A}
    (hok : ∀ hist s a, okb hist s a = true → ok hist s a)
    (h : runChecked step okb [] init as = some s) : Reaches step ok init as s :=
  reaches_append hok as [] init Reaches.nil h

/-- Execute a run with no side condition. -/
def runAll (step : S → A → Option S) (s : S) (as : List A) : Option S :=
  runChecked step (fun _ _ _ => true) [] s as

/-- An executed run reaches its result. -/
theorem reaches_of_run {as : List A} (h : runAll step init as = some s) :
    Reaches step (fun _ _ _ => True) init as s :=
  reaches_of_runChecked _ (fun _ _ _ _ => trivial) h

end PgTextsearch.Verified
