
/-! # Labelled transition systems

Runs of a system whose steps carry a label, restricted to the steps that a condition on the
state before and the label allows. `Reachable.invariant` is the induction rule.
-/

namespace Transition

universe u v

variable {σ : Type u} {ι : Type v}

/-- A labelled transition system. -/
structure System (σ : Type u) (ι : Type v) where
  init : σ → Prop
  step : σ → ι → σ → Prop

/-- The states of runs whose every step is allowed. -/
inductive Reachable (sys : System σ ι) (allowed : σ → ι → Prop) : σ → Prop
  | init {s : σ} : sys.init s → Reachable sys allowed s
  | step {s s' : σ} (i : ι) :
      Reachable sys allowed s → allowed s i → sys.step s i s' → Reachable sys allowed s'

/-- A condition that allows every step. -/
def anyStep (_ : σ) (_ : ι) : Prop := True

/-- What holds at the start and is kept by every allowed step holds in every reached state. -/
theorem Reachable.invariant {sys : System σ ι} {allowed : σ → ι → Prop} {P : σ → Prop}
    (hinit : ∀ s, sys.init s → P s) (hstep : ∀ s i s', P s → allowed s i → sys.step s i s' → P s')
    {s : σ} (h : Reachable sys allowed s) : P s := by
  induction h with
  | init hs => exact hinit _ hs
  | step i _ hallowed hnext ih => exact hstep _ i _ ih hallowed hnext

/-- A weaker condition allows more runs. -/
theorem Reachable.mono {sys : System σ ι} {allowed allowed' : σ → ι → Prop}
    (hweaker : ∀ s i, allowed s i → allowed' s i) {s : σ} (h : Reachable sys allowed s) :
    Reachable sys allowed' s := by
  induction h with
  | init hs => exact .init hs
  | step i _ hallowed hnext ih => exact .step i ih (hweaker _ i hallowed) hnext

end Transition
