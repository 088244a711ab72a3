/-
Runs of a step function, and how invariants travel along them. Nothing here is about a particular machine.

A machine is a total function `step : σ → ω → σ`; an operation that is not enabled leaves the state as it is. A run
is a list of operations, and the reachable states are the results of runs.
- `run`: the state after a list of operations.
- `Along ok s ops`: `ok` holds at every step of the run of `ops` from `s` (a premise on the schedule, stated on the
  state before each step).
- `Along.inv`: what every `ok` step keeps holds after every run whose steps are all `ok`.
- `run_inv`: the same for an invariant that every step keeps.
-/
import Mathlib

namespace Xv6Threads.Core

variable {σ ω : Type*}

/-- the state after the operations `ops`, in order -/
def run (step : σ → ω → σ) (s : σ) (ops : List ω) : σ := ops.foldl step s

@[simp] theorem run_nil (step : σ → ω → σ) (s : σ) : run step s [] = s := rfl

@[simp] theorem run_cons (step : σ → ω → σ) (s : σ) (o : ω) (ops : List ω) :
    run step s (o :: ops) = run step (step s o) ops := rfl

/-- `ok` holds before every step of the run of the operations from the state -/
def Along (step : σ → ω → σ) (ok : σ → ω → Prop) : σ → List ω → Prop
  | _, [] => True
  | s, o :: ops => ok s o ∧ Along step ok (step s o) ops

/-- a decidable premise is decidable along a run -/
def Along.decidable (step : σ → ω → σ) (ok : σ → ω → Prop) [∀ s o, Decidable (ok s o)] :
    (s : σ) → (ops : List ω) → Decidable (Along step ok s ops)
  | _, [] => isTrue trivial
  | s, o :: ops => @instDecidableAnd _ _ _ (Along.decidable step ok (step s o) ops)

instance (step : σ → ω → σ) (ok : σ → ω → Prop) [∀ s o, Decidable (ok s o)] (s : σ) (ops : List ω) :
    Decidable (Along step ok s ops) := Along.decidable step ok s ops

/-- **Invariant rule.** What holds at the start and is kept by every `ok` step holds after every run of `ok` steps. -/
theorem Along.inv {step : σ → ω → σ} {ok : σ → ω → Prop} {I : σ → Prop}
    (hstep : ∀ s o, ok s o → I s → I (step s o)) {s : σ} {ops : List ω} (h0 : I s) (h : Along step ok s ops) :
    I (run step s ops) := by
  induction ops generalizing s with
  | nil => exact h0
  | cons o ops ih => exact ih (hstep s o h.1 h0) h.2

/-- what every step keeps holds after every run -/
theorem run_inv {step : σ → ω → σ} {I : σ → Prop} (hstep : ∀ s o, I s → I (step s o)) {s : σ} (h0 : I s)
    (ops : List ω) : I (run step s ops) := by
  induction ops generalizing s with
  | nil => exact h0
  | cons o ops ih => exact ih (hstep s o h0)

/-! ## Literals in concrete runs -/

-- one instance for each size that occurs in a concrete run, so that a literal of `Fin` means the same term everywhere
instance neZeroOne : NeZero 1 := ⟨by decide⟩

instance neZeroTwo : NeZero 2 := ⟨by decide⟩

instance neZero10 : NeZero 10 := ⟨by decide⟩

instance neZero50 : NeZero 50 := ⟨by decide⟩

instance neZero64 : NeZero 64 := ⟨by decide⟩

instance neZero128 : NeZero 128 := ⟨by decide⟩

instance neZero1024 : NeZero 1024 := ⟨by decide⟩

end Xv6Threads.Core
