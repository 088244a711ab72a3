/-
What a call that may panic ends in, with nothing said about the program.

A call is a value of `Except ε α`: a result, with the new state among what it returns, or a panic. `Ends r Q E` says that
a result has `Q` and a panic `E`. With `E` false it says that the call returns; with `Q` true, which panics it may reach.
- `Ends.bind`: one call after another.
- `Ends.mono`: with weaker conditions.
-/
import Xv6Threads.Core.Runs

namespace Xv6Threads.Core

variable {ε : Type*} {α β : Type}

def Ends (r : Except ε α) (Q : α → Prop) (E : ε → Prop) : Prop :=
  match r with
  | .ok a => Q a
  | .error e => E e

namespace Ends

variable {r : Except ε α} {Q Q' : α → Prop} {E E' : ε → Prop}

theorem ok {a : α} (h : Q a) : Ends (.ok a : Except ε α) Q E := h

theorem error {e : ε} (h : E e) : Ends (.error e : Except ε α) Q E := h

/-- a call of which nothing is asked -/
theorem any : Ends r (fun _ => True) fun _ => True := by
  cases r with
  | ok a => exact trivial
  | error e => exact trivial

theorem bind {f : α → Except ε β} {R : β → Prop} (h : Ends r Q E) (hf : ∀ a, Q a → Ends (f a) R E) :
    Ends (r >>= f) R E := by
  cases r with
  | ok a => exact hf a h
  | error e => exact h

theorem mono (h : Ends r Q E) (hQ : ∀ a, Q a → Q' a) (hE : ∀ e, E e → E' e) : Ends r Q' E' := by
  cases r with
  | ok a => exact hQ a h
  | error e => exact hE e h

/-- a call that returned -/
theorem of_ok (h : Ends r Q E) {a : α} (hr : r = .ok a) : Q a := by
  subst hr
  exact h

/-- a call that panicked -/
theorem of_error (h : Ends r Q E) {e : ε} (hr : r = .error e) : E e := by
  subst hr
  exact h

/-- a call that cannot panic returns -/
theorem returns (h : Ends r Q fun _ => False) : ∃ a, r = .ok a ∧ Q a := by
  cases r with
  | ok a => exact ⟨a, rfl, h⟩
  | error e => exact False.elim h

end Ends

end Xv6Threads.Core
