/-
Programs over the operations of a machine, with nothing said about either.

A program performs an operation, gets its result and goes on (`Prog`). What an operation does to the state is a function
`step`, which may also stop the program. `exec` runs a program alone, from its start to its end.
- `exec_bind`: one program after another.
- `Ends.exec_bind`: the same for what the two end in.
-/
import Xv6Threads.Core.Outcome

namespace Xv6Threads.Core

/-- operations, and the types of their results -/
structure Signature where
  Op : Type
  Res : Op → Type

inductive Prog (σ : Signature) (α : Type) where
  | ret (a : α)
  | call (o : σ.Op) (k : σ.Res o → Prog σ α)

namespace Prog

variable {σ : Signature} {α β γ S ε : Type}

protected def bind : Prog σ α → (α → Prog σ β) → Prog σ β
  | ret a, f => f a
  | call o k, f => call o fun r => (k r).bind f

instance : Monad (Prog σ) where
  pure := ret
  bind := Prog.bind

/-- one operation -/
def perform (o : σ.Op) : Prog σ (σ.Res o) := call o ret

@[simp] theorem ret_bind (a : α) (f : α → Prog σ β) : (ret a >>= f) = f a := rfl

@[simp] theorem call_bind (o : σ.Op) (k : σ.Res o → Prog σ α) (f : α → Prog σ β) :
    (call o k >>= f) = call o fun r => k r >>= f := rfl

theorem pure_eq (a : α) : (pure a : Prog σ α) = ret a := rfl

/-- a program that runs alone -/
def exec (step : (o : σ.Op) → S → Except ε (σ.Res o × S)) : Prog σ α → S → Except ε (α × S)
  | ret a, s => .ok (a, s)
  | call o k, s => do
    let (r, s) ← step o s
    (k r).exec step s

variable {step : (o : σ.Op) → S → Except ε (σ.Res o × S)} {s : S}

@[simp] theorem exec_pure (a : α) : (pure a : Prog σ α).exec step s = .ok (a, s) := rfl

@[simp] theorem exec_perform (o : σ.Op) : (perform o).exec step s = step o s := by
  simp only [perform, exec]
  cases step o s with
  | ok r => rfl
  | error e => rfl

theorem exec_bind (p : Prog σ α) (f : α → Prog σ β) :
    (p >>= f).exec step s = p.exec step s >>= fun r => (f r.1).exec step r.2 := by
  induction p generalizing s with
  | ret a => rfl
  | call o k ih =>
    simp only [call_bind, exec]
    cases step o s with
    | ok r => exact ih r.1
    | error e => rfl

end Prog

namespace Ends

variable {σ : Signature} {α β S ε : Type} {step : (o : σ.Op) → S → Except ε (σ.Res o × S)} {s : S}

/-- one program after another -/
theorem exec_bind {p : Prog σ α} {f : α → Prog σ β} {Q : α × S → Prop} {R : β × S → Prop} {E : ε → Prop}
    (hp : Ends (p.exec step s) Q E) (hf : ∀ a s, Q (a, s) → Ends ((f a).exec step s) R E) :
    Ends ((p >>= f).exec step s) R E := by
  rw [Prog.exec_bind]
  exact hp.bind fun r hr => hf r.1 r.2 hr

end Ends

end Xv6Threads.Core
