/-
`kill`: which thread of a process it reaches.

`kill` marks the first slot of the table that has the pid and stops there. The slots of a process are its threads, and
the first of them may be a ZOMBIE while others live: after `thread_exit` of the main thread, for one.
- `kill_reaches_live`: `kill` reaches a live thread if and only if that first slot is alive, or one had been reached
  before.
- `kill_reaches_zombie`: a run in which it is not.
-/
import Xv6Threads.Kernel.Machine

namespace Xv6Threads.Kernel

open Xv6Threads.Core

variable {N K : ℕ}

/-- neither free nor a ZOMBIE -/
def Proc.Alive (x : Proc N) : Prop := x.state ≠ .unused ∧ x.state ≠ .zombie

instance decidableProcAlive (x : Proc N) : Decidable x.Alive := instDecidableAnd

/-- a live slot of the process is marked, and not asleep -/
def Reached (s : St N K) (pid : ℕ) : Prop :=
  ∃ q, (s.ptable q).pid = pid ∧ (s.ptable q).Alive ∧ (s.ptable q).killed = true ∧ (s.ptable q).state ≠ .sleeping

theorem Proc.kill_alive (x : Proc N) : x.kill.Alive ↔ x.Alive := by
  unfold Proc.Alive Proc.kill
  cases hx : x.state <;> simp

theorem Proc.kill_awake (x : Proc N) : x.kill.state ≠ .sleeping := by
  unfold Proc.kill
  cases hx : x.state <;> simp

theorem killFind_some {t : Table N} {pid : ℕ} {q : Fin N} (h : killFind t pid = some q) : (t q).pid = pid := by
  have hq := List.find?_some h
  simpa using hq

theorem killFind_isSome {t : Table N} {pid : ℕ} {q : Fin N} (h : (t q).pid = pid) : ∃ f, killFind t pid = some f := by
  have hsome : (killFind t pid).isSome := List.find?_isSome.2 ⟨q, List.mem_finRange q, by simp [h]⟩
  exact Option.isSome_iff_exists.1 hsome

/-- **Whom `kill` reaches.** For a process with a live thread `kill` returns 0, and afterwards a live thread of it is
marked and not asleep if and only if the first slot with the pid was alive, or that was so before. -/
theorem kill_reaches_live (s : St N K) (p : Fin N) (pid : ℕ)
    (h : ∃ q, (s.ptable q).pid = pid ∧ (s.ptable q).Alive) :
    (kill s p pid).eax p = 0 ∧
      (Reached (kill s p pid) pid ↔ (∃ f, killFind s.ptable pid = some f ∧ (s.ptable f).Alive) ∨ Reached s pid) := by
  obtain ⟨q, hq, _⟩ := h
  obtain ⟨f, hf⟩ := killFind_isSome hq
  have hkill : kill s p pid = (s.write f Proc.kill).sysret p 0 := by simp only [kill, hf]
  have hself : ((s.write f Proc.kill).sysret p 0).ptable f = (s.ptable f).kill := Table.write_self ..
  have hother : ∀ r, r ≠ f → ((s.write f Proc.kill).sysret p 0).ptable r = s.ptable r :=
    fun r hr => Table.write_of_ne _ hr _
  rw [hkill]
  refine ⟨Function.update_self .., ?_, ?_⟩
  · rintro ⟨r, hpid, halive, hkilled, hawake⟩
    by_cases hr : r = f
    · subst hr
      rw [hself, Proc.kill_alive] at halive
      exact .inl ⟨r, hf, halive⟩
    · rw [hother r hr] at hpid halive hkilled hawake
      exact .inr ⟨r, hpid, halive, hkilled, hawake⟩
  · rintro (⟨f', hf', halive⟩ | ⟨r, hpid, halive, hkilled, hawake⟩)
    · obtain rfl : f = f' := Option.some.inj (hf.symm.trans hf')
      refine ⟨f, ?_, ?_, ?_, ?_⟩ <;> rw [hself]
      · exact killFind_some hf
      · exact (Proc.kill_alive _).2 halive
      · rfl
      · exact Proc.kill_awake _
    · by_cases hr : r = f
      · subst hr
        refine ⟨r, ?_, ?_, ?_, ?_⟩ <;> rw [hself]
        · exact hpid
        · exact (Proc.kill_alive _).2 halive
        · rfl
        · exact Proc.kill_awake _
      · refine ⟨r, ?_, ?_, ?_, ?_⟩ <;> rw [hother r hr] <;> assumption

/-- the theorem after `userinit`: init is RUNNABLE, and `kill(1)` marks it -/
theorem kill_reaches_init : Reached (kill (boot 64 1) 0 1) 1 := by
  have h := kill_reaches_live (boot 64 1) 0 1 ⟨0, by decide, by decide⟩
  exact h.2.2 (.inl ⟨0, by decide, by decide⟩)

/-- init forks a child, the child makes a thread and its main thread calls `thread_exit`; init runs again -/
def mainGone : List (Op 64 1) := List.flatten
  [[.dispatch 0 0, .call 0 .fork], List.replicate 10 (.exec 0 true), [.preempt 0, .dispatch 0 1, .call 0 .threadCreate],
    List.replicate 12 (.exec 0 true), [.call 0 (.threadExit 0), .dispatch 0 0]]

/-- **A live thread that `kill` does not reach.** The thread of process 2 is RUNNABLE, `kill(2)` returns 0 and marks the
ZOMBIE, and no live thread of the process is marked. -/
theorem kill_reaches_zombie :
    let s := run step (boot 64 1) mainGone
    let s' := step s (.call 0 (.kill 2))
    ((s.ptable 2).pid = 2 ∧ (s.ptable 2).state = .runnable) ∧ s'.eax 0 = 0 ∧ (s'.ptable 1).killed = true ∧
      ∀ q, (s'.ptable q).pid = 2 → (s'.ptable q).Alive → (s'.ptable q).killed = false := by
  decide +kernel

end Xv6Threads.Kernel
