/-
`wait` of a process that has no child.

The scan of `wait` counts every slot whose parent is the caller, and a thread's parent is the main slot of its process.
So a process with threads and without children sleeps in `wait`, where it should return -1. Nothing will wake it but a
kill: its threads stay in the table, as zombies too, until the whole process is reaped.
- `wait_childless_iff`: `wait` of a process without children returns -1 exactly if no slot has it as parent, or it has
  been killed.
- `wait_sleeps_for_thread`: a run in which a process without children sleeps in `wait`.
-/
import Xv6Threads.Core.Runs
import Xv6Threads.Kernel.Machine

namespace Xv6Threads.Kernel

open Xv6Threads.Core

variable {N K : ℕ} {s : St N K} {c : Fin K} {p : Fin N}

/-- a child process of `p`: the main slot of a process, in any state but UNUSED -/
def HasChild (t : Table N) (p : Fin N) : Prop :=
  ∃ q, (t q).state ≠ .unused ∧ (t q).isthread = false ∧ (t q).parent = some p

instance decidableHasChild (t : Table N) (p : Fin N) : Decidable (HasChild t p) :=
  inferInstanceAs (Decidable (∃ q, (t q).state ≠ .unused ∧ (t q).isthread = false ∧ (t q).parent = some p))

/-- the scan stops only at a child -/
theorem waitFound_of_childless (h : ¬ HasChild s.ptable p) : waitFound s.ptable p = 0 := by
  unfold waitFound
  cases hfind : waitFind s.ptable p with
  | none => rfl
  | some q =>
    have hreap : Reapable p (s.ptable q) := by simpa using List.find?_some hfind
    obtain ⟨hparent, hzombie, hmain, _⟩ := hreap
    refine absurd ⟨q, ?_, hmain, hparent⟩ h
    rw [hzombie]
    exact nofun

theorem havekids_eq_false_iff (t : Table N) (p : Fin N) : havekids t p = false ↔ ∀ q, (t q).parent ≠ some p := by
  unfold havekids
  rw [List.any_eq_false]
  simp

/-- **`wait` of a process without children** returns -1 at once and changes nothing, exactly if no slot of the table
has it as parent, or it has been killed. Otherwise it sleeps. -/
theorem wait_childless_iff (s : St N K) (c : Fin K) (p : Fin N) (h : ¬ HasChild s.ptable p) :
    syscall s c p .wait = s.sysret p (-1) ↔ (∀ q, (s.ptable q).parent ≠ some p) ∨ (s.ptable p).killed = true := by
  have hfound := waitFound_of_childless h
  change waitLoop s c p = _ ↔ _
  simp only [waitLoop, hfound, ne_eq, not_true_eq_false, if_false]
  rw [← havekids_eq_false_iff]
  constructor
  · intro heq
    by_contra hno
    rw [if_neg hno] at heq
    have hpc := congrArg (fun s => s.pc p) heq
    simp [St.sleep] at hpc
  · intro hor
    rw [if_pos hor]

/-- init alone -/
theorem wait_childless_init :
    ¬ HasChild (boot 64 1).ptable 0 ∧ syscall (boot 64 1) 0 0 .wait = (boot 64 1).sysret 0 (-1) := by
  have hno : ¬ HasChild (boot 64 1).ptable 0 := by decide +kernel
  refine ⟨hno, (wait_childless_iff (boot 64 1) 0 0 hno).2 (.inl ?_)⟩
  decide +kernel

/-- a process makes a thread -/
def makesOneThread : List (Op 64 1) := [Op.dispatch 0 0, Op.call 0 .threadCreate] ++ List.replicate 12 (Op.exec 0 true)

/-- **`wait` sleeps for a thread.** The process has one thread and no child, and is asleep after its call of `wait`. -/
theorem wait_sleeps_for_thread :
    let s := run step (boot 64 1) makesOneThread
    s.pc 0 = .user ∧ ¬ HasChild s.ptable 0 ∧ (step s (.call 0 .wait)).pc 0 = .waitSleep ∧
      ((step s (.call 0 .wait)).ptable 0).state = .sleeping := by
  decide +kernel

end Xv6Threads.Kernel
