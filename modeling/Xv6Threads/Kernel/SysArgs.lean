/-
The arguments of the thread and semaphore system calls, as sysproc.c fetches them.

Every argument is fetched with `argptr` into a variable that has no value yet, and the result of `argptr` is not looked
at. So the call goes on with whatever the variable held (`junk`) when the word is not in the memory of the process, or is
not the address of four bytes of it. Nothing compares the number of a semaphore with the size of the table.
- `Validated`: what the calls are meant to do: return -1, or go on with the words on the stack of the process, and with
  the number of a semaphore of the table.
- `validated_iff`: when they do that.
-/
import Xv6Threads.Fs.Layout
import Xv6Threads.Kernel.Machine
import Xv6Threads.Memory.Vm

namespace Xv6Threads.Kernel

open Xv6Threads.Core Xv6Threads.Memory

/-- what the calls use of a process: its size, its user stack pointer and its memory -/
structure UserProc where
  sz : ℕ
  esp : BitVec 32
  mem : ℕ → Byte
  -- growproc and exec allow no more
  sz_lt : sz < KERNBASE

namespace UserProc

variable (p : UserProc)

/-- `*(int*)addr` -/
def word (addr : ℕ) : BitVec 32 := Fs.word.decode fun i => p.mem (addr + i)

/-- the int at `addr`; `none` is -1 -/
def fetchint (addr : BitVec 32) : Option (BitVec 32) :=
  if p.sz ≤ addr.toNat ∨ p.sz < (addr + 4).toNat then none else some (p.word addr.toNat)

/-- system call argument `n` -/
def argint (n : ℕ) : Option (BitVec 32) := p.fetchint (p.esp + 4 + 4 * BitVec.ofNat 32 n)

/-- `size` bytes at the address `i` are not in the memory of the process -/
def Outside (i size : BitVec 32) : Prop := p.sz ≤ i.toNat ∨ p.sz < (i + size).toNat

instance decidableOutside (i size : BitVec 32) : Decidable (p.Outside i size) :=
  inferInstanceAs (Decidable (p.sz ≤ i.toNat ∨ p.sz < (i + size).toNat))

/-- argument `n` as a pointer to `size` bytes: whether it returns 0, and the variable `pp` after it -/
def argptr (n : ℕ) (pp size : BitVec 32) : Bool × BitVec 32 :=
  match p.argint n with
  | none => (false, pp)
  | some i => if p.Outside i size then (false, pp) else (true, i)

end UserProc

/-- the functions that the calls are for -/
inductive Fn where
  | threadCreate
  | threadJoin
  | threadExit
  | semCreate
  | semDown
  | semUp
  deriving DecidableEq

def Fn.arity : Fn → ℕ
  | .threadCreate => 3
  | .threadJoin => 2
  | .threadExit | .semCreate | .semDown | .semUp => 1

/-- whether the argument is an index into the semaphore table -/
def Fn.indexes : Fn → Bool
  | .semDown | .semUp => true
  | _ => false

/-- what a system call does: it returns -1 at once, or goes on with the function -/
inductive Entry where
  | error
  | call (f : Fn) (args : List (BitVec 32))
  deriving DecidableEq

/-- every one of the calls: its variables, which hold `junk`, go through `argptr` one after the other -/
def sysCall (f : Fn) (p : UserProc) (junk : ℕ → BitVec 32) : Entry :=
  .call f ((List.range f.arity).map fun n => (p.argptr n (junk n) 4).2)

/-- start_func, stack, stack_size -/
def sysThreadCreate : UserProc → (ℕ → BitVec 32) → Entry := sysCall .threadCreate

/-- thread_id, ret_val -/
def sysThreadJoin : UserProc → (ℕ → BitVec 32) → Entry := sysCall .threadJoin

/-- ret_val -/
def sysThreadExit : UserProc → (ℕ → BitVec 32) → Entry := sysCall .threadExit

/-- initial_value -/
def sysBinarySemaphoreCreate : UserProc → (ℕ → BitVec 32) → Entry := sysCall .semCreate

/-- binary_semaphore_ID -/
def sysBinarySemaphoreDown : UserProc → (ℕ → BitVec 32) → Entry := sysCall .semDown

/-- binary_semaphore_ID -/
def sysBinarySemaphoreUp : UserProc → (ℕ → BitVec 32) → Entry := sysCall .semUp

/-! ## What they should do -/

/-- it returns -1, or goes on with exactly the words on the stack; a semaphore is one of the table -/
structure Validated (f : Fn) (p : UserProc) (e : Entry) : Prop where
  args : e = .error ∨ ∃ ws, (List.range f.arity).map p.argint = ws.map some ∧ e = .call f ws
  index : ∀ ws, e = .call f ws → f.indexes = true → ∀ id ∈ ws, id.toNat < 128

/-- argument `n` is there, and `argptr` accepts it or leaves a variable alone that has its value; a semaphore is one of
the table -/
def ArgOk (f : Fn) (p : UserProc) (junk : ℕ → BitVec 32) (n : ℕ) : Prop :=
  ∃ w, p.argint n = some w ∧ (¬ p.Outside w 4 ∨ junk n = w) ∧ (f.indexes = true → w.toNat < 128)

variable {f : Fn} {p : UserProc} {junk : ℕ → BitVec 32} {n : ℕ}

theorem argptr_of_argint {w pp : BitVec 32} (h : p.argint n = some w) :
    (p.argptr n pp 4).2 = w ↔ ¬ p.Outside w 4 ∨ pp = w := by
  simp only [UserProc.argptr, h]
  by_cases hout : p.Outside w 4
  · rw [if_pos hout, or_iff_right (not_not.2 hout)]
  · rw [if_neg hout]
    exact iff_of_true rfl (.inl hout)

/-- lists of the same length are equal if what stands at each place is -/
theorem map_range_eq_iff {α : Type} {g h : ℕ → α} (k : ℕ) :
    (List.range k).map g = (List.range k).map h ↔ ∀ n, n < k → g n = h n := by
  rw [List.map_inj_left]
  simp

/-- **The calls validate their arguments** exactly if every argument is in the memory, is the address of four bytes
there (or happens to be what the variable held), and is below 128 where it is the number of a semaphore. -/
theorem validated_sysCall (f : Fn) (p : UserProc) (junk : ℕ → BitVec 32) :
    Validated f p (sysCall f p junk) ↔ ∀ n, n < f.arity → ArgOk f p junk n := by
  constructor
  · intro h n hn
    obtain herr | ⟨ws, hws, hcall⟩ := h.args
    · cases herr
    · have hargs : (List.range f.arity).map (fun n => (p.argptr n (junk n) 4).2) = ws := by
        simpa [sysCall] using hcall
      have hsome : p.argint n = some (p.argptr n (junk n) 4).2 := by
        rw [← hargs, List.map_map, map_range_eq_iff] at hws
        exact hws n hn
      refine ⟨_, hsome, (argptr_of_argint hsome).1 rfl, ?_⟩
      intro hidx
      refine h.index ws hcall hidx _ ?_
      rw [← hargs]
      exact List.mem_map.2 ⟨n, List.mem_range.2 hn, rfl⟩
  · intro h
    have hsome : ∀ n, n < f.arity → p.argint n = some (p.argptr n (junk n) 4).2 := by
      intro n hn
      obtain ⟨w, hw, hok, _⟩ := h n hn
      rw [(argptr_of_argint hw).2 hok, hw]
    constructor
    case args =>
      refine .inr ⟨_, ?_, rfl⟩
      rw [List.map_map, map_range_eq_iff]
      exact hsome
    case index =>
      intro ws hcall hidx id hid
      have hargs : (List.range f.arity).map (fun n => (p.argptr n (junk n) 4).2) = ws := by
        simpa [sysCall] using hcall
      rw [← hargs] at hid
      obtain ⟨n, hn, rfl⟩ := List.mem_map.1 hid
      have hn := List.mem_range.1 hn
      obtain ⟨w, hw, _, hlt⟩ := h n hn
      have heq : w = (p.argptr n (junk n) 4).2 := Option.some.inj (hw.symm.trans (hsome n hn))
      rw [← heq]
      exact hlt hidx

/-- **The six calls**: each validates its arguments iff each of them is `ArgOk`. -/
theorem validated_iff (p : UserProc) (junk : ℕ → BitVec 32) :
    (Validated .threadCreate p (sysThreadCreate p junk) ↔ ∀ n, n < 3 → ArgOk .threadCreate p junk n) ∧
    (Validated .threadJoin p (sysThreadJoin p junk) ↔ ∀ n, n < 2 → ArgOk .threadJoin p junk n) ∧
    (Validated .threadExit p (sysThreadExit p junk) ↔ ArgOk .threadExit p junk 0) ∧
    (Validated .semCreate p (sysBinarySemaphoreCreate p junk) ↔ ArgOk .semCreate p junk 0) ∧
    (Validated .semDown p (sysBinarySemaphoreDown p junk) ↔ ArgOk .semDown p junk 0) ∧
    (Validated .semUp p (sysBinarySemaphoreUp p junk) ↔ ArgOk .semUp p junk 0) := by
  have hone : ∀ P : ℕ → Prop, (∀ n, n < 1 → P n) ↔ P 0 := by
    intro P
    simp
  refine ⟨validated_sysCall _ p junk, validated_sysCall _ p junk, ?_, ?_, ?_, ?_⟩
  · exact (validated_sysCall .threadExit p junk).trans (hone _)
  · exact (validated_sysCall .semCreate p junk).trans (hone _)
  · exact (validated_sysCall .semDown p junk).trans (hone _)
  · exact (validated_sysCall .semUp p junk).trans (hone _)

/-- a process of one page whose stack pointer is 0, with a word in the place of the first argument -/
def withArg (w : BitVec 32) : UserProc where
  sz := PGSIZE
  esp := 0
  mem := fun a => if h : 4 ≤ a ∧ a < 8 then Fs.word.encode w ⟨a - 4, by omega⟩ else 0
  sz_lt := by decide

/-- **Numbers that are not checked.** The call for semaphore 200 goes on, and that for -1 goes on with the number 5 that
the variable held. -/
theorem sysCall_not_validated :
    ¬ Validated .semDown (withArg 200) (sysBinarySemaphoreDown (withArg 200) fun _ => 0) ∧
    ¬ Validated .semUp (withArg (-1)) (sysBinarySemaphoreUp (withArg (-1)) fun _ => 5) := by
  have h200 : sysBinarySemaphoreDown (withArg 200) (fun _ => 0) = .call .semDown [200] := by decide +kernel
  have hneg : sysBinarySemaphoreUp (withArg (-1)) (fun _ => 5) = .call .semUp [5] := by decide +kernel
  constructor
  · intro h
    exact absurd (h.index _ h200 rfl 200 List.mem_cons_self) (by decide)
  · intro h
    have hword : (withArg (-1)).argint 0 = some (-1) := by decide +kernel
    obtain herr | ⟨ws, hws, hcall⟩ := h.args
    · rw [hneg] at herr
      cases herr
    · rw [hneg] at hcall
      cases hcall
      change [(withArg (-1)).argint 0] = [some 5] at hws
      rw [hword] at hws
      exact absurd hws (by decide)

end Xv6Threads.Kernel
