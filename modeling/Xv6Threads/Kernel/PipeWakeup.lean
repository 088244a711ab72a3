/-
Who sleeps on a pipe. Readers are woken when a writer finds the buffer full or is done, not for each byte; so between its
first byte and that wakeup a writer owes the readers one. It holds the lock all the time. Readers and `pipeclose` are alike.

One path does not pay: a writer that finds the buffer full and has been killed returns -1 at once. A reader that slept on the
empty pipe goes on sleeping while 512 bytes wait for it (`reader_left_asleep`).

- `Prompt`: whoever sleeps does so rightly, or the holder of the lock owes a wakeup.
- `no_needless_sleep`: in every run in which a killed writer finds the buffer full only when it has stored nothing since its
  last wakeup, nobody sleeps needlessly when the lock is free.
-/
import Xv6Threads.Kernel.Pipe

namespace Xv6Threads.Kernel

open Xv6Threads.Core Function

variable {N : ℕ}

/-- a killed writer does not find the buffer full after it has stored something since its last `wakeup(&p->nread)` -/
def PipeOk (m : Pipe N) : PipeOp N → Prop
  | .go p _ =>
    match m.pc p with
    | .wLoop i n => (i : ℤ) < n → m.full → m.killed p = true → m.fresh p = false
    | _ => True
  | _ => True

instance decidablePipeOk (m : Pipe N) (o : PipeOp N) : Decidable (PipeOk m o) :=
  match o with
  | .go p _ =>
    match h : m.pc p with
    | .wLoop i n => decidable_of_iff ((i : ℤ) < n → m.full → m.killed p = true → m.fresh p = false) (by simp [PipeOk, h])
    | .out | .wWake .. | .wSleep .. | .wWoken .. | .wEnd _ | .wRet _ | .rLoop _ | .rSleep _ | .rWoken _ | .rCopy ..
    | .rEnd .. | .rRet .. | .cOpen _ | .cWake _ | .cRet => .isTrue (by simp [PipeOk, h])
  | .pipewrite .. | .piperead .. | .pipeclose .. | .kill _ => .isTrue trivial

/-- there is nothing for a sleeper on the channel to do -/
def Rightly (m : Pipe N) : PipeChan → Prop
  | .nread => m.nread = m.nwrite ∧ m.writeopen = true
  | .nwrite => m.full ∧ m.readopen = true

/-- the process will call `wakeup` of the channel before it releases the lock -/
def Owes (m : Pipe N) (p : Fin N) : PipeChan → Prop
  | .nread =>
    match m.pc p with
    | .wLoop .. => m.fresh p = true
    | .wWake .. | .wEnd _ | .cWake true => True
    | _ => False
  | .nwrite =>
    match m.pc p with
    | .rCopy i _ => 0 < i
    | .rEnd .. | .cWake false => True
    | _ => False

/-- the invariant -/
def Prompt (m : Pipe N) : Prop :=
  ∀ q ch, m.asleep q = some ch → Rightly m ch ∨ ∃ p, m.lock = some p ∧ Owes m p ch

section Prompt

variable {m m' : Pipe N} {p : Fin N}

/-- what a sleeper knows about the process that holds the lock -/
theorem Prompt.holder (h : Prompt m) (hl : m.lock = some p) {q : Fin N} {ch : PipeChan} (hq : m.asleep q = some ch) :
    Rightly m ch ∨ Owes m p ch := by
  rcases h q ch hq with hr | ⟨p', hp', ho⟩
  · exact .inl hr
  · rw [hl] at hp'
    cases hp'
    exact .inr ho

/-- nobody but the sleepers of before sleeps, and the holder of the lock keeps it and takes its debts along -/
theorem Prompt.keep (h : Prompt m) (hl : m.lock = some p) (hl' : m'.lock = some p)
    (hsleep : ∀ q ch, m'.asleep q = some ch → m.asleep q = some ch)
    (howe : ∀ q ch, m'.asleep q = some ch → Rightly m ch ∨ Owes m p ch → Rightly m' ch ∨ Owes m' p ch) : Prompt m' := by
  intro q ch hq
  rcases howe q ch hq (h.holder hl (hsleep q ch hq)) with hr | ho
  · exact .inl hr
  · exact .inr ⟨p, hl', ho⟩

/-- the holder of the lock releases it without debts -/
theorem Prompt.letGo (h : Prompt m) (hl : m.lock = some p) (hnone : ∀ ch, ¬ Owes m p ch)
    (hsleep : ∀ q ch, m'.asleep q = some ch → m.asleep q = some ch ∨ Rightly m ch)
    (hsame : ∀ ch, Rightly m ch → Rightly m' ch) : Prompt m' := by
  intro q ch hq
  rcases hsleep q ch hq with hq | hr
  · exact .inl (hsame ch ((h.holder hl hq).resolve_right (hnone ch)))
  · exact .inl (hsame ch hr)

theorem Prompt.acquire (h : Prompt m) (e : PipePc) : Prompt (m.acquire p e) := by
  unfold Pipe.acquire
  split
  · rename_i hfree
    intro q ch hq
    rcases h q ch hq with hr | ⟨p', hp', _⟩
    · cases ch <;> exact .inl hr
    · rw [hfree.1] at hp'
      cases hp'
  · exact h

theorem asleep_of_wakeup {q : Fin N} {ch ch' : PipeChan} (h : (m.wakeup ch).asleep q = some ch') :
    m.asleep q = some ch' ∧ ch' ≠ ch := by
  unfold Pipe.wakeup at h
  dsimp only at h
  split at h
  · cases h
  · rename_i hne
    refine ⟨h, ?_⟩
    rintro rfl
    exact hne h

/-- **One statement** of a process that is not asleep. -/
theorem exec_prompt (hs : PipeSound m) (h : Prompt m) (c : UInt8) (hok : PipeOk m (.go p c)) :
    Prompt (m.exec p c (m.pc p)) := by
  have htest := hs.tested p
  have hown : (m.pc p).locked = true → m.lock = some p := (hs.owner p).1
  cases hpc : m.pc p with
  | out => exact h
  | wLoop i n =>
    have hl : m.lock = some p := hown (by rw [hpc]; rfl)
    have hno : ¬ Owes m p .nwrite := by simp [Owes, hpc]
    simp only [Pipe.exec]
    split
    · rename_i hi
      split
      · rename_i hfull
        split
        · rename_i hstop
          refine h.keep hl hl (fun _ _ hq => hq) ?_
          intro q ch hq hbefore
          cases ch with
          | nwrite => exact .inl (hbefore.resolve_right hno)
          | nread =>
            rcases hbefore with hr | ho
            · exact .inl hr
            · exfalso
              rcases hstop with hclosed | hkilled
              · -- a reader sleeps, so the read end is open
                have hsl := hs.sleeper q .nread hq
                have hcall : (m.pc q).call = .piperead := by
                  cases hq' : m.pc q <;> rw [hq'] at hsl <;> first | rfl | cases hsl
                have hopen : m.readopen = true := hs.inside q false hcall
                rw [hclosed] at hopen
                cases hopen
              · simp only [PipeOk, hpc] at hok
                simp only [Owes, hpc] at ho
                rw [hok hi hfull hkilled] at ho
                cases ho
        · refine h.keep hl hl (fun _ _ hq => hq) ?_
          intro q ch _ hbefore
          cases ch with
          | nwrite => exact .inl (hbefore.resolve_right hno)
          | nread => exact .inr (by simp [Owes, Pipe.goto])
      · rename_i hroom
        refine h.keep hl hl (fun _ _ hq => hq) ?_
        intro q ch _ hbefore
        cases ch with
        | nwrite => exact absurd (hbefore.resolve_right hno).1 hroom
        | nread => exact .inr (by simp [Owes, Pipe.goto, Pipe.store])
    · refine h.keep hl hl (fun _ _ hq => hq) ?_
      intro q ch _ hbefore
      cases ch with
      | nwrite => exact .inl (hbefore.resolve_right hno)
      | nread => exact .inr (by simp [Owes, Pipe.goto])
  | wWake i n =>
    have hl : m.lock = some p := hown (by rw [hpc]; rfl)
    refine h.keep hl hl (fun q ch hq => (asleep_of_wakeup (m := m) (q := q) hq).1) ?_
    intro q ch hq hbefore
    cases ch with
    | nwrite => exact .inl (hbefore.resolve_right (by simp [Owes, hpc]))
    | nread => exact absurd rfl (asleep_of_wakeup (m := m) (q := q) hq).2
  | wSleep i n =>
    have hl : m.lock = some p := hown (by rw [hpc]; rfl)
    rw [hpc] at htest
    refine h.letGo hl (fun ch => by cases ch <;> simp [Owes, hpc]) ?_ fun ch hr => by cases ch <;> exact hr
    intro q ch hq
    by_cases hqp : q = p
    · subst hqp
      simp only [Pipe.exec, Pipe.sleep, update_self, Option.some.injEq] at hq
      subst hq
      exact .inr htest
    · exact .inl ((update_of_ne hqp _ _).symm.trans hq)
  | wWoken i n => exact h.acquire _
  | wEnd n =>
    have hl : m.lock = some p := hown (by rw [hpc]; rfl)
    refine h.keep hl hl (fun q ch hq => (asleep_of_wakeup (m := m) (q := q) hq).1) ?_
    intro q ch hq hbefore
    cases ch with
    | nwrite => exact .inl (hbefore.resolve_right (by simp [Owes, hpc]))
    | nread => exact absurd rfl (asleep_of_wakeup (m := m) (q := q) hq).2
  | wRet v =>
    have hl : m.lock = some p := hown (by rw [hpc]; rfl)
    exact h.letGo hl (fun ch => by cases ch <;> simp [Owes, hpc]) (fun _ _ hq => .inl hq) fun ch hr => by
      cases ch <;> exact hr
  | rLoop n =>
    have hl : m.lock = some p := hown (by rw [hpc]; rfl)
    have hno : ∀ ch, ¬ Owes m p ch := fun ch => by cases ch <;> simp [Owes, hpc]
    have hgo : ∀ e, Prompt (m.goto p e) := by
      intro e
      refine h.keep hl hl (fun _ _ hq => hq) ?_
      intro q ch _ hbefore
      have hr := hbefore.resolve_right (hno ch)
      cases ch <;> exact .inl hr
    simp only [Pipe.exec]
    split
    · split
      · exact hgo _
      · exact hgo _
    · exact hgo _
  | rSleep n =>
    have hl : m.lock = some p := hown (by rw [hpc]; rfl)
    rw [hpc] at htest
    refine h.letGo hl (fun ch => by cases ch <;> simp [Owes, hpc]) ?_ fun ch hr => by cases ch <;> exact hr
    intro q ch hq
    by_cases hqp : q = p
    · subst hqp
      simp only [Pipe.exec, Pipe.sleep, update_self, Option.some.injEq] at hq
      subst hq
      exact .inr htest
    · exact .inl ((update_of_ne hqp _ _).symm.trans hq)
  | rWoken n => exact h.acquire _
  | rCopy i n =>
    have hl : m.lock = some p := hown (by rw [hpc]; rfl)
    have hno : ¬ Owes m p .nread := by simp [Owes, hpc]
    simp only [Pipe.exec]
    split
    · rename_i hdata
      refine h.keep hl hl (fun _ _ hq => hq) ?_
      intro q ch _ hbefore
      cases ch with
      | nread => exact absurd (hbefore.resolve_right hno).1 hdata.2
      | nwrite => exact .inr (by simp [Owes, Pipe.goto])
    · refine h.keep hl hl (fun _ _ hq => hq) ?_
      intro q ch _ hbefore
      cases ch with
      | nread => exact .inl (hbefore.resolve_right hno)
      | nwrite => exact .inr (by simp [Owes, Pipe.goto])
  | rEnd i n =>
    have hl : m.lock = some p := hown (by rw [hpc]; rfl)
    refine h.keep hl hl (fun q ch hq => (asleep_of_wakeup (m := m) (q := q) hq).1) ?_
    intro q ch hq hbefore
    cases ch with
    | nread => exact .inl (hbefore.resolve_right (by simp [Owes, hpc]))
    | nwrite => exact absurd rfl (asleep_of_wakeup (m := m) (q := q) hq).2
  | rRet n v =>
    have hl : m.lock = some p := hown (by rw [hpc]; rfl)
    exact h.letGo hl (fun ch => by cases ch <;> simp [Owes, hpc]) (fun _ _ hq => .inl hq) fun ch hr => by
      cases ch <;> exact hr
  | cOpen w =>
    have hl : m.lock = some p := hown (by rw [hpc]; rfl)
    have hno : ∀ ch, ¬ Owes m p ch := fun ch => by cases ch <;> simp [Owes, hpc]
    cases w with
    | true =>
      refine h.keep hl hl (fun _ _ hq => hq) ?_
      intro q ch _ hbefore
      cases ch with
      | nread => exact .inr (by simp [Owes, Pipe.exec, Pipe.goto])
      | nwrite => exact .inl (hbefore.resolve_right (hno _))
    | false =>
      refine h.keep hl hl (fun _ _ hq => hq) ?_
      intro q ch _ hbefore
      cases ch with
      | nread => exact .inl (hbefore.resolve_right (hno _))
      | nwrite => exact .inr (by simp [Owes, Pipe.exec, Pipe.goto])
  | cWake w =>
    have hl : m.lock = some p := hown (by rw [hpc]; rfl)
    refine h.keep hl hl (fun q ch hq => (asleep_of_wakeup (m := m) (q := q) hq).1) ?_
    intro q ch hq hbefore
    have hne := (asleep_of_wakeup (m := m) (q := q) hq).2
    cases w with
    | true =>
      cases ch with
      | nread => exact absurd rfl hne
      | nwrite => exact .inl (hbefore.resolve_right (by simp [Owes, hpc]))
    | false =>
      cases ch with
      | nread => exact .inl (hbefore.resolve_right (by simp [Owes, hpc]))
      | nwrite => exact absurd rfl hne
  | cRet =>
    have hl : m.lock = some p := hown (by rw [hpc]; rfl)
    exact h.letGo hl (fun ch => by cases ch <;> simp [Owes, hpc]) (fun _ _ hq => .inl hq) fun ch hr => by
      cases ch <;> exact hr

/-- **One step.** A killed sleeper is awake, and owes nothing. -/
theorem step_prompt (hs : PipeSound m) (h : Prompt m) {o : PipeOp N} (hok : PipeOk m o) : Prompt (m.step o) := by
  cases o with
  | go p c =>
    simp only [Pipe.step]
    split
    · exact exec_prompt hs h c hok
    · exact h
  | kill p =>
    intro q ch hq
    by_cases hqp : q = p
    · subst hqp
      simp [Pipe.step] at hq
    · rcases h q ch ((update_of_ne hqp _ _).symm.trans hq) with hr | ⟨r, hl, ho⟩
      · cases ch <;> exact .inl hr
      · cases ch <;> exact .inr ⟨r, hl, ho⟩
  | pipewrite | piperead | pipeclose =>
    simp only [Pipe.step]
    split
    · exact h.acquire _
    · exact h

end Prompt

/-- **Nobody sleeps needlessly on a pipe**, in every run of steps that are `PipeOk`: when the lock is free, a sleeper on
`&p->nread` finds the buffer empty and the write end open, and a sleeper on `&p->nwrite` finds the buffer full and the
read end open. -/
theorem no_needless_sleep (data : ℕ → UInt8) (ops : List (PipeOp N)) (h : Along Pipe.step PipeOk (.alloc data) ops)
    (m : Pipe N) (hm : m = run Pipe.step (.alloc data) ops) (hfree : m.lock = none) (q : Fin N) :
    (m.asleep q = some .nread → m.nread = m.nwrite ∧ m.writeopen = true) ∧
      (m.asleep q = some .nwrite → m.full ∧ m.readopen = true) := by
  have hinv : PipeSound m ∧ Prompt m := by
    rw [hm]
    refine h.inv (I := fun m => PipeSound m ∧ Prompt m) ?_ ⟨alloc_sound data, fun q ch hq => by cases hq⟩
    intro m o hok hm
    exact ⟨pipeStep_sound hm.1 o, step_prompt hm.1 hm.2 hok⟩
  have hright : ∀ ch, m.asleep q = some ch → Rightly m ch := by
    intro ch hq
    rcases hinv.2 q ch hq with hr | ⟨p, hl, _⟩
    · exact hr
    · rw [hfree] at hl
      cases hl
  exact ⟨hright .nread, hright .nwrite⟩

/-- process 0 reads from the empty pipe and goes to sleep -/
def readerSleeps : List (PipeOp 2) := [.piperead 0 1, .go 0 0, .go 0 0]

/-- the theorem at that run: the reader sleeps, and there is nothing to read -/
theorem no_needless_sleep_empty :
    (run Pipe.step (.alloc fun _ => 0) readerSleeps).asleep 0 = some .nread ∧
      (run Pipe.step (.alloc fun _ => 0) readerSleeps).nread = (run Pipe.step (.alloc fun _ => 0) readerSleeps).nwrite := by
  have hsleep : (run Pipe.step (.alloc fun _ => 0) readerSleeps).asleep 0 = some .nread := by decide
  exact ⟨hsleep, ((no_needless_sleep (fun _ => 0) readerSleeps (by decide) _ rfl (by decide) 0).1 hsleep).1⟩

/-- then process 1, which has been killed, writes 513 bytes, finds the buffer full and returns -1 -/
def killedWriter : List (PipeOp 2) := List.flatten
  [readerSleeps, [.pipewrite 1 513, .kill 1], List.replicate 512 (.go 1 7), [.go 1 7, .go 1 7]]

/-- **A needless sleeper.** The lock is free, the buffer holds 512 bytes, and the reader sleeps. -/
theorem reader_left_asleep :
    let m := run Pipe.step (.alloc fun _ => 0) killedWriter
    m.lock = none ∧ m.asleep 0 = some .nread ∧ m.nwrite = 512 ∧ m.nread = 0 := by
  decide +kernel

end Xv6Threads.Kernel
