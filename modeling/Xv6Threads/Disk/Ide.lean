/-
The disk driver of ide.c: processes in `iderw`, the interrupt handler `ideintr`, and the disk.

The queue is a linked list: `idequeue` is its head, and each buffer has a field `qnext`. Its first buffer is the one the
disk works on. Every step is what one party does while it holds `idelock`: a process appends its buffer (`call`) or tests
its loop condition again (`go`, whoever woke it), the handler runs (`intr`), or the disk carries a command out
(`complete`), for which it raises one interrupt. An interrupt may also come when the queue is empty. What a buffer holds is
changed at will as long as nobody is in `iderw` with it (`own`).

Histories that no step reads: the calls in the order in which they appended, the buffers that commands were started for, the
transfers, and the returns.
- `sector_registers`: the registers take 28 bits of the sector and one of the device.
- `step_at`: how far the queue, the disk and the histories are, kept by every step.
- `requests_served_in_order`: so requests are served once and in order, and a call returns when its own was.
- `far_sector`: a call for sector 2^28 is served with sector 0.
-/
import Xv6Threads.Core.Links

namespace Xv6Threads.Ide

open Xv6Threads.Core Function

/-! ## The disk -/

/-- the registers that say which sector: 0x1f3 to 0x1f6 -/
structure Registers where
  low : BitVec 8
  mid : BitVec 8
  high : BitVec 8
  device : BitVec 8

/-- the sector that a disk takes from them -/
def Registers.sector (r : Registers) : BitVec 28 := r.device.setWidth 4 ++ r.high ++ r.mid ++ r.low

/-- which of the two disks -/
def Registers.drive (r : Registers) : Bool := r.device.getLsbD 4

section Model

variable {ι β Δ : Type}

/-- a started command; a write has its data -/
structure Command (Δ : Type) where
  drive : Bool
  sector : BitVec 28
  out : Option Δ

/-- a command that was carried out, and what was moved -/
structure Transfer (Δ : Type) where
  command : Command Δ
  data : Δ

structure Disk (Δ : Type) where
  sectors : Bool × BitVec 28 → Δ
  command : Option (Command Δ)
  /-- what `insl` reads -/
  port : Δ
  interrupt : Bool
  transfers : List (Transfer Δ)

/-- the disk carries its command out and raises the interrupt -/
def Disk.complete (d : Disk Δ) : Disk Δ :=
  match d.command with
  | none => d
  | some c =>
    match c.out with
    | some x =>
      { d with sectors := update d.sectors (c.drive, c.sector) x, command := none, interrupt := true,
               transfers := d.transfers ++ [⟨c, x⟩] }
    | none =>
      let x := d.sectors (c.drive, c.sector)
      { d with port := x, command := none, interrupt := true, transfers := d.transfers ++ [⟨c, x⟩] }

/-! ## The driver -/

/-- `struct buf` without its links; the flags are B_BUSY, B_VALID and B_DIRTY -/
structure Buf (Δ : Type) where
  busy : Bool
  valid : Bool
  dirty : Bool
  dev : BitVec 32
  sector : BitVec 32
  data : Δ

/-- what `idestart` writes to the registers -/
def Buf.registers (x : Buf Δ) : Registers where
  low := (x.sector &&& 0xff).setWidth 8
  mid := ((x.sector >>> 8) &&& 0xff).setWidth 8
  high := ((x.sector >>> 16) &&& 0xff).setWidth 8
  device := (0xe0 ||| ((x.dev &&& 1) <<< 4) ||| ((x.sector >>> 24) &&& 0x0f)).setWidth 8

/-- the command that `idestart` starts -/
def Buf.command (x : Buf Δ) : Command Δ where
  drive := x.registers.drive
  sector := x.registers.sector
  out := if x.dirty then some x.data else none

/-- a call of `iderw`: the process, the buffer, and what was in it -/
structure Request (ι β Δ : Type) where
  p : ι
  b : β
  buf : Buf Δ

/-- a return: which call it was of, what was in the buffer, and how many transfers there had been -/
structure Return (ι β Δ : Type) where
  p : ι
  b : β
  call : ℕ
  buf : Buf Δ
  transfers : ℕ

/-- why a call does not go on: a panic, or a loop that this party cannot end -/
inductive Fail where
  | panic (message : String)
  | spins
deriving DecidableEq

structure St (ι β Δ : Type) where
  buf : β → Buf Δ
  /-- `idequeue`, and the fields `qnext` -/
  queue : Links β
  havedisk1 : Bool
  disk : Disk Δ
  /-- who is in `iderw` with a buffer, and the number of the call -/
  inside : β → Option (ι × ℕ)
  failed : Option Fail
  appended : List (Request ι β Δ)
  started : List β
  returned : List (Return ι β Δ)

inductive Op (ι β Δ : Type) where
  | own (b : β) (x : Buf Δ)
  | call (p : ι) (b : β)
  | go (b : β)
  | intr
  | complete

/-- `idestart`; `idewait` waits for a disk without a command -/
def idestart (s : St ι β Δ) : Option β → Except Fail (St ι β Δ)
  | none => .error (.panic "idestart")
  | some b =>
    if s.disk.command.isSome then .error .spins
    else .ok { s with disk := { s.disk with command := some (s.buf b).command }, started := s.started ++ [b] }

variable [DecidableEq β]

/-- `ideintr` with a first buffer, up to the next command -/
def finish (s : St ι β Δ) (b : β) : St ι β Δ :=
  let s := { s with queue := { s.queue with head := s.queue.next b } }
  let x := s.buf b
  let x := if x.dirty then x else { x with data := s.disk.port }
  { s with buf := update s.buf b { x with valid := true, dirty := false } }

/-- `ideintr` -/
def ideintr (s : St ι β Δ) : Except Fail (St ι β Δ) :=
  let s := { s with disk := { s.disk with interrupt := false } }
  match s.queue.head with
  | none => .ok s
  | some b =>
    let s := finish s b
    if s.queue.head ≠ none then idestart s s.queue.head else .ok s

/-- `iderw` up to its loop -/
def iderw (s : St ι β Δ) (p : ι) (b : β) : Except Fail (St ι β Δ) :=
  let x := s.buf b
  if x.busy = false then .error (.panic "iderw: buf not busy")
  else if x.valid = true ∧ x.dirty = false then .error (.panic "iderw: nothing to do")
  else if x.dev ≠ 0 ∧ s.havedisk1 = false then .error (.panic "iderw: ide disk 1 not present")
  else
    let queue := { s.queue with next := update s.queue.next b none }
    -- the queue is no longer than the calls there were
    match queue.last (s.appended.length + 1) none with
    | none => .error .spins
    | some pp =>
      let s := { s with queue := queue.set (some b) pp,
                        inside := update s.inside b (some (p, s.appended.length)),
                        appended := s.appended ++ [⟨p, b, x⟩] }
      if s.queue.head = some b then idestart s (some b) else .ok s

/-- the loop condition of `iderw`, and its return -/
def iderwLoop (s : St ι β Δ) (b : β) (p : ι) (call : ℕ) : St ι β Δ :=
  if (s.buf b).valid = true ∧ (s.buf b).dirty = false then
    { s with inside := update s.inside b none,
             returned := s.returned ++ [⟨p, b, call, s.buf b, s.disk.transfers.length⟩] }
  else s

/-- what a party reached; after a panic nothing happens -/
def St.after (s : St ι β Δ) : Except Fail (St ι β Δ) → St ι β Δ
  | .ok s' => s'
  | .error e => { s with failed := some e }

def step (s : St ι β Δ) (o : Op ι β Δ) : St ι β Δ :=
  if s.failed ≠ none then s
  else match o with
    | .own b x => if s.inside b = none then { s with buf := update s.buf b x } else s
    -- nobody else is in a call with the buffer
    | .call p b => if s.inside b = none then s.after (iderw s p b) else s
    | .go b =>
      match s.inside b with
      | none => s
      | some (p, call) => iderwLoop s b p call
    | .intr => if s.disk.interrupt = true ∨ s.queue.head = none then s.after (ideintr s) else s
    | .complete => { s with disk := s.disk.complete }

/-- nobody in a call, no command: what the buffers, their links and the disk hold is arbitrary -/
def init (buf : β → Buf Δ) (qnext : β → Option β) (havedisk1 : Bool) (sectors : Bool × BitVec 28 → Δ) (port : Δ) :
    St ι β Δ where
  buf := buf
  queue := ⟨none, qnext⟩
  havedisk1 := havedisk1
  disk := ⟨sectors, none, port, false, []⟩
  inside := fun _ => none
  failed := none
  appended := []
  started := []
  returned := []

end Model

/-! ## Which sector -/

section Sector

variable {Δ : Type} (x : Buf Δ)

theorem registers_sector : x.registers.sector = x.sector.setWidth 28 := by
  apply BitVec.eq_of_getLsbD_eq
  intro i hi
  simp only [Registers.sector, Buf.registers, BitVec.getLsbD_append, BitVec.getLsbD_setWidth, BitVec.getLsbD_and,
    BitVec.getLsbD_or, BitVec.getLsbD_ushiftRight, BitVec.getLsbD_shiftLeft]
  interval_cases i <;> simp

theorem registers_drive : x.registers.drive = x.dev.getLsbD 0 := by
  simp [Registers.drive, Buf.registers]

/-- the command is for the sector that the buffer names -/
def Command.IsFor (c : Command Δ) (x : Buf Δ) : Prop :=
  c.sector.toNat = x.sector.toNat ∧ c.drive.toNat = x.dev.toNat

/-- **Which sector the registers name**: the buffer's own iff its number has 28 bits and its device is 0 or 1. -/
theorem sector_registers : x.command.IsFor x ↔ x.sector.toNat < 2 ^ 28 ∧ x.dev.toNat < 2 := by
  have hsector : x.command.sector.toNat = x.sector.toNat % 2 ^ 28 := by
    change x.registers.sector.toNat = _
    rw [registers_sector, BitVec.toNat_setWidth]
  have hdrive : x.command.drive.toNat = x.dev.toNat % 2 := by
    change x.registers.drive.toNat = _
    rw [registers_drive, BitVec.getLsbD, Nat.testBit_zero]
    rcases Nat.mod_two_eq_zero_or_one x.dev.toNat with h | h <;> simp [h]
  unfold Command.IsFor
  rw [hsector, hdrive]
  omega

end Sector

/-! ## How far it is -/

section Invariant

variable {ι β Δ : Type} {s : St ι β Δ} {k : ℕ}

/-- a return of a call whose transfer was made before: for its buffer's registers, with the data of the buffer written or
those of the buffer read -/
structure Served (appended : List (Request ι β Δ)) (transfers : List (Transfer Δ)) (x : Return ι β Δ)
    (r : Request ι β Δ) (t : Transfer Δ) : Prop where
  call : appended[x.call]? = some r
  p : r.p = x.p
  b : r.b = x.b
  transfer : transfers[x.call]? = some t
  before : x.call < x.transfers
  made : x.transfers ≤ transfers.length
  command : t.command = r.buf.command
  written : r.buf.dirty = true → t.data = r.buf.data
  data : x.buf.data = t.data
  valid : x.buf.valid = true
  clean : x.buf.dirty = false

theorem get_of_extends {α : Type} {l l' : List α} (h : l <+: l') {j : ℕ} {a : α} (ha : l[j]? = some a) : l'[j]? = some a := by
  obtain ⟨rest, rfl⟩ := h
  rw [List.getElem?_append_left (List.getElem?_eq_some_iff.1 ha).1]
  exact ha

/-- it stays so when the histories grow -/
theorem Served.later {appended appended' : List (Request ι β Δ)} {transfers transfers' : List (Transfer Δ)}
    {x : Return ι β Δ} {r : Request ι β Δ} {t : Transfer Δ} (h : Served appended transfers x r t)
    (happended : appended <+: appended') (htransfers : transfers <+: transfers') : Served appended' transfers' x r t :=
  { h with
    call := get_of_extends happended h.call
    transfer := get_of_extends htransfers h.transfer
    made := h.made.trans htransfers.length_le }

/-- what the histories say whatever the queue is -/
structure Past (s : St ι β Δ) : Prop where
  transferred : ∀ (j : ℕ) (t : Transfer Δ), s.disk.transfers[j]? = some t →
    ∃ r, s.appended[j]? = some r ∧ t.command = r.buf.command ∧ (r.buf.dirty = true → t.data = r.buf.data)
  /-- a call was for something to do -/
  work : ∀ r ∈ s.appended, ¬ (r.buf.valid = true ∧ r.buf.dirty = false)
  returned : ∀ x ∈ s.returned, ∃ r t, Served s.appended s.disk.transfers x r t

/-- the queue is at call `k`: the calls before it were served, and it and the later ones wait -/
structure Queued (s : St ι β Δ) (k : ℕ) : Prop extends Past s where
  le : k ≤ s.appended.length
  queue : Spells s.queue.next s.queue.head ((s.appended.drop k).map Request.b)
  waiting : ∀ (j : ℕ) (r : Request ι β Δ), k ≤ j → s.appended[j]? = some r →
    s.inside r.b = some (r.p, j) ∧ s.buf r.b = r.buf
  inside : ∀ b p j, s.inside b = some (p, j) → ∃ r, s.appended[j]? = some r ∧ r.p = p ∧ r.b = b
  served : ∀ b p j, s.inside b = some (p, j) → j < k → (s.buf b).valid = true ∧ (s.buf b).dirty = false ∧
    ∃ t, s.disk.transfers[j]? = some t ∧ (s.buf b).data = t.data

/-- the disk has a command for the first buffer of the queue, or has carried it out -/
structure At (s : St ι β Δ) (k : ℕ) : Prop extends Queued s k where
  started : s.started = (s.appended.take (k + 1)).map Request.b
  disk : (s.disk.transfers.length = k ∧ s.disk.interrupt = false ∧
      s.disk.command = s.appended[k]?.map fun r => r.buf.command) ∨
    (s.disk.transfers.length = k + 1 ∧ s.disk.interrupt = true ∧ s.disk.command = none ∧ k < s.appended.length)
  port : ∀ t, s.disk.transfers[k]? = some t → t.command.out = none → s.disk.port = t.data

/-- the disk is still to be started on the first buffer -/
structure Idle (s : St ι β Δ) (k : ℕ) : Prop extends Queued s k where
  started : s.started = (s.appended.take k).map Request.b
  transfers : s.disk.transfers.length = k
  interrupt : s.disk.interrupt = false
  command : s.disk.command = none

/-- a command is carried out: what is moved -/
theorem Disk.complete_some {d : Disk Δ} {c : Command Δ} (hc : d.command = some c) :
    ∃ x, d.complete.transfers = d.transfers ++ [⟨c, x⟩] ∧ d.complete.interrupt = true ∧ d.complete.command = none ∧
      (c.out = none → d.complete.port = x) ∧ ∀ y, c.out = some y → x = y := by
  unfold Disk.complete
  cases hout : c.out with
  | none =>
    simp only [hc, hout]
    exact ⟨_, rfl, trivial, trivial, fun _ => rfl, nofun⟩
  | some y =>
    simp only [hc, hout]
    exact ⟨y, rfl, trivial, trivial, nofun, fun _ e => Option.some.inj e⟩

/-- **The disk is started on the first buffer**, if there is one. -/
theorem Idle.start (h : Idle s k) :
    ∃ s', (if s.queue.head ≠ none then idestart s s.queue.head else .ok s) = .ok s' ∧ s'.failed = s.failed ∧ At s' k := by
  have hport : s.disk.transfers[k]? = none := List.getElem?_eq_none h.transfers.le
  have hqueue := h.queue
  cases hr : s.appended[k]? with
  | none =>
    have hall : s.appended.length ≤ k := List.getElem?_eq_none_iff.1 hr
    have hhead : s.queue.head = none := by
      rw [List.drop_eq_nil_of_le hall] at hqueue
      exact hqueue
    rw [if_neg (by simp [hhead])]
    refine ⟨s, rfl, rfl, { h with started := ?_, disk := .inl ⟨h.transfers, h.interrupt, ?_⟩, port := ?_ }⟩
    · rw [h.started, List.take_of_length_le hall, List.take_of_length_le (Nat.le_succ_of_le hall)]
    · rw [h.command, hr]
      rfl
    · intro t ht
      exact nomatch hport.symm.trans ht
  | some r =>
    obtain ⟨hlt, hget⟩ := List.getElem?_eq_some_iff.1 hr
    have hhead : s.queue.head = some r.b := by
      rw [List.drop_eq_getElem_cons hlt, List.map_cons] at hqueue
      rw [hqueue.1, hget]
    rw [if_pos (by simp [hhead]), hhead, idestart, if_neg (by simp [h.command])]
    refine ⟨_, rfl, rfl, { h with started := ?_, disk := .inl ⟨h.transfers, h.interrupt, ?_⟩, port := ?_ }⟩
    · change s.started ++ [r.b] = _
      rw [h.started, List.take_add_one, hr, List.map_append]
      rfl
    · change some (s.buf r.b).command = _
      rw [hr, (h.waiting k r le_rfl hr).2]
      rfl
    · intro t ht
      exact nomatch hport.symm.trans ht

theorem At.complete (h : At s k) : At { s with disk := s.disk.complete } k := by
  cases hc : s.disk.command with
  | none =>
    have hsame : s.disk.complete = s.disk := by
      unfold Disk.complete
      rw [hc]
    rw [hsame]
    exact h
  | some c =>
    rcases h.disk with ⟨hlength, hintr, hcommand⟩ | ⟨-, -, hnone, -⟩
    case inr => exact nomatch hnone.symm.trans hc
    rw [hc] at hcommand
    obtain ⟨r, hr, rfl⟩ := Option.map_eq_some_iff.1 hcommand.symm
    have hlt : k < s.appended.length := (List.getElem?_eq_some_iff.1 hr).1
    obtain ⟨x, hx, hintr', hnone, hin, hout⟩ := Disk.complete_some hc
    have hext : s.disk.transfers <+: s.disk.complete.transfers := hx ▸ List.prefix_append _ _
    refine { h with transferred := ?_, returned := ?_, served := ?_, disk := .inr ⟨?_, hintr', hnone, hlt⟩, port := ?_ }
    · intro j t ht
      change s.disk.complete.transfers[j]? = some t at ht
      rw [hx, List.getElem?_append] at ht
      split at ht
      · exact h.transferred j t ht
      · have hmem := List.mem_of_getElem? ht
        have hj : j - s.disk.transfers.length < 1 := (List.getElem?_eq_some_iff.1 ht).1
        obtain rfl : j = k := by omega
        obtain rfl := List.mem_singleton.1 hmem
        refine ⟨r, hr, rfl, fun hd => hout _ ?_⟩
        simp [Buf.command, hd]
    · intro y hy
      obtain ⟨q, t, hs⟩ := h.returned y hy
      exact ⟨q, t, hs.later List.prefix_rfl hext⟩
    · intro b p j hb hj
      obtain ⟨hv, hd, t, ht, hdata⟩ := h.served b p j hb hj
      exact ⟨hv, hd, t, get_of_extends hext ht, hdata⟩
    · change s.disk.complete.transfers.length = k + 1
      rw [hx, List.length_append, hlength]
      rfl
    · intro t ht hread
      change s.disk.complete.transfers[k]? = some t at ht
      rw [hx, ← hlength, List.getElem?_concat_length] at ht
      cases ht
      exact hin hread

variable [DecidableEq β]

omit [DecidableEq β] in
theorem init_at (buf : β → Buf Δ) (qnext : β → Option β) (havedisk1 : Bool) (sectors : Bool × BitVec 28 → Δ) (port : Δ) :
    At (init buf qnext havedisk1 sectors port : St ι β Δ) 0 where
  transferred := nofun
  work := nofun
  returned := nofun
  le := le_rfl
  queue := rfl
  started := rfl
  disk := .inl ⟨rfl, rfl, rfl⟩
  port := nofun
  waiting := nofun
  inside := nofun
  served := nofun

theorem At.own (h : At s k) {b : β} (hb : s.inside b = none) (x : Buf Δ) :
    At { s with buf := update s.buf b x } k := by
  have hother : ∀ {c : β} {y : ι × ℕ}, s.inside c = some y → update s.buf b x c = s.buf c := by
    intro c y hc
    apply update_of_ne
    rintro rfl
    exact nomatch hb.symm.trans hc
  refine { h with waiting := ?_, served := ?_ }
  · intro j r hj hr
    obtain ⟨hin, hbuf⟩ := h.waiting j r hj hr
    exact ⟨hin, (hother hin).trans hbuf⟩
  · intro c p j hc hj
    simp only [hother hc]
    exact h.served c p j hc hj

theorem At.go (h : At s k) {b : β} {p : ι} {j : ℕ} (hb : s.inside b = some (p, j)) : At (iderwLoop s b p j) k := by
  unfold iderwLoop
  split
  case isFalse => exact h
  case isTrue hdone =>
    obtain ⟨r, hr, hp, hrb⟩ := h.inside b p j hb
    have hwork := h.work r (List.mem_of_getElem? hr)
    -- a call that is waiting has work to do
    have hj : j < k := by
      by_contra hj
      have hbuf := (h.waiting j r (Nat.le_of_not_lt hj) hr).2
      rw [hrb] at hbuf
      rw [hbuf] at hdone
      exact hwork hdone
    obtain ⟨-, -, t, ht, hdata⟩ := h.served b p j hb hj
    obtain ⟨r', hr', hcommand, hwritten⟩ := h.transferred j t ht
    obtain rfl : r = r' := Option.some.inj (hr.symm.trans hr')
    have hother : ∀ {c : β} {y : ι × ℕ}, update s.inside b none c = some y → s.inside c = some y := by
      intro c y hc
      rw [update_apply] at hc
      split at hc
      · cases hc
      · exact hc
    refine { h with returned := ?_, waiting := ?_, inside := ?_, served := ?_ }
    · intro x hx
      rcases List.mem_append.1 hx with hx | hx
      · exact h.returned x hx
      · rw [List.mem_singleton.1 hx]
        have hlt : j < s.disk.transfers.length := (List.getElem?_eq_some_iff.1 ht).1
        exact ⟨r, t, hr, hp, hrb, ht, hlt, le_rfl, hcommand, hwritten, hdata, hdone.1, hdone.2⟩
    · intro i q hi hq
      obtain ⟨hin, hbuf⟩ := h.waiting i q hi hq
      refine ⟨?_, hbuf⟩
      rw [← hin]
      apply update_of_ne
      rintro hqb
      rw [hqb, hb] at hin
      cases hin
      omega
    · exact fun c q i hc => h.inside c q i (hother hc)
    · exact fun c q i hc => h.served c q i (hother hc)

theorem At.ideintr (h : At s k) (hintr : s.disk.interrupt = true ∨ s.queue.head = none) :
    ∃ s', ideintr s = .ok s' ∧ s'.failed = s.failed ∧ ∃ k', At s' k' := by
  rcases h.disk with ⟨hlength, hoff, hcommand⟩ | ⟨hlength, hon, hnone, hlt⟩
  case inl =>
    have hhead : s.queue.head = none := by
      rcases hintr with hintr | hhead
      · exact nomatch hoff.symm.trans hintr
      · exact hhead
    have hsame : ({ s with disk := { s.disk with interrupt := false } } : St ι β Δ) = s := by rw [← hoff]
    refine ⟨s, ?_, rfl, k, h⟩
    unfold Ide.ideintr
    rw [hsame]
    simp only [hhead]
  case inr =>
    obtain ⟨r, hr⟩ : ∃ r, s.appended[k]? = some r := ⟨_, List.getElem?_eq_getElem hlt⟩
    obtain ⟨t, ht⟩ : ∃ t, s.disk.transfers[k]? = some t := ⟨_, List.getElem?_eq_getElem (by omega)⟩
    obtain ⟨hin, hbuf⟩ := h.waiting k r le_rfl hr
    obtain ⟨r', hr', hcommand, hwritten⟩ := h.transferred k t ht
    obtain rfl : r = r' := Option.some.inj (hr.symm.trans hr')
    have hqueue := h.queue
    rw [List.drop_eq_getElem_cons hlt, (List.getElem?_eq_some_iff.1 hr).2, List.map_cons] at hqueue
    -- the data of the buffer are those of the transfer
    have hdata : (if (s.buf r.b).dirty then s.buf r.b else { s.buf r.b with data := s.disk.port }).data = t.data := by
      rw [hbuf]
      cases hd : r.buf.dirty with
      | true => exact (hwritten hd).symm
      | false =>
        refine h.port t ht ?_
        rw [hcommand]
        simp [Buf.command, hd]
    have hidle : Idle (finish { s with disk := { s.disk with interrupt := false } } r.b) (k + 1) := by
      refine { h with
        le := hlt
        queue := hqueue.2
        started := h.started
        transfers := hlength
        interrupt := rfl
        command := hnone
        waiting := ?_
        served := ?_ }
      · intro j q hj hq
        obtain ⟨hjn, hjb⟩ := h.waiting j q (Nat.le_of_succ_le hj) hq
        refine ⟨hjn, (update_of_ne ?_ ..).trans hjb⟩
        intro e
        rw [e, hin] at hjn
        have hkj : k = j := congrArg Prod.snd (Option.some.inj hjn)
        omega
      · intro b p j hb hj
        simp only [finish]
        by_cases hbr : b = r.b
        · subst hbr
          obtain rfl : k = j := congrArg Prod.snd (Option.some.inj (hin.symm.trans hb))
          simp only [update_self]
          exact ⟨trivial, trivial, t, ht, hdata⟩
        · simp only [update_of_ne hbr]
          refine h.served b p j hb (lt_of_le_of_ne (Nat.le_of_lt_succ hj) ?_)
          rintro rfl
          obtain ⟨q, hq, -, hqb⟩ := h.inside b p j hb
          obtain rfl : r = q := Option.some.inj (hr.symm.trans hq)
          exact hbr hqb.symm
    obtain ⟨s', hs', hfailed, hat⟩ := hidle.start
    refine ⟨s', ?_, hfailed, k + 1, hat⟩
    unfold Ide.ideintr
    simp only [hqueue.1]
    exact hs'

omit [DecidableEq β] in
/-- a buffer that nobody is in a call with is not in the queue -/
theorem Queued.not_queued (h : Queued s k) {b : β} (hb : s.inside b = none) : b ∉ (s.appended.drop k).map Request.b := by
  intro hmem
  obtain ⟨r, hr, rfl⟩ := List.mem_map.1 hmem
  obtain ⟨i, hi⟩ := List.mem_iff_getElem?.1 hr
  rw [List.getElem?_drop] at hi
  exact nomatch hb.symm.trans (h.waiting (k + i) r (Nat.le_add_right k i) hi).1

/-- its own link is no part of the queue -/
theorem Queued.queue_fresh (h : Queued s k) {b : β} (hb : s.inside b = none) :
    Spells (update s.queue.next b none) s.queue.head ((s.appended.drop k).map Request.b) := by
  refine h.queue.congr fun a ha => update_of_ne ?_ ..
  rintro rfl
  exact h.not_queued hb ha

/-- the state after the append of `iderw` -/
def append (s : St ι β Δ) (p : ι) (b : β) (pp : Option β) : St ι β Δ :=
  { s with queue := Links.set { s.queue with next := update s.queue.next b none } (some b) pp,
           inside := update s.inside b (some (p, s.appended.length)),
           appended := s.appended ++ [⟨p, b, s.buf b⟩] }

theorem Queued.append (h : Queued s k) {p : ι} {b : β} (hb : s.inside b = none)
    (hwork : ¬ ((s.buf b).valid = true ∧ (s.buf b).dirty = false)) :
    Queued (append s p b (Links.endOf none ((s.appended.drop k).map Request.b))) k := by
  have hnew := h.not_queued hb
  have hends : s.appended <+: s.appended ++ [⟨p, b, s.buf b⟩] := List.prefix_append _ _
  have hqueue := h.queue_fresh hb
  have hother : ∀ {c : β} {y : ι × ℕ}, s.inside c = some y →
      update s.inside b (some (p, s.appended.length)) c = some y := by
    intro c y hc
    rw [update_of_ne _ _ _]
    · exact hc
    · rintro rfl
      exact nomatch hb.symm.trans hc
  -- who is inside is the new call or an old one
  have hcases : ∀ {c : β} {q : ι} {j : ℕ}, update s.inside b (some (p, s.appended.length)) c = some (q, j) →
      (c = b ∧ q = p ∧ j = s.appended.length) ∨ s.inside c = some (q, j) := by
    intro c q j hc
    rw [update_apply] at hc
    split at hc
    case isTrue hcb =>
      cases hc
      exact .inl ⟨hcb, rfl, rfl⟩
    case isFalse => exact .inr hc
  have hlast : (s.appended ++ [⟨p, b, s.buf b⟩])[s.appended.length]? = some ⟨p, b, s.buf b⟩ := List.getElem?_concat_length
  constructor
  case toPast =>
    constructor
    · intro j t ht
      obtain ⟨r, hr, hrest⟩ := h.transferred j t ht
      exact ⟨r, get_of_extends hends hr, hrest⟩
    · intro r hr
      rcases List.mem_append.1 hr with hr | hr
      · exact h.work r hr
      · rw [List.mem_singleton.1 hr]
        exact hwork
    · intro x hx
      obtain ⟨r, t, hs⟩ := h.returned x hx
      exact ⟨r, t, hs.later hends List.prefix_rfl⟩
  case le => exact h.le.trans hends.length_le
  case queue =>
    change Spells _ _ (((s.appended ++ [Request.mk p b (s.buf b)]).drop k).map Request.b)
    rw [List.drop_append_of_le_length h.le, List.map_append]
    exact Spells.push (s := { s.queue with next := update s.queue.next b none }) hqueue hnew
      (update_self ..)
  case waiting =>
    intro j r hj hr
    change (s.appended ++ [_])[j]? = some r at hr
    rw [List.getElem?_append] at hr
    split at hr
    · obtain ⟨hin, hbuf⟩ := h.waiting j r hj hr
      exact ⟨hother hin, hbuf⟩
    · have hmem := List.mem_singleton.1 (List.mem_of_getElem? hr)
      have hlt : j - s.appended.length < 1 := (List.getElem?_eq_some_iff.1 hr).1
      obtain rfl : j = s.appended.length := by omega
      subst hmem
      exact ⟨update_self .., rfl⟩
  case inside =>
    intro c q j hc
    rcases hcases hc with ⟨rfl, rfl, rfl⟩ | hc
    · exact ⟨_, hlast, rfl, rfl⟩
    · obtain ⟨r, hr, hrest⟩ := h.inside c q j hc
      exact ⟨r, get_of_extends hends hr, hrest⟩
  case served =>
    intro c q j hc hj
    rcases hcases hc with ⟨-, -, rfl⟩ | hc
    · exact absurd hj (Nat.not_lt.2 h.le)
    · exact h.served c q j hc hj

/-- `iderw` panics at its own checks, or appends -/
theorem At.iderw (h : At s k) {p : ι} {b : β} (hb : s.inside b = none) :
    (∃ m, iderw s p b = .error (.panic m) ∧ m ≠ "idestart") ∨
      ∃ s', iderw s p b = .ok s' ∧ s'.failed = s.failed ∧ At s' k := by
  unfold Ide.iderw
  simp only
  split
  · exact .inl ⟨_, rfl, by decide⟩
  split
  · exact .inl ⟨_, rfl, by decide⟩
  split
  · exact .inl ⟨_, rfl, by decide⟩
  rename_i _ hwork _
  right
  have hqueue := h.queue_fresh hb
  have hlen : ((s.appended.drop k).map Request.b).length < s.appended.length + 1 := by
    rw [List.length_map, List.length_drop]
    omega
  have hlast : Links.last { s.queue with next := update s.queue.next b none } (s.appended.length + 1) none = _ :=
    Spells.last hqueue hlen
  have hhead := Spells.push_head (s := { s.queue with next := update s.queue.next b none }) hqueue b
  have hqueued := h.toQueued.append (p := p) hb hwork
  have hends : s.appended <+: s.appended ++ [⟨p, b, s.buf b⟩] := List.prefix_append _ _
  simp only [hlast]
  change ∃ s', (if (append s p b _).queue.head = some b then idestart (append s p b _) (some b) else _) = _ ∧ _
  by_cases hempty : (s.appended.drop k).map Request.b = []
  · -- the queue was empty, and so the disk is idle
    have hall : k = s.appended.length := by
      have := List.drop_eq_nil_iff.1 (List.map_eq_nil_iff.1 hempty)
      exact le_antisymm h.le this
    rw [if_pos hempty] at hhead
    have hhead' : (append s p b (Links.endOf none ((s.appended.drop k).map Request.b))).queue.head = some b := hhead
    have hidle : Idle (append s p b (Links.endOf none ((s.appended.drop k).map Request.b))) k := by
      rcases h.disk with ⟨hlength, hoff, hcommand⟩ | ⟨-, -, -, hlt⟩
      case inr => omega
      refine { hqueued with started := ?_, transfers := hlength, interrupt := hoff, command := ?_ }
      · change s.started = ((s.appended ++ [_]).take k).map Request.b
        rw [h.started, hall, List.take_left', List.take_of_length_le (Nat.le_succ _)]
        rfl
      · rw [hall, List.getElem?_eq_none le_rfl] at hcommand
        exact hcommand
    obtain ⟨s', hs', hfailed, hat⟩ := hidle.start
    rw [if_pos (by rw [hhead']; exact nofun), hhead'] at hs'
    refine ⟨s', ?_, hfailed, hat⟩
    rw [if_pos hhead']
    exact hs'
  · -- the disk goes on with the first buffer
    have hlt : k < s.appended.length := by
      by_contra hge
      exact hempty (by rw [List.drop_eq_nil_of_le (Nat.le_of_not_lt hge), List.map_nil])
    rw [if_neg hempty] at hhead
    have hother : s.queue.head ≠ some b := by
      intro e
      have hnew := h.not_queued hb
      have hfirst := h.queue
      rw [List.drop_eq_getElem_cons hlt, List.map_cons] at hfirst
      rw [List.drop_eq_getElem_cons hlt, List.map_cons] at hnew
      exact hnew (Option.some.inj (hfirst.1.symm.trans e) ▸ List.mem_cons_self)
    have hhead' : (append s p b (Links.endOf none ((s.appended.drop k).map Request.b))).queue.head = s.queue.head := hhead
    rw [if_neg (by rw [hhead']; exact hother)]
    refine ⟨_, rfl, rfl, { hqueued with started := ?_, disk := ?_, port := h.port }⟩
    · change s.started = ((s.appended ++ [_]).take (k + 1)).map Request.b
      rw [h.started, List.take_append_of_le_length hlt]
    · rcases h.disk with ⟨hlength, hoff, hcommand⟩ | ⟨hlength, hon, hnone, hlt⟩
      · refine .inl ⟨hlength, hoff, hcommand.trans ?_⟩
        change _ = (s.appended ++ [_])[k]?.map _
        rw [List.getElem?_append_left hlt]
      · exact .inr ⟨hlength, hon, hnone, Nat.lt_of_lt_of_le hlt hends.length_le⟩

/-- what stopped the machine, if anything did, is a check at the start of `iderw` -/
def Checks (s : St ι β Δ) : Prop := ∀ e, s.failed = some e → ∃ m, e = .panic m ∧ m ≠ "idestart"

omit [DecidableEq β] in
theorem At.fail (h : At s k) (e : Fail) : At { s with failed := some e } k := { h with }

theorem step_at (h : ∃ k, At s k) (hchecks : Checks s) (o : Op ι β Δ) : (∃ k, At (step s o) k) ∧ Checks (step s o) := by
  unfold step
  split
  case isTrue => exact ⟨h, hchecks⟩
  case isFalse hrunning =>
    have hnone : s.failed = none := not_ne_iff.1 hrunning
    have hok : ∀ {s' : St ι β Δ}, s'.failed = s.failed → Checks s' := by
      intro s' hs' e he
      rw [hs', hnone] at he
      cases he
    obtain ⟨k, hat⟩ := h
    cases o with
    | own b x =>
      simp only
      split
      · exact ⟨⟨k, hat.own ‹_› x⟩, hok rfl⟩
      · exact ⟨⟨k, hat⟩, hchecks⟩
    | call p b =>
      simp only
      split
      case isTrue hb =>
        rcases hat.iderw (p := p) hb with ⟨m, hm, hmessage⟩ | ⟨s', hs', hfailed, hat'⟩
        · rw [hm]
          refine ⟨⟨k, hat.fail _⟩, ?_⟩
          intro e he
          exact ⟨m, (Option.some.inj he).symm, hmessage⟩
        · rw [hs']
          exact ⟨⟨k, hat'⟩, hok hfailed⟩
      case isFalse => exact ⟨⟨k, hat⟩, hchecks⟩
    | go b =>
      cases hb : s.inside b with
      | none =>
        simp only [hb]
        exact ⟨⟨k, hat⟩, hchecks⟩
      | some x =>
        simp only [hb]
        refine ⟨⟨k, hat.go hb⟩, hok ?_⟩
        unfold iderwLoop
        split <;> rfl
    | intr =>
      simp only
      split
      case isTrue hintr =>
        obtain ⟨s', hs', hfailed, hat'⟩ := hat.ideintr hintr
        rw [hs']
        exact ⟨hat', hok hfailed⟩
      case isFalse => exact ⟨⟨k, hat⟩, hchecks⟩
    | complete => exact ⟨⟨k, hat.complete⟩, hok rfl⟩

end Invariant

/-! ## Results -/

section Results

variable {ι β Δ : Type} [DecidableEq β]

/-- **Requests are served once and in order.** In every run: the queue is a list without repetition; commands are started
in the order in which the buffers were appended, and carried out in that order; every return is of a call whose transfer had
been made, in the direction of the call, with the buffer valid and clean and its data those that were moved, and the
transfer is for the buffer's own sector iff that is one that the registers can name. Nothing but the checks of `iderw`
panics or loops. -/
theorem requests_served_in_order (buf : β → Buf Δ) (qnext : β → Option β) (havedisk1 : Bool)
    (sectors : Bool × BitVec 28 → Δ) (port : Δ) (ops : List (Op ι β Δ)) :
    let s := run step (init buf qnext havedisk1 sectors port) ops
    (∃ q, Spells s.queue.next s.queue.head q ∧ q.Nodup) ∧
    s.started <+: s.appended.map Request.b ∧
    s.disk.transfers.map Transfer.command <+: s.appended.map (fun r => r.buf.command) ∧
    (∀ x ∈ s.returned, ∃ r t, Served s.appended s.disk.transfers x r t ∧
      (t.command.out.isSome ↔ r.buf.dirty = true) ∧
      (t.command.IsFor r.buf ↔ r.buf.sector.toNat < 2 ^ 28 ∧ r.buf.dev.toNat < 2)) ∧
    ∀ e, s.failed = some e → ∃ m, e = .panic m ∧ m ≠ "idestart" := by
  intro s
  have hrun : (∃ k, At s k) ∧ Checks s :=
    run_inv (I := fun s => (∃ k, At s k) ∧ Checks s) (fun _ o h => step_at h.1 h.2 o)
      ⟨⟨0, init_at buf qnext havedisk1 sectors port⟩, nofun⟩ ops
  obtain ⟨⟨k, hat⟩, hchecks⟩ := hrun
  refine ⟨⟨_, hat.queue, hat.queue.nodup⟩, ?_, ?_, ?_, hchecks⟩
  · rw [hat.started]
    exact List.IsPrefix.map _ ( List.take_prefix _ _)
  · rw [List.prefix_iff_getElem?]
    intro i hi
    rw [List.length_map] at hi
    obtain ⟨r, hr, hcommand, -⟩ := hat.transferred i _ (List.getElem?_eq_getElem hi)
    rw [List.getElem?_map, hr, List.getElem_map, hcommand]
    rfl
  · intro x hx
    obtain ⟨r, t, hserved⟩ := hat.returned x hx
    refine ⟨r, t, hserved, ?_, ?_⟩
    · rw [hserved.command]
      cases hd : r.buf.dirty with
      | true => simp [Buf.command, hd]
      | false => simp [Buf.command, hd]
    · rw [hserved.command]
      exact sector_registers r.buf

/-- one read of a sector whose number does not fit: the data are those of sector 0 -/
theorem far_sector :
    let far : Buf ℕ := ⟨true, false, false, 0, BitVec.ofNat 32 (2 ^ 28), 0⟩
    let s := run step (init (fun _ => far) (fun _ => none) false (fun a => a.2.toNat + 7) 0)
      ([.call () (), .complete, .intr, .go ()] : List (Op Unit Unit ℕ))
    s.returned.map (fun x => (x.buf.valid, x.buf.data)) = [(true, 7)] ∧
      s.disk.transfers.map (fun t => t.command.sector) = [0] := by
  decide

end Results

end Xv6Threads.Ide
