/-
The MP configuration table, mp.c.

Memory is a function from 32-bit addresses to bytes, as the kernel sees it: a pointer that runs off the end of the address
space wraps. The search for the table and the checks of `mpconfig` are as in the code; `mpinit` is given a number of turns
of its loop and a result `spins` if they are not enough, and `outside` when it stores to `cpus` behind its end.

The defect. The loop of `mpinit` does not look at the number of processors, and an entry of a type that it does not know
sends it round with the pointer where it was.
- `Table`: the entries from an address on, all of a known type.
- `mpinitLoop_of_table`, `table_of_mpinitLoop`: the loop ends inside `cpus` iff it finds such entries and few processors.
- `mpinit_ends_iff`: so for every table that `mpconfig` accepts.
-/
import Xv6Threads.Core.Outcome

namespace Xv6Threads.Mp

open Xv6Threads.Core

abbrev Addr := BitVec 32
abbrev Byte := BitVec 8
abbrev Memory := Addr → Byte

def NCPU : ℕ := 8
def KERNBASE : Addr := 0x80000000
def MPBOOT : Byte := 0x02

def p2v (a : Addr) : Addr := a + KERNBASE

/-- a `ushort` and a `uint` in memory -/
def ushort (mem : Memory) (a : Addr) : BitVec 16 := mem (a + 1) ++ mem a
def uint (mem : Memory) (a : Addr) : Addr := ushort mem (a + 2) ++ ushort mem a

/-! ## The search -/

def bytes (mem : Memory) (addr : Addr) (len : ℕ) : List Byte := (List.range len).map fun i => mem (addr + BitVec.ofNat 32 i)

def sum (mem : Memory) (addr : Addr) (len : ℕ) : Byte := (bytes mem addr len).foldl (· + ·) 0

/-- `sizeof(struct mp)` -/
def MP_SIZE : Addr := 16

/-- `sizeof(struct mpconf)` -/
def MPCONF_SIZE : Addr := 44

/-- the loop of `mpsearch1` -/
def mpsearchLoop (mem : Memory) (e : Addr) : ℕ → Addr → Option Addr
  | 0, _ => none
  | turns + 1, p =>
    if p < e then
      if bytes mem p 4 = [0x5f, 0x4d, 0x50, 0x5f] ∧ sum mem p MP_SIZE.toNat = 0 then some p
      else mpsearchLoop mem e turns (p + MP_SIZE)
    else none

/-- `mpsearch1`: `len` is a multiple of the size, so the loop is at its end after so many turns -/
def mpsearch1 (mem : Memory) (a : Addr) (len : ℕ) : Option Addr :=
  let addr := p2v a
  mpsearchLoop mem (addr + BitVec.ofNat 32 len) (len / MP_SIZE.toNat) addr

def mpsearch (mem : Memory) : Option Addr :=
  let bda := p2v 0x400
  let p : Addr := (ushort mem (bda + 0x0e)).zeroExtend 32 <<< 4
  let found :=
    if p ≠ 0 then mpsearch1 mem p 1024
    else mpsearch1 mem ((ushort mem (bda + 0x13)).zeroExtend 32 * 1024 - 1024) 1024
  found.or (mpsearch1 mem 0xf0000 0x10000)

/-- `conf->length` -/
def confLength (mem : Memory) (conf : Addr) : BitVec 16 := ushort mem (conf + 4)

/-- `mpconfig`: the floating pointer and the table -/
def mpconfig (mem : Memory) : Option (Addr × Addr) := do
  let mp ← mpsearch mem
  if uint mem (mp + 4) = 0 then none
  else
    let conf := p2v (uint mem (mp + 4))
    if bytes mem conf 4 ≠ [0x50, 0x43, 0x4d, 0x50] then none
    else if mem (conf + 6) ≠ 1 ∧ mem (conf + 6) ≠ 4 then none
    else if sum mem conf (confLength mem conf).toNat ≠ 0 then none
    else some (mp, conf)

/-! ## The loop -/

inductive Fault where
  /-- a store to `cpus[i]` with `i >= NCPU` -/
  | outside
  | spins
deriving DecidableEq

/-- the types of entries that the loop knows -/
inductive Kind where
  | proc
  | bus
  | ioapic
  | iointr
  | lintr
deriving DecidableEq

/-- `MPPROC`, `MPBUS`, `MPIOAPIC`, `MPIOINTR` and `MPLINTR` -/
def Kind.ofByte (b : Byte) : Option Kind :=
  if b = 0x00 then some .proc
  else if b = 0x01 then some .bus
  else if b = 0x02 then some .ioapic
  else if b = 0x03 then some .iointr
  else if b = 0x04 then some .lintr
  else none

/-- how far the loop advances -/
def Kind.size : Kind → Addr
  | .proc => 20
  | .bus => 8
  | .ioapic => 8
  | .iointr => 8
  | .lintr => 8

inductive Message where
  /-- `mpinit: ncpu=%d apicid=%d` -/
  | mismatch (ncpu : ℕ) (apicid : Byte)
  /-- `mpinit: unknown config type %x` -/
  | unknown (type : Byte)
deriving DecidableEq

/-- the variables of mp.c, what it printed, and whether external interrupts were masked -/
structure State where
  ids : List ℕ
  bcpu : ℕ
  ismp : Bool
  ncpu : ℕ
  ioapicid : Byte
  lapic : Addr
  imcr : Bool
  log : List Message
deriving DecidableEq

def boot : State := ⟨List.replicate NCPU 0, 0, false, 0, 0, 0, false, []⟩

/-- an entry of a processor, up to the store -/
def noteProc (mem : Memory) (p : Addr) (s : State) : State :=
  let s := if s.ncpu ≠ (mem (p + 1)).toNat then
      { s with ismp := false, log := s.log ++ [.mismatch s.ncpu (mem (p + 1))] }
    else s
  if mem (p + 3) &&& MPBOOT ≠ 0 then { s with bcpu := s.ncpu } else s

def mpinitLoop (mem : Memory) (e : Addr) : ℕ → Addr → State → Except Fault State
  | 0, _, _ => .error .spins
  | turns + 1, p, s =>
    if p < e then
      match Kind.ofByte (mem p) with
      | some .proc =>
        let s := noteProc mem p s
        if s.ncpu < NCPU then
          mpinitLoop mem e turns (p + Kind.proc.size) { s with ids := s.ids.set s.ncpu s.ncpu, ncpu := s.ncpu + 1 }
        else .error .outside
      | some .ioapic => mpinitLoop mem e turns (p + Kind.ioapic.size) { s with ioapicid := mem (p + 1) }
      | some k => mpinitLoop mem e turns (p + k.size) s
      | none => mpinitLoop mem e turns p { s with ismp := false, log := s.log ++ [.unknown (mem p)] }
    else .ok s

/-- where the entries start and where the table ends -/
def entries (conf : Addr) : Addr := conf + MPCONF_SIZE
def confEnd (mem : Memory) (conf : Addr) : Addr := conf + (confLength mem conf).zeroExtend 32

def mpinit (mem : Memory) (turns : ℕ) : Except Fault State :=
  match mpconfig mem with
  | none => .ok boot
  | some (mp, conf) => do
    let s ← mpinitLoop mem (confEnd mem conf) turns (entries conf) { boot with ismp := true, lapic := uint mem (conf + 36) }
    if ¬ s.ismp then return { s with ncpu := 1, lapic := 0, ioapicid := 0 }
    else return { s with imcr := decide (mem (mp + 12) ≠ 0) }

/-! ## Tables -/

/-- the entries from the address `p` on up to the end `e`, by their types -/
inductive Table (mem : Memory) (e : Addr) : Addr → List Kind → Prop where
  | done {p : Addr} : ¬ p < e → Table mem e p []
  | entry {p : Addr} {k : Kind} {ks : List Kind} :
    p < e → Kind.ofByte (mem p) = some k → Table mem e (p + k.size) ks → Table mem e p (k :: ks)

variable {mem : Memory} {e : Addr}

@[simp] theorem ncpu_noteProc (p : Addr) (s : State) : (noteProc mem p s).ncpu = s.ncpu := by
  unfold noteProc
  split
  case isTrue => split <;> rfl
  case isFalse => split <;> rfl

/-- one turn of the loop at an entry of a known type, with room for it -/
theorem mpinitLoop_entry {p : Addr} {k : Kind} {s : State} (hp : p < e) (hk : Kind.ofByte (mem p) = some k)
    (hroom : s.ncpu + [k].count .proc ≤ NCPU) :
    ∃ s' : State, s'.ncpu = s.ncpu + [k].count .proc ∧
      ∀ turns, mpinitLoop mem e (turns + 1) p s = mpinitLoop mem e turns (p + k.size) s' := by
  cases k with
  | proc =>
    have hlt : (noteProc mem p s).ncpu < NCPU := by
      rw [ncpu_noteProc]
      exact hroom
    refine ⟨{ noteProc mem p s with
      ids := (noteProc mem p s).ids.set (noteProc mem p s).ncpu (noteProc mem p s).ncpu
      ncpu := (noteProc mem p s).ncpu + 1 }, ?_, fun turns => ?_⟩
    · change (noteProc mem p s).ncpu + 1 = s.ncpu + 1
      rw [ncpu_noteProc]
    · rw [mpinitLoop, if_pos hp, hk]
      exact if_pos hlt
  | ioapic =>
    refine ⟨{ s with ioapicid := mem (p + 1) }, rfl, fun turns => ?_⟩
    rw [mpinitLoop, if_pos hp, hk]
  | bus =>
    refine ⟨s, rfl, fun turns => ?_⟩
    rw [mpinitLoop, if_pos hp, hk]
  | iointr =>
    refine ⟨s, rfl, fun turns => ?_⟩
    rw [mpinitLoop, if_pos hp, hk]
  | lintr =>
    refine ⟨s, rfl, fun turns => ?_⟩
    rw [mpinitLoop, if_pos hp, hk]

/-- a processor more than there is room for -/
theorem mpinitLoop_crowded {p : Addr} {k : Kind} {s : State} (hp : p < e) (hk : Kind.ofByte (mem p) = some k)
    (hncpu : s.ncpu ≤ NCPU) (hroom : ¬ s.ncpu + [k].count .proc ≤ NCPU) (turns : ℕ) :
    mpinitLoop mem e (turns + 1) p s = .error .outside := by
  cases k with
  | proc =>
    rw [mpinitLoop, if_pos hp, hk]
    refine if_neg ?_
    rw [ncpu_noteProc]
    exact hroom
  | ioapic => exact absurd hncpu hroom
  | bus => exact absurd hncpu hroom
  | iointr => exact absurd hncpu hroom
  | lintr => exact absurd hncpu hroom

/-- the loop stays at an entry that it does not know -/
theorem mpinitLoop_unknown {p : Addr} (hp : p < e) (hk : Kind.ofByte (mem p) = none) (turns : ℕ) (s : State) :
    mpinitLoop mem e turns p s = .error .spins := by
  induction turns generalizing s with
  | zero => rfl
  | succ turns ih =>
    rw [mpinitLoop, if_pos hp, hk]
    exact ih _

theorem mpinitLoop_of_table {p : Addr} {ks : List Kind} (h : Table mem e p ks) {s : State}
    (hroom : s.ncpu + ks.count .proc ≤ NCPU) : ∃ s', mpinitLoop mem e (ks.length + 1) p s = .ok s' := by
  induction h generalizing s with
  | done hp => exact ⟨s, if_neg hp⟩
  | @entry p k ks hp hk _ ih =>
    rw [← List.singleton_append, List.count_append] at hroom
    obtain ⟨s₁, hs₁, hturn⟩ := mpinitLoop_entry hp hk (s := s) (by omega)
    obtain ⟨s', hs'⟩ := ih (s := s₁) (by omega)
    exact ⟨s', (hturn _).trans hs'⟩

theorem table_of_mpinitLoop {p : Addr} {turns : ℕ} {s s' : State} (hok : mpinitLoop mem e turns p s = .ok s')
    (hncpu : s.ncpu ≤ NCPU) : ∃ ks, Table mem e p ks ∧ s.ncpu + ks.count .proc ≤ NCPU := by
  induction turns generalizing p s with
  | zero => cases hok
  | succ turns ih =>
    by_cases hp : p < e
    case neg => exact ⟨[], .done hp, hncpu⟩
    cases hk : Kind.ofByte (mem p) with
    | none => exact absurd (hok.symm.trans (mpinitLoop_unknown hp hk _ s)) nofun
    | some k =>
      by_cases hroom : s.ncpu + [k].count .proc ≤ NCPU
      case neg => exact absurd (hok.symm.trans (mpinitLoop_crowded hp hk hncpu hroom turns)) nofun
      obtain ⟨s₁, hs₁, hturn⟩ := mpinitLoop_entry hp hk hroom
      rw [hturn] at hok
      obtain ⟨ks, htable, hcount⟩ := ih hok (hs₁ ▸ hroom)
      refine ⟨k :: ks, .entry hp hk htable, ?_⟩
      rw [← List.singleton_append, List.count_append]
      omega

theorem mpinit_of_accepted {mp conf : Addr} (h : mpconfig mem = some (mp, conf)) (turns : ℕ) :
    (∃ s, mpinit mem turns = .ok s) ↔ ∃ s, mpinitLoop mem (confEnd mem conf) turns (entries conf)
      { boot with ismp := true, lapic := uint mem (conf + 36) } = .ok s := by
  unfold mpinit
  rw [h]
  simp only
  generalize mpinitLoop mem (confEnd mem conf) turns (entries conf) _ = r
  cases r with
  | error f =>
    constructor
    · intro ⟨s, hs⟩
      cases hs
    · intro ⟨s, hs⟩
      cases hs
  | ok s =>
    refine ⟨fun _ => ⟨s, rfl⟩, fun _ => ?_⟩
    change ∃ s', (if ¬ s.ismp = true then _ else _) = Except.ok s'
    split
    case isTrue => exact ⟨_, rfl⟩
    case isFalse => exact ⟨_, rfl⟩

/-- **The scan of the table ends inside `cpus` iff the table is one.** For every table that `mpconfig` accepts: the loop
ends and stores to no `cpus[i]` with `i >= NCPU` iff its entries, one after the other up to its end, are of known types and
at most `NCPU` of them are processors. -/
theorem mpinit_ends_iff {mp conf : Addr} (h : mpconfig mem = some (mp, conf)) :
    (∃ turns s, mpinit mem turns = .ok s) ↔
      ∃ ks, Table mem (confEnd mem conf) (entries conf) ks ∧ ks.count .proc ≤ NCPU := by
  constructor
  · intro ⟨turns, hs⟩
    obtain ⟨s, hok⟩ := (mpinit_of_accepted h turns).1 hs
    obtain ⟨ks, htable, hcount⟩ := table_of_mpinitLoop hok (Nat.zero_le _)
    exact ⟨ks, htable, by simpa [boot] using hcount⟩
  · intro ⟨ks, htable, hcount⟩
    exact ⟨ks.length + 1, (mpinit_of_accepted h _).2 (mpinitLoop_of_table htable (by simpa [boot] using hcount))⟩

/-! ## Some tables -/

/-- memory with bytes stored at an address -/
def store (mem : Memory) (a : Addr) (bs : List Byte) : Memory := fun x => bs.getD (x - a).toNat (mem x)

/-- a table with its header, the checksum chosen to fit -/
def table (entries : List Byte) : List Byte :=
  let start : List Byte := [0x50, 0x43, 0x4d, 0x50, BitVec.ofNat 8 (44 + entries.length), 0, 4]
  let rest : List Byte := List.replicate 28 0 ++ [0, 0, 0xe0, 0xfe] ++ List.replicate 4 0 ++ entries
  start ++ [- (start ++ rest).foldl (· + ·) 0] ++ rest

/-- a floating pointer in the EBDA, and behind it a table with the entries -/
def withEntries (entries : List Byte) : Memory :=
  store (store (store (fun _ => 0) 0x8000040e [0xc0, 0x9f])
    0x8009fc00 [0x5f, 0x4d, 0x50, 0x5f, 0x10, 0xfc, 0x09, 0x00, 1, 4, 0x8b, 0, 0, 0, 0, 0])
    0x8009fc10 (table entries)

/-- the entry of a processor -/
def procEntry (apicid : Byte) : List Byte := [0, apicid, 0x10, 1] ++ List.replicate 16 0

theorem accepted_one : mpconfig (withEntries (procEntry 0)) = some (0x8009fc00, 0x8009fc10) := by decide +kernel

theorem mpinit_ends_one : mpconfig (withEntries (procEntry 0)) = some (0x8009fc00, 0x8009fc10) ∧
    ∃ turns s, mpinit (withEntries (procEntry 0)) turns = .ok s :=
  ⟨accepted_one, (mpinit_ends_iff accepted_one).2
    ⟨[.proc], .entry (by decide +kernel) (by decide +kernel) (.done (by decide +kernel)), by decide⟩⟩

theorem accepted_unknown : mpconfig (withEntries [5]) = some (0x8009fc00, 0x8009fc10) := by decide +kernel

/-- a table with one entry of type 5, at which the loop stays, and a table with nine processors -/
theorem mpinit_not_ends :
    (mpconfig (withEntries [5]) = some (0x8009fc00, 0x8009fc10) ∧ ∀ turns s, mpinit (withEntries [5]) turns ≠ .ok s) ∧
      mpconfig (withEntries ((List.range 9).flatMap fun i => procEntry (BitVec.ofNat 8 i))) = some (0x8009fc00, 0x8009fc10) ∧
      mpinit (withEntries ((List.range 9).flatMap fun i => procEntry (BitVec.ofNat 8 i))) 9 = .error .outside := by
  refine ⟨⟨accepted_unknown, fun turns s hok => ?_⟩, by decide +kernel, by decide +kernel⟩
  obtain ⟨s', hok'⟩ := (mpinit_of_accepted accepted_unknown turns).1 ⟨s, hok⟩
  exact absurd (hok'.symm.trans (mpinitLoop_unknown (by decide +kernel) (by decide +kernel) turns _)) nofun

end Xv6Threads.Mp
