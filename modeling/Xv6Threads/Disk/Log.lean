/-
The file system log of log.c on a disk that may lose power between any two sector writes.

The disk is a function from sector numbers to blocks of `WORDS` words, so that the header block is what
`struct logheader` lays over it: word 0 is `n`, word `i + 1` is `sector[i]`. One step is one sector write, or a call that
writes nothing; a crash may come before any of them, also inside `recover_from_log`. What the log is for is said apart
from the code: `applyTxns ts d` is the disk on which each transaction of `ts` takes effect at once.

Three fields are history and no step reads them: `base` is the disk at the last completed recovery, `txns` the
transactions begun since (each with its `log_write` calls so far), `returned` how many of them have had their
`commit_trans` return.
- `step_inv`, `reach_inv`: in every state, redoing the log found on the disk gives the home sectors a prefix of the
  transactions would give, a prefix that holds every transaction that returned.
- `recovery_atomic`: so do the home sectors themselves when a recovery completes, and the header then has `n = 0`.
- `recovery_completes`: a recovery that is left alone does complete.
-/
import Xv6Threads.Core.Runs
import Xv6Threads.Core.Redo

namespace Xv6Threads.Disk

open Xv6Threads.Core Function

/-- words of a sector: BSIZE / sizeof(int) -/
def WORDS : ℕ := 128

/-- max data sectors in the on-disk log -/
def LOGSIZE : ℕ := 10

instance neZeroWords : NeZero WORDS := neZero128

/-- the contents of a sector -/
abbrev Block := Fin WORDS → ℕ

/-- the contents of every sector of the log's device -/
abbrev Sectors := ℕ → Block

/-- word `i` of a block -/
def Block.word (b : Block) (i : ℕ) : ℕ := b (Fin.ofNat WORDS i)

/-- one `log_write`: the sector and what the caller left in the buffer -/
abbrev Write := ℕ × Block

/-- the writes of one transaction, in order -/
def applyTxn (t : List Write) (d : Sectors) : Sectors := t.foldl (fun d w => update d w.1 w.2) d

/-- the disk after the transactions, each made at once -/
def applyTxns (ts : List (List Write)) (d : Sectors) : Sectors := ts.foldl (fun d t => applyTxn t d) d

/-- where the code of log.c is: `install` is `commit_trans` after the header write, `recover` is `recover_from_log`
after `read_head`, each about to install slot `tail`; `down` is a machine that has not run `initlog` since its crash -/
inductive Pc where
  | down
  | recover (tail : ℕ)
  | idle
  | trans
  | install (tail : ℕ)
  | panicked
deriving DecidableEq, Repr

structure St where
  disk : Sectors
  /-- the first `log.lh.n` entries of `log.lh.sector`; its length is `log.lh.n` -/
  lh : List ℕ
  pc : Pc
  base : Sectors
  txns : List (List Write)
  returned : ℕ

/-- what happens next: a call of the file system code, the next sector write of the call in progress, or a power cut -/
inductive Op where
  | initlog
  | beginTrans
  | logWrite (sector : ℕ) (data : Block)
  | commitTrans
  | io
  | crash

/-- the sector numbers that `read_head` takes from a header block -/
def readHead (b : Block) : List ℕ := (List.range (b.word 0)).map fun i => b.word (i + 1)

/-- the header block that `write_head` writes over `hb`: the words after `sector[n - 1]` stay -/
def writeHead (lh : List ℕ) (hb : Block) : Block :=
  fun j => if j.val = 0 then lh.length else if j.val ≤ lh.length then lh.getD (j.val - 1) 0 else hb j

/-- the call is the last one of the transactions: it goes to the end of the newest one -/
def addWrite (w : Write) (ts : List (List Write)) : List (List Write) :=
  ts.dropLast ++ [ts.getLastD [] ++ [w]]

section Machine

-- the log area: `log.start` and `log.size`, both from the superblock
variable (start nlog : ℕ)

/-- the contents of the log's slots -/
def slots (d : Sectors) : ℕ → Block := fun i => d (start + i + 1)

/-- outside the log area -/
def Home (x : ℕ) : Prop := x < start ∨ start + nlog ≤ x

instance decidableHome (x : ℕ) : Decidable (Home start nlog x) := instDecidableOr

/-- `write_head` -/
def St.writeHead (s : St) : St :=
  { s with disk := update s.disk start (Disk.writeHead s.lh (s.disk start)) }

/-- one pass of the loop of `install_trans`: the slot goes to its home sector -/
def St.installOne (s : St) (tail : ℕ) : St :=
  { s with disk := update s.disk (s.lh.getD tail 0) (slots start s.disk tail) }

/-- `log_write`. The size is checked before the search, so a full log takes no write at all, not even one it could
absorb; outside a transaction the call panics too. -/
def logWrite (s : St) (sector : ℕ) (data : Block) : St :=
  if s.lh.length ≥ LOGSIZE ∨ s.lh.length + 1 ≥ nlog then { s with pc := .panicked }
  else if s.pc ≠ .trans then { s with pc := .panicked }
  else
    { s with
      disk := update s.disk (start + s.lh.idxOf sector + 1) data
      lh := record s.lh sector
      txns := addWrite (sector, data) s.txns }

/-- `commit_trans` up to its first sector write; with nothing logged it returns at once -/
def commitTrans (s : St) : St :=
  if s.lh.length > 0 then { s.writeHead start with pc := .install 0 }
  else { s with pc := .idle, returned := s.txns.length }

/-- the next sector write of `commit_trans` after the commit: a slot, or the header that erases the log -/
def commitIo (s : St) (tail : ℕ) : St :=
  if tail < s.lh.length then { s.installOne start tail with pc := .install (tail + 1) }
  else { { s with lh := [] }.writeHead start with pc := .idle, returned := s.txns.length }

/-- the next sector write of `recover_from_log`; with the last one a new history begins -/
def recoverIo (s : St) (tail : ℕ) : St :=
  if tail < s.lh.length then { s.installOne start tail with pc := .recover (tail + 1) }
  else
    let t := { s with lh := [] }.writeHead start
    { t with pc := .idle, base := t.disk, txns := [], returned := 0 }

/-- one step; a call that the caller cannot make here (a second `begin_trans` sleeps, for one) changes nothing -/
def step (s : St) : Op → St
  | .crash => { s with lh := [], pc := .down }
  | .initlog => if s.pc = .down then { s with lh := readHead (s.disk start), pc := .recover 0 } else s
  | .beginTrans => if s.pc = .idle then { s with pc := .trans, txns := s.txns ++ [[]] } else s
  | .logWrite sector data =>
    if s.pc = .trans ∨ s.pc = .idle then logWrite start nlog s sector data else s
  | .commitTrans => if s.pc = .trans then commitTrans start s else s
  | .io =>
    match s.pc with
    | .install tail => commitIo start s tail
    | .recover tail => recoverIo start s tail
    | _ => s

end Machine

/-- a machine about to start on the disk `d` -/
def powerOn (d : Sectors) : St := { disk := d, lh := [], pc := .down, base := d, txns := [], returned := 0 }

/-! ## The header block -/

theorem word_writeHead_zero (lh : List ℕ) (hb : Block) : (writeHead lh hb).word 0 = lh.length := rfl

theorem word_writeHead_succ {lh : List ℕ} (hlen : lh.length ≤ LOGSIZE) (hb : Block) {i : ℕ} (hi : i < lh.length) :
    (writeHead lh hb).word (i + 1) = lh.getD i 0 := by
  have hsmall : i + 1 < WORDS := by
    unfold LOGSIZE at hlen
    unfold WORDS
    omega
  have hval : (Fin.ofNat WORDS (i + 1)).val = i + 1 := Nat.mod_eq_of_lt hsmall
  simp only [Block.word, writeHead, hval]
  rw [if_neg (Nat.succ_ne_zero i), if_pos (Nat.succ_le_of_lt hi), Nat.add_sub_cancel]

/-- **What `write_head` writes, `read_head` reads back.** -/
theorem readHead_writeHead {lh : List ℕ} (hlen : lh.length ≤ LOGSIZE) (hb : Block) :
    readHead (writeHead lh hb) = lh := by
  apply List.ext_getElem
  · simp [readHead, word_writeHead_zero]
  · intro i h1 h2
    simp only [readHead, List.getElem_map, List.getElem_range]
    rw [word_writeHead_succ hlen hb h2, List.getD_eq_getElem _ _ h2]

theorem readHead_of_zero {b : Block} (h : b.word 0 = 0) : readHead b = [] := by
  simp [readHead, h]

/-! ## Transactions -/

@[simp] theorem applyTxns_append (ts us : List (List Write)) (d : Sectors) :
    applyTxns (ts ++ us) d = applyTxns us (applyTxns ts d) := List.foldl_append

@[simp] theorem applyTxns_single (t : List Write) (d : Sectors) : applyTxns [t] d = applyTxn t d := rfl

@[simp] theorem applyTxn_nil (d : Sectors) : applyTxn [] d = d := rfl

@[simp] theorem applyTxn_concat (t : List Write) (w : Write) (d : Sectors) :
    applyTxn (t ++ [w]) d = update (applyTxn t d) w.1 w.2 := by
  simp [applyTxn]

/-- one more write of the newest transaction -/
theorem applyTxns_addWrite (ts : List (List Write)) (w : Write) (d : Sectors) (h : ts ≠ []) :
    applyTxns (addWrite w ts) d = update (applyTxns ts d) w.1 w.2 := by
  obtain ⟨us, t, rfl⟩ : ∃ us t, ts = us ++ [t] := ⟨_, _, (List.dropLast_append_getLast h).symm⟩
  simp [addWrite]

theorem length_addWrite (w : Write) {ts : List (List Write)} (h : ts ≠ []) : (addWrite w ts).length = ts.length := by
  obtain ⟨us, t, rfl⟩ : ∃ us t, ts = us ++ [t] := ⟨_, _, (List.dropLast_append_getLast h).symm⟩
  simp [addWrite]

theorem dropLast_addWrite (w : Write) (ts : List (List Write)) : (addWrite w ts).dropLast = ts.dropLast := by
  simp [addWrite]

/-! ## The invariant -/

section Invariant

variable {start nlog : ℕ}

/-- a list of sector numbers that the log has room for -/
structure Fits (start nlog : ℕ) (lh : List ℕ) : Prop where
  short : lh.length ≤ LOGSIZE
  room : lh.length < nlog
  nodup : lh.Nodup
  home : ∀ x ∈ lh, Home start nlog x

/-- the home sectors are those of `d` -/
def HomeIs (start nlog : ℕ) (s : St) (d : Sectors) : Prop := ∀ x, Home start nlog x → s.disk x = d x

/-- installing the log with the header `lh` would leave the transactions `ts` on the disk -/
def Redoes (start nlog : ℕ) (s : St) (lh : List ℕ) (ts : List (List Write)) : Prop :=
  ∀ x, Home start nlog x → redo lh (slots start s.disk) s.disk x = applyTxns ts s.base x

/-- the header on the disk records no transaction -/
def Clean (start : ℕ) (s : St) : Prop := (s.disk start).word 0 = 0

/-- **What a crash leaves.** Redoing the log that is on the disk gives a prefix of the transactions, and no
transaction that returned is missing from it. -/
def Recoverable (start nlog : ℕ) (s : St) : Prop :=
  Fits start nlog (readHead (s.disk start)) ∧
    ∃ k, s.returned ≤ k ∧ k ≤ s.txns.length ∧ Redoes start nlog s (readHead (s.disk start)) (s.txns.take k)

/-- no transaction is open, and all of them are on the disk -/
structure Idle (start nlog : ℕ) (s : St) : Prop where
  lh : s.lh = []
  clean : Clean start s
  returned : s.returned = s.txns.length
  home : HomeIs start nlog s (applyTxns s.txns s.base)

/-- the newest transaction is in the log only, and the header does not name it -/
structure Logging (start nlog : ℕ) (s : St) : Prop where
  fits : Fits start nlog s.lh
  clean : Clean start s
  open_ : s.txns ≠ []
  returned : s.returned + 1 = s.txns.length
  home : HomeIs start nlog s (applyTxns s.txns.dropLast s.base)
  redoes : Redoes start nlog s s.lh s.txns

/-- the header names the newest transaction, and `tail` of its sectors are at home -/
structure Committed (start nlog : ℕ) (s : St) (tail : ℕ) : Prop where
  fits : Fits start nlog s.lh
  header : readHead (s.disk start) = s.lh
  returned : s.returned + 1 = s.txns.length
  redoes : Redoes start nlog s s.lh s.txns
  installed : Installed s.lh (slots start s.disk) s.disk tail

/-- recovery works on the header it read, and `tail` of its sectors are at home -/
structure Recovering (start : ℕ) (s : St) (tail : ℕ) : Prop where
  header : readHead (s.disk start) = s.lh
  installed : Installed s.lh (slots start s.disk) s.disk tail

/-- what holds at each point of the code -/
def AtPc (start nlog : ℕ) (s : St) : Pc → Prop
  | .idle => Idle start nlog s
  | .trans => Logging start nlog s
  | .install tail => Committed start nlog s tail
  | .recover tail => Recovering start s tail
  | .down | .panicked => True

/-- the invariant -/
structure Inv (start nlog : ℕ) (s : St) : Prop where
  recoverable : Recoverable start nlog s
  atPc : AtPc start nlog s s.pc

/-! ## The sectors a step writes -/

theorem Home.ne_start {x : ℕ} (hlog : 0 < nlog) (h : Home start nlog x) : x ≠ start := by
  unfold Home at h
  omega

theorem Home.ne_slot {x i : ℕ} (hi : i + 1 < nlog) (h : Home start nlog x) : x ≠ start + i + 1 := by
  unfold Home at h
  omega

theorem Fits.nil (hlog : 0 < nlog) : Fits start nlog [] :=
  ⟨Nat.zero_le _, hlog, List.nodup_nil, by simp⟩

theorem Fits.slot_lt {lh : List ℕ} (h : Fits start nlog lh) {i : ℕ} (hi : i < lh.length) : i + 1 < nlog :=
  (Nat.succ_lt_succ hi).trans_le (Nat.succ_le_of_lt h.room)

/-- a header write moves no home sector and no slot -/
theorem slots_update_start (d : Sectors) (b : Block) : slots start (update d start b) = slots start d := by
  funext i
  exact update_of_ne (by omega) _ _

/-- a write to a home sector moves no slot of the log -/
theorem slots_update_home {d : Sectors} {x i : ℕ} (hx : Home start nlog x) (hi : i + 1 < nlog) (b : Block) :
    slots start (update d x b) i = slots start d i :=
  update_of_ne (hx.ne_slot hi).symm _ _

theorem slots_update_slot (d : Sectors) (i : ℕ) (b : Block) :
    slots start (update d (start + i + 1) b) = update (slots start d) i b := by
  funext j
  by_cases h : j = i
  · subst h
    simp [slots]
  · simp [slots, h]

/-- a write to the header leaves what redoing a list of sectors gives -/
theorem Redoes.update_start (hlog : 0 < nlog) {s t : St} {lh : List ℕ} {ts : List (List Write)} {b : Block}
    (h : Redoes start nlog s lh ts) (hd : t.disk = update s.disk start b) (hb : t.base = s.base) :
    Redoes start nlog t lh ts := by
  intro x hx
  rw [hd, hb, slots_update_start, ← h x hx]
  exact redo_congr (fun _ _ => rfl) (update_of_ne (hx.ne_start hlog) _ _)

/-- installing a slot leaves what redoing the list gives -/
theorem Redoes.update_home {s t : St} {lh : List ℕ} {ts : List (List Write)} {k : ℕ} {b : Block}
    (hfit : Fits start nlog lh) (hk : k ∈ lh) (h : Redoes start nlog s lh ts)
    (hd : t.disk = update s.disk k b) (hb : t.base = s.base) : Redoes start nlog t lh ts := by
  intro x hx
  rw [hd, hb, ← h x hx, ← redo_install lh (slots start s.disk) s.disk k hk b]
  exact redo_congr (fun i hi => slots_update_home (hfit.home k hk) (hfit.slot_lt hi) b) rfl

/-- nothing logged: redoing is the home sectors themselves -/
theorem redoes_nil {s : St} {ts : List (List Write)} :
    Redoes start nlog s [] ts ↔ HomeIs start nlog s (applyTxns ts s.base) := by
  simp [Redoes, HomeIs]

theorem Clean.readHead {s : St} (h : Clean start s) : readHead (s.disk start) = [] := readHead_of_zero h

/-! ## What each state leaves to a recovery -/

theorem Idle.recoverable (hlog : 0 < nlog) {s : St} (h : Idle start nlog s) : Recoverable start nlog s := by
  rw [Recoverable, h.clean.readHead]
  refine ⟨Fits.nil hlog, s.txns.length, h.returned.le, le_rfl, ?_⟩
  rw [List.take_length, redoes_nil]
  exact h.home

theorem Logging.recoverable (hlog : 0 < nlog) {s : St} (h : Logging start nlog s) : Recoverable start nlog s := by
  have hret := h.returned
  rw [Recoverable, h.clean.readHead]
  refine ⟨Fits.nil hlog, s.txns.length - 1, by omega, by omega, ?_⟩
  rw [← List.dropLast_eq_take, redoes_nil]
  exact h.home

theorem Committed.recoverable {s : St} {tail : ℕ} (h : Committed start nlog s tail) : Recoverable start nlog s := by
  have hret := h.returned
  rw [Recoverable, h.header]
  refine ⟨h.fits, s.txns.length, by omega, le_rfl, ?_⟩
  rw [List.take_length]
  exact h.redoes

/-- what a recovery finds depends on the disk and the history only -/
theorem Recoverable.congr {s t : St} (h : Recoverable start nlog s) (hd : t.disk = s.disk) (hb : t.base = s.base)
    (ht : t.txns = s.txns) (hr : t.returned = s.returned) : Recoverable start nlog t := by
  unfold Recoverable Redoes at h ⊢
  rw [hd, hb, ht, hr]
  exact h

/-! ## Steps -/

/-- `begin_trans`: an empty transaction is open -/
theorem Idle.begin_logging (hlog : 0 < nlog) {s : St} (h : Idle start nlog s) :
    Logging start nlog { s with pc := .trans, txns := s.txns ++ [[]] } where
  fits := h.lh ▸ Fits.nil hlog
  clean := h.clean
  open_ := by simp
  returned := by simp [h.returned]
  home := by simpa [HomeIs] using h.home
  redoes := by
    rw [h.lh, redoes_nil]
    simpa [HomeIs] using h.home

/-- recording a sector keeps the list within the log, as long as the size check passed -/
theorem Fits.record {lh : List ℕ} (h : Fits start nlog lh) {sector : ℕ} (hx : Home start nlog sector)
    (hlen : lh.length < LOGSIZE) (hroom : lh.length + 1 < nlog) : Fits start nlog (record lh sector) where
  short := (length_record_le lh sector).trans hlen
  room := (length_record_le lh sector).trans_lt hroom
  nodup := nodup_record h.nodup sector
  home := by
    intro x hmem
    rcases mem_record.1 hmem with hmem | rfl
    · exact h.home x hmem
    · exact hx

/-- `log_write`, past its checks: the write is in the log and nowhere else -/
theorem Logging.log_write {s t : St} (h : Logging start nlog s) {sector : ℕ} {data : Block}
    (hx : Home start nlog sector) (hlen : s.lh.length < LOGSIZE) (hroom : s.lh.length + 1 < nlog)
    (hd : t.disk = update s.disk (start + s.lh.idxOf sector + 1) data)
    (hlh : t.lh = record s.lh sector) (hts : t.txns = addWrite (sector, data) s.txns) (hb : t.base = s.base)
    (hr : t.returned = s.returned) : Logging start nlog t := by
  have hslot : s.lh.idxOf sector + 1 < nlog := (Nat.succ_le_succ List.idxOf_le_length).trans_lt hroom
  have hkept : ∀ x, Home start nlog x → t.disk x = s.disk x := by
    intro x hx
    rw [hd]
    exact update_of_ne (hx.ne_slot hslot) _ _
  refine ⟨hlh ▸ h.fits.record hx hlen hroom, ?_, ?_, ?_, ?_, ?_⟩
  · have hne : start ≠ start + s.lh.idxOf sector + 1 := by omega
    rw [Clean, hd, update_of_ne hne]
    exact h.clean
  · rw [hts]
    simp [addWrite]
  · rw [hr, hts, length_addWrite _ h.open_]
    exact h.returned
  · intro x hx
    rw [hkept x hx, hts, dropLast_addWrite, hb]
    exact h.home x hx
  · intro x hx
    rw [hlh, hts, applyTxns_addWrite _ _ _ h.open_, hb, hd, slots_update_slot]
    -- the slot write goes through `redo_record`; the home sector read underneath has not moved
    calc redo (record s.lh sector) (update (slots start s.disk) (s.lh.idxOf sector) data)
          (update s.disk (start + s.lh.idxOf sector + 1) data) x
        = redo (record s.lh sector) (update (slots start s.disk) (s.lh.idxOf sector) data) s.disk x :=
          redo_congr (fun _ _ => rfl) (update_of_ne (hx.ne_slot hslot) _ _)
      _ = update (redo s.lh (slots start s.disk) s.disk) sector data x := by rw [redo_record]
      _ = update (applyTxns s.txns s.base) sector data x := by
          by_cases hxs : x = sector
          · rw [hxs, update_self, update_self]
          · rw [update_of_ne hxs, update_of_ne hxs]
            exact h.redoes x hx

/-- the header write of `commit_trans`: the transaction is committed -/
theorem Logging.commit (hlog : 0 < nlog) {s : St} (h : Logging start nlog s) :
    Committed start nlog { s.writeHead start with pc := .install 0 } 0 where
  fits := h.fits
  header := by
    simp only [St.writeHead, update_self]
    exact readHead_writeHead h.fits.short _
  returned := h.returned
  redoes := h.redoes.update_start hlog rfl rfl
  installed := Installed.zero _ _ _

/-- a transaction with nothing logged is on the disk already -/
theorem Logging.commit_nil {s : St} (h : Logging start nlog s) (hlh : s.lh = []) :
    Idle start nlog { s with pc := .idle, returned := s.txns.length } where
  lh := hlh
  clean := h.clean
  returned := rfl
  home := by
    have hre := h.redoes
    rw [hlh, redoes_nil] at hre
    exact hre

/-- one pass of `install_trans` brings the next sector home, whoever runs it -/
theorem installed_installOne {s : St} {tail : ℕ} (hfit : Fits start nlog s.lh) (ht : tail < s.lh.length)
    (h : Installed s.lh (slots start s.disk) s.disk tail) :
    Installed s.lh (slots start (s.installOne start tail).disk) (s.installOne start tail).disk (tail + 1) := by
  have hget : s.lh.getD tail 0 = s.lh[tail] := List.getD_eq_getElem _ _ ht
  have hmem : s.lh.getD tail 0 ∈ s.lh := hget ▸ List.getElem_mem ht
  have hidx : s.lh.idxOf (s.lh.getD tail 0) = tail := by
    rw [hget]
    exact hfit.nodup.idxOf_getElem tail ht
  apply (h.succ _ hidx).congr
  · intro i hi
    exact slots_update_home (hfit.home _ hmem) (hfit.slot_lt hi) _
  · intro x _
    rfl

theorem getD_mem {lh : List ℕ} {tail : ℕ} (ht : tail < lh.length) : lh.getD tail 0 ∈ lh := by
  rw [List.getD_eq_getElem _ _ ht]
  exact List.getElem_mem ht

/-- installing leaves the header alone -/
theorem header_installOne (hlog : 0 < nlog) {s : St} {tail : ℕ} (hfit : Fits start nlog s.lh) (ht : tail < s.lh.length) :
    (s.installOne start tail).disk start = s.disk start :=
  update_of_ne ((hfit.home _ (getD_mem ht)).ne_start hlog).symm _ _

theorem Committed.install (hlog : 0 < nlog) {s : St} {tail : ℕ} (h : Committed start nlog s tail)
    (ht : tail < s.lh.length) :
    Committed start nlog { s.installOne start tail with pc := .install (tail + 1) } (tail + 1) where
  fits := h.fits
  header := by
    show readHead ((s.installOne start tail).disk start) = s.lh
    rw [header_installOne hlog h.fits ht]
    exact h.header
  returned := h.returned
  redoes := h.redoes.update_home h.fits (getD_mem ht) rfl rfl
  installed := installed_installOne h.fits ht h.installed

/-- the erased header, and the home sectors under it -/
theorem clean_erase (s : St) : Clean start ({ s with lh := [] }.writeHead start) := by
  simp [Clean, St.writeHead, word_writeHead_zero]

theorem erase_home (hlog : 0 < nlog) (s : St) {x : ℕ} (hx : Home start nlog x) :
    ({ s with lh := [] }.writeHead start).disk x = s.disk x :=
  update_of_ne (hx.ne_start hlog) _ _

/-- once everything is installed, the home sectors are what redoing the log gives -/
theorem homeIs_of_installed {s : St} {tail : ℕ} {ts : List (List Write)}
    (h : Installed s.lh (slots start s.disk) s.disk tail) (ht : s.lh.length ≤ tail)
    (hre : Redoes start nlog s s.lh ts) : HomeIs start nlog s (applyTxns ts s.base) := by
  intro x hx
  rw [← hre x hx, h.done ht]

/-- the last write of `commit_trans` -/
theorem Committed.erase (hlog : 0 < nlog) {s : St} {tail : ℕ} (h : Committed start nlog s tail)
    (ht : s.lh.length ≤ tail) :
    Idle start nlog { { s with lh := [] }.writeHead start with pc := .idle, returned := s.txns.length } where
  lh := rfl
  clean := clean_erase s
  returned := rfl
  home := by
    intro x hx
    exact (erase_home hlog s hx).trans (homeIs_of_installed h.installed ht h.redoes x hx)

/-- `install_trans` inside a recovery leaves as much to the next recovery -/
theorem Recovering.install (hlog : 0 < nlog) {s : St} {tail : ℕ} (hrec : Recoverable start nlog s)
    (h : Recovering start s tail) (ht : tail < s.lh.length) :
    Inv start nlog { s.installOne start tail with pc := .recover (tail + 1) } := by
  obtain ⟨hfit, k, hret, hk, hre⟩ := hrec
  rw [h.header] at hfit hre
  have hhead : readHead ((s.installOne start tail).disk start) = s.lh := by
    rw [header_installOne hlog hfit ht]
    exact h.header
  constructor
  · refine ⟨?_, k, hret, hk, ?_⟩
    · exact (congrArg (Fits start nlog) hhead).mpr hfit
    · show Redoes start nlog _ (readHead ((s.installOne start tail).disk start)) _
      rw [hhead]
      exact hre.update_home hfit (getD_mem ht) rfl rfl
  · exact ⟨hhead, installed_installOne hfit ht h.installed⟩

/-- **What a completed recovery leaves on the disk.** -/
theorem Recovering.finish (hlog : 0 < nlog) {s : St} {tail : ℕ} (hrec : Recoverable start nlog s)
    (h : Recovering start s tail) (ht : s.lh.length ≤ tail) :
    ∃ k, s.returned ≤ k ∧ k ≤ s.txns.length ∧
      (∀ x, Home start nlog x → ({ s with lh := [] }.writeHead start).disk x = applyTxns (s.txns.take k) s.base x) := by
  obtain ⟨_, k, hret, hk, hre⟩ := hrec
  rw [h.header] at hre
  refine ⟨k, hret, hk, ?_⟩
  intro x hx
  exact (erase_home hlog s hx).trans (homeIs_of_installed h.installed ht hre x hx)

/-- after a recovery a new history begins with the disk as it is -/
theorem fresh_idle {s : St} (h : Clean start s) :
    Idle start nlog { s with lh := [], pc := .idle, base := s.disk, txns := [], returned := 0 } :=
  ⟨rfl, h, rfl, fun _ _ => rfl⟩

/-- the calls of a run write outside the log area -/
def WritesHome (start nlog : ℕ) : Op → Prop
  | .logWrite sector _ => Home start nlog sector
  | _ => True

theorem logWrite_inv (hlog : 0 < nlog) {s : St} {sector : ℕ} {data : Block} (hx : Home start nlog sector)
    (h : Inv start nlog s) : Inv start nlog (logWrite start nlog s sector data) := by
  unfold logWrite
  split_ifs with hfull hpc
  · exact ⟨h.recoverable.congr rfl rfl rfl rfl, trivial⟩
  · exact ⟨h.recoverable.congr rfl rfl rfl rfl, trivial⟩
  · simp only [not_or, not_le, ge_iff_le, not_not] at hfull hpc
    have hlogging : Logging start nlog s := by
      have hat := h.atPc
      rw [hpc] at hat
      exact hat
    have hnext : Logging start nlog
        { s with
          disk := update s.disk (start + s.lh.idxOf sector + 1) data
          lh := record s.lh sector
          txns := addWrite (sector, data) s.txns } :=
      hlogging.log_write hx hfull.1 hfull.2 rfl rfl rfl rfl rfl
    exact ⟨hnext.recoverable hlog, (congrArg (AtPc start nlog _) hpc).mpr hnext⟩

/-- **One step keeps the log recoverable.** -/
theorem step_inv (hlog : 0 < nlog) (s : St) (o : Op) (ho : WritesHome start nlog o) (h : Inv start nlog s) :
    Inv start nlog (step start nlog s o) := by
  have hat := h.atPc
  cases o with
  | crash => exact ⟨h.recoverable.congr rfl rfl rfl rfl, trivial⟩
  | initlog =>
    simp only [step]
    split_ifs with hpc
    · exact ⟨h.recoverable.congr rfl rfl rfl rfl, rfl, Installed.zero _ _ _⟩
    · exact h
  | beginTrans =>
    simp only [step]
    split_ifs with hpc
    · rw [hpc] at hat
      have hnext := Idle.begin_logging hlog hat
      exact ⟨hnext.recoverable hlog, hnext⟩
    · exact h
  | logWrite sector data =>
    simp only [step]
    split_ifs with hpc
    · exact logWrite_inv hlog ho h
    · exact h
  | commitTrans =>
    simp only [step]
    split_ifs with hpc
    · rw [hpc] at hat
      unfold commitTrans
      split_ifs with hn
      · have hnext := Logging.commit hlog hat
        exact ⟨hnext.recoverable, hnext⟩
      · have hnext := Logging.commit_nil hat (List.length_eq_zero_iff.1 (Nat.eq_zero_of_not_pos hn))
        exact ⟨hnext.recoverable hlog, hnext⟩
    · exact h
  | io =>
    simp only [step]
    split
    next tail hpc =>
      rw [hpc] at hat
      unfold commitIo
      split_ifs with ht
      · have hnext := Committed.install hlog hat ht
        exact ⟨hnext.recoverable, hnext⟩
      · have hnext := Committed.erase hlog hat (Nat.le_of_not_lt ht)
        exact ⟨hnext.recoverable hlog, hnext⟩
    next tail hpc =>
      rw [hpc] at hat
      unfold recoverIo
      split_ifs with ht
      · exact Recovering.install hlog h.recoverable hat ht
      · have hnext := @fresh_idle start nlog _ (clean_erase s)
        exact ⟨hnext.recoverable hlog, hnext⟩
    next => exact h

theorem powerOn_inv (hlog : 0 < nlog) {d : Sectors} (hd : (d start).word 0 = 0) : Inv start nlog (powerOn d) := by
  refine ⟨?_, trivial⟩
  rw [Recoverable]
  show Fits start nlog (readHead (d start)) ∧ _
  rw [readHead_of_zero hd]
  refine ⟨Fits.nil hlog, 0, le_rfl, le_rfl, ?_⟩
  show Redoes start nlog _ (readHead (d start)) _
  rw [readHead_of_zero hd, redoes_nil]
  exact fun _ _ => rfl

/-- **The log is recoverable at every point of every run**, whatever the calls and wherever the power went. -/
theorem reach_inv (hlog : 0 < nlog) {d : Sectors} (hd : (d start).word 0 = 0) {ops : List Op}
    (hops : ∀ o ∈ ops, WritesHome start nlog o) : Inv start nlog (run (step start nlog) (powerOn d) ops) := by
  have hstart := powerOn_inv hlog hd
  generalize powerOn d = s at hstart ⊢
  induction ops generalizing s with
  | nil => exact hstart
  | cons o ops ih =>
    simp only [List.forall_mem_cons] at hops
    exact ih hops.2 _ (step_inv hlog s o hops.1 hstart)

end Invariant

/-! ## Recovery -/

/-- **Crash atomicity.** When a recovery makes its last sector write, the home sectors are those of a prefix of the
transactions begun since the recovery before it, on the disk which that one left. The prefix holds every transaction
whose `commit_trans` returned, and the header records none. -/
theorem recovery_atomic {start nlog : ℕ} (hlog : 0 < nlog) (d : Sectors) (hd : (d start).word 0 = 0) (ops : List Op)
    (hops : ∀ o ∈ ops, WritesHome start nlog o) (s : St) (hs : s = run (step start nlog) (powerOn d) ops) (tail : ℕ)
    (hpc : s.pc = .recover tail) (hdone : (step start nlog s .io).pc = .idle) :
    (∃ k, s.returned ≤ k ∧ k ≤ s.txns.length ∧
      ∀ x, Home start nlog x → (step start nlog s .io).disk x = applyTxns (s.txns.take k) s.base x) ∧
    ((step start nlog s .io).disk start).word 0 = 0 := by
  have h : Inv start nlog s := hs ▸ reach_inv hlog hd hops
  have hat := h.atPc
  rw [hpc] at hat
  simp only [step, hpc, recoverIo] at hdone ⊢
  by_cases ht : tail < s.lh.length
  · simp [ht] at hdone
  · rw [if_neg ht]
    exact ⟨Recovering.finish hlog h.recoverable hat (Nat.le_of_not_lt ht), clean_erase s⟩

/-- two transactions; the power goes after the commit record of the second, and the recovery is one write from its end -/
def cutTrace : List Op :=
  [.initlog, .io, .beginTrans, .logWrite 0 fun _ => 1, .commitTrans, .io, .io,
    .beginTrans, .logWrite 1 fun _ => 2, .commitTrans, .crash, .initlog, .io]

/-- the theorem at that run: the second transaction had not returned, and it is there -/
theorem recovery_atomic_cut :
    let s := run (step 2 3) (powerOn fun _ _ => 0) cutTrace
    (s.returned = 1 ∧ s.txns.length = 2 ∧ (step 2 3 s .io).disk 1 5 = 2) ∧
    (∃ k, s.returned ≤ k ∧ k ≤ s.txns.length ∧
      ∀ x, Home 2 3 x → (step 2 3 s .io).disk x = applyTxns (s.txns.take k) s.base x) ∧
    ((step 2 3 s .io).disk 2).word 0 = 0 := by
  intro s
  refine ⟨by decide +kernel, ?_⟩
  refine recovery_atomic (by decide) (fun _ _ => 0) rfl cutTrace ?_ s rfl 1 (by decide +kernel) (by decide +kernel)
  simp [cutTrace, WritesHome, Home]

/-- **A recovery that is left alone completes**: one sector write for each slot that is left, and one for the header. -/
theorem recovery_completes (start nlog : ℕ) (s : St) (n : ℕ) (tail : ℕ) (hpc : s.pc = .recover tail)
    (hn : s.lh.length = tail + n) : (run (step start nlog) s (List.replicate (n + 1) .io)).pc = .idle := by
  induction n generalizing s tail with
  | zero =>
    have ht : ¬ tail < s.lh.length := by omega
    simp [run, step, hpc, recoverIo, ht]
  | succ n ih =>
    have ht : tail < s.lh.length := by omega
    rw [List.replicate_succ, run_cons]
    apply ih (step start nlog s .io) (tail + 1)
    · simp [step, hpc, recoverIo, ht]
    · simp only [step, hpc, recoverIo, ht, if_true, St.installOne]
      omega

end Xv6Threads.Disk
