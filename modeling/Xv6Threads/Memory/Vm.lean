/-
Page directories and the functions of vm.c that build, grow, shrink and copy them.

A page directory is an object with a handle: `pgdir` of a `struct proc` is the handle, and the directory's page tables
hang in it as values. What the code takes from and gives to the free list are the physical pages they occupy, so a
directory and each page table also have the frame they live in. Addresses are numbers of bytes below 2^32; physical
pages are frame numbers. An entry that is not present is `none`: no function reads the rest of such an entry.

A panic is an error that ends the machine, so the functions return `Except Panic`; a failing `kalloc` is an ordinary
outcome. The link-time addresses `data` and `end` are fields of the memory.

The lemmas here say what a single step does: a page or a page table taken from the free list, an entry stored, a
directory made. `Dir.Extent` is what a process has: the pages below a bound.
-/
import Xv6Threads.Core.Runs

namespace Xv6Threads.Memory

open Function

/-! ## Addresses -/

def PGSIZE : ℕ := 4096

def NPTENTRIES : ℕ := 1024

def KERNBASE : ℕ := 0x80000000

def EXTMEM : ℕ := 0x100000

def PHYSTOP : ℕ := 0xE000000

def DEVSPACE : ℕ := 0xFE000000

/-- `PDX`: the index of an address into the page directory -/
def pdx (va : ℕ) : Fin 1024 := Fin.ofNat 1024 (va / 2 ^ 22)

/-- `PTX`: the index of an address into its page table -/
def ptx (va : ℕ) : Fin 1024 := Fin.ofNat 1024 (va / 2 ^ 12)

/-- `PGROUNDUP` on a `uint` -/
def pgroundup (sz : ℕ) : ℕ := (sz + PGSIZE - 1) % 2 ^ 32 / PGSIZE * PGSIZE

/-- `PGROUNDDOWN` -/
def pgrounddown (a : ℕ) : ℕ := a / PGSIZE * PGSIZE

/-! ## Memory -/

/-- the number of a physical page -/
abbrev Frame := ℕ

abbrev Page := Fin PGSIZE → UInt8

/-- a present entry: the page it points to, PTE_W and PTE_U -/
structure Pte where
  frame : Frame
  w : Bool
  u : Bool
  deriving DecidableEq

structure PageTable where
  frame : Frame
  pte : Fin 1024 → Option Pte

/-- a page directory; the tables it points to are present, writable and user-accessible -/
structure Dir where
  frame : Frame
  pde : Fin 1024 → Option PageTable

/-- a store into the directory: a new or changed page table -/
def Dir.setTable (d : Dir) (i : Fin 1024) (t : PageTable) : Dir := { d with pde := update d.pde i (some t) }

/-- the entry that `walkpgdir` finds for an address -/
def Dir.pteOf (d : Dir) (va : ℕ) : Option Pte := (d.pde (pdx va)).bind fun t => t.pte (ptx va)

/-- `kmem.freelist`, the contents of the pages, the directories by handle, and the link-time addresses: the page after
`end` and the start of the kernel's `data` -/
structure Mem where
  freelist : List Frame
  page : Frame → Page
  dir : ℕ → Dir
  nextDir : ℕ
  kend : Frame
  data : ℕ

/-- the panics of kalloc.c and vm.c -/
inductive Panic where
  | kfree
  | remap
  | copyuvmPte
  | copyuvmPresent
  deriving DecidableEq

namespace Mem

/-- `memset` on a page -/
def memset (m : Mem) (f : Frame) (b : UInt8) : Mem := { m with page := update m.page f fun _ => b }

/-- `memmove` of a page -/
def memmove (m : Mem) (dst src : Frame) : Mem := { m with page := update m.page dst (m.page src) }

/-- a store into the directory with handle `h` -/
def setDir (m : Mem) (h : ℕ) (d : Dir) : Mem := { m with dir := update m.dir h d }

/-- `*pte = e` for the entry of an address -/
def setPte (m : Mem) (h va : ℕ) (e : Option Pte) : Mem :=
  match (m.dir h).pde (pdx va) with
  | none => m
  | some t => m.setDir h ((m.dir h).setTable (pdx va) { t with pte := update t.pte (ptx va) e })

end Mem

/-! ## kalloc.c -/

def kalloc (m : Mem) : Option (Frame × Mem) :=
  match m.freelist with
  | [] => none
  | f :: fs => some (f, { m with freelist := fs })

def kfree (m : Mem) (f : Frame) : Except Panic Mem :=
  if f < m.kend ∨ PHYSTOP / PGSIZE ≤ f then .error .kfree
  else .ok { m.memset f 1 with freelist := f :: m.freelist }

/-! ## vm.c -/

/-- `walkpgdir`: the memory in which the page table of the address exists; `none` is the null pointer -/
def walkpgdir (m : Mem) (h va : ℕ) (alloc : Bool) : Option Mem :=
  match (m.dir h).pde (pdx va) with
  | some _ => some m
  | none =>
    if alloc then
      match kalloc m with
      | none => none
      | some (f, m) =>
        some (m.setDir h ((m.dir h).setTable (pdx va) ⟨f, fun _ => none⟩))
    else none

/-- the loop of `mappages`; `false` is the result -1 -/
def mapLoop (h last : ℕ) (w u : Bool) : ℕ → ℕ → Frame → Mem → Except Panic (Mem × Bool)
  | 0, _, _, m => .ok (m, true)
  | k + 1, a, pa, m =>
    match walkpgdir m h a true with
    | none => .ok (m, false)
    | some m =>
      if ((m.dir h).pteOf a).isSome then .error .remap
      else
        let m := m.setPte h a (some ⟨pa, w, u⟩)
        if a = last then .ok (m, true) else mapLoop h last w u k ((a + PGSIZE) % 2 ^ 32) (pa + 1) m

/-- `mappages`; there are 2^20 pages, so the loop meets `last` within as many rounds -/
def mappages (m : Mem) (h va size : ℕ) (pa : Frame) (w u : Bool) : Except Panic (Mem × Bool) :=
  mapLoop h (pgrounddown ((va + size + 2 ^ 32 - 1) % 2 ^ 32)) w u (2 ^ 20) (pgrounddown va) pa m

structure Kmap where
  virt : ℕ
  physStart : ℕ
  physEnd : ℕ
  w : Bool

def kmap (data : ℕ) : List Kmap :=
  [⟨KERNBASE, 0, EXTMEM, true⟩,
   ⟨KERNBASE + EXTMEM, EXTMEM, data - KERNBASE, false⟩,
   ⟨data, data - KERNBASE, PHYSTOP, true⟩,
   ⟨DEVSPACE, DEVSPACE, 0, true⟩]

/-- the loop of `setupkvm` -/
def kmapLoop (h : ℕ) : List Kmap → Mem → Except Panic (Mem × Option ℕ)
  | [], m => .ok (m, some h)
  | k :: ks, m =>
    match mappages m h k.virt ((k.physEnd + 2 ^ 32 - k.physStart) % 2 ^ 32) (k.physStart / PGSIZE) k.w false with
    | .error e => .error e
    | .ok (m, false) => .ok (m, none)
    | .ok (m, true) => kmapLoop h ks m

/-- `setupkvm`: the handle of the new directory, `none` for the null pointer; what it has taken is not given back -/
def setupkvm (m : Mem) : Except Panic (Mem × Option ℕ) :=
  match kalloc m with
  | none => .ok (m, none)
  | some (f, m) =>
    kmapLoop m.nextDir (kmap m.data) { m.setDir m.nextDir ⟨f, fun _ => none⟩ with nextDir := m.nextDir + 1 }

/-- the loop of `deallocuvm`; with no page table it skips ahead by the size of one -/
def deallocLoop (h oldsz : ℕ) : ℕ → ℕ → Mem → Except Panic Mem
  | 0, _, m => .ok m
  | k + 1, a, m =>
    if a < oldsz then
      match (m.dir h).pde (pdx a) with
      | none => deallocLoop h oldsz k (a + (NPTENTRIES - 1) * PGSIZE + PGSIZE) m
      | some t =>
        match t.pte (ptx a) with
        | none => deallocLoop h oldsz k (a + PGSIZE) m
        | some e =>
          if e.frame = 0 then .error .kfree
          else
            match kfree m e.frame with
            | .error e => .error e
            | .ok m => deallocLoop h oldsz k (a + PGSIZE) (m.setPte h a none)
    else .ok m

/-- `deallocuvm`: the new size; every caller has `oldsz ≤ KERNBASE`, so no address here wraps around -/
def deallocuvm (m : Mem) (h oldsz newsz : ℕ) : Except Panic (Mem × ℕ) :=
  if newsz ≥ oldsz then .ok (m, oldsz)
  else
    match deallocLoop h oldsz (oldsz / PGSIZE + 1) (pgroundup newsz) m with
    | .error e => .error e
    | .ok m => .ok (m, newsz)

/-- the loop of `allocuvm`, which does not look at the result of `mappages` -/
def allocLoop (h oldsz newsz : ℕ) : ℕ → ℕ → Mem → Except Panic (Mem × ℕ)
  | 0, _, m => .ok (m, newsz)
  | k + 1, a, m =>
    if a < newsz then
      match kalloc m with
      | none =>
        match deallocuvm m h newsz oldsz with
        | .error e => .error e
        | .ok (m, _) => .ok (m, 0)
      | some (f, m) =>
        match mappages (m.memset f 0) h a PGSIZE f true true with
        | .error e => .error e
        | .ok (m, _) => allocLoop h oldsz newsz k (a + PGSIZE) m
    else .ok (m, newsz)

/-- `allocuvm`: the new size, 0 on error -/
def allocuvm (m : Mem) (h oldsz newsz : ℕ) : Except Panic (Mem × ℕ) :=
  if newsz ≥ KERNBASE then .ok (m, 0)
  else if newsz < oldsz then .ok (m, oldsz)
  else allocLoop h oldsz newsz (newsz / PGSIZE + 1) (pgroundup oldsz) m

/-- the loop of `freevm` over the page tables -/
def freeTables (d : Dir) : List (Fin 1024) → Mem → Except Panic Mem
  | [], m => .ok m
  | i :: is, m =>
    match d.pde i with
    | none => freeTables d is m
    | some t =>
      match kfree m t.frame with
      | .error e => .error e
      | .ok m => freeTables d is m

def freevm (m : Mem) (h : ℕ) : Except Panic Mem :=
  match deallocuvm m h KERNBASE 0 with
  | .error e => .error e
  | .ok (m, _) =>
    match freeTables (m.dir h) (List.finRange 1024) m with
    | .error e => .error e
    | .ok m => kfree m (m.dir h).frame

/-- the loop of `copyuvm`; `false` is the jump to `bad` -/
def copyLoop (old new sz : ℕ) : ℕ → ℕ → Mem → Except Panic (Mem × Bool)
  | 0, _, m => .ok (m, true)
  | k + 1, i, m =>
    if i < sz then
      match (m.dir old).pde (pdx i) with
      | none => .error .copyuvmPte
      | some t =>
        match t.pte (ptx i) with
        | none => .error .copyuvmPresent
        | some e =>
          match kalloc m with
          | none => .ok (m, false)
          | some (f, m) =>
            match mappages (m.memmove f e.frame) new i PGSIZE f true true with
            | .error e => .error e
            | .ok (m, false) => .ok (m, false)
            | .ok (m, true) => copyLoop old new sz k (i + PGSIZE) m
    else .ok (m, true)

/-- `copyuvm`: the handle of the copy, `none` for the null pointer -/
def copyuvm (m : Mem) (h sz : ℕ) : Except Panic (Mem × Option ℕ) :=
  match setupkvm m with
  | .error e => .error e
  | .ok (m, none) => .ok (m, none)
  | .ok (m, some d) =>
    match copyLoop h d sz (sz / PGSIZE + 1) 0 m with
    | .error e => .error e
    | .ok (m, true) => .ok (m, some d)
    | .ok (m, false) =>
      match freevm m d with
      | .error e => .error e
      | .ok m => .ok (m, none)

/-! ## Page numbers -/

/-- the number of pages below KERNBASE -/
def USERPAGES : ℕ := 524288

/-- the number of pages that `sz` bytes take -/
def pages (sz : ℕ) : ℕ := (sz + PGSIZE - 1) / PGSIZE

theorem page_lt_iff {v sz : ℕ} : v * PGSIZE < sz ↔ v < pages sz := by
  unfold pages PGSIZE
  omega

theorem pgroundup_eq {sz : ℕ} (h : sz ≤ KERNBASE) : pgroundup sz = pages sz * PGSIZE := by
  unfold pgroundup pages PGSIZE
  unfold KERNBASE at h
  omega

theorem pages_mono {sz sz' : ℕ} (h : sz ≤ sz') : pages sz ≤ pages sz' := by
  unfold pages PGSIZE
  omega

theorem pages_le_user {sz : ℕ} (h : sz ≤ KERNBASE) : pages sz ≤ USERPAGES := by
  unfold pages PGSIZE USERPAGES
  unfold KERNBASE at h
  omega

theorem pages_le_div (sz : ℕ) : pages sz ≤ sz / PGSIZE + 1 := by
  unfold pages PGSIZE
  omega

/-- two pages with the same indices are the same page -/
theorem page_index {v w : ℕ} (hv : v < 2 ^ 20) (hw : w < 2 ^ 20) :
    (pdx (w * PGSIZE) = pdx (v * PGSIZE) ∧ ptx (w * PGSIZE) = ptx (v * PGSIZE)) ↔ w = v := by
  constructor
  · rintro ⟨h1, h2⟩
    have h1 := congrArg Fin.val h1
    have h2 := congrArg Fin.val h2
    simp only [pdx, ptx, Fin.val_ofNat, PGSIZE] at h1 h2
    omega
  · rintro rfl
    exact ⟨rfl, rfl⟩

/-! ## Stores into one directory -/

/-- at most the directory `h`, the free list and the contents of pages are different -/
structure Only (h : ℕ) (m m' : Mem) : Prop where
  dir : ∀ h', h' ≠ h → m'.dir h' = m.dir h'
  nextDir : m'.nextDir = m.nextDir
  data : m'.data = m.data

section Stores

variable {m m₁ m' : Mem} {h : ℕ}

theorem Only.refl (h : ℕ) (m : Mem) : Only h m m := ⟨fun _ _ => rfl, rfl, rfl⟩

theorem Only.trans (h₁ : Only h m m₁) (h₂ : Only h m₁ m') : Only h m m' :=
  ⟨fun h' hh => (h₂.dir h' hh).trans (h₁.dir h' hh), h₂.nextDir.trans h₁.nextDir, h₂.data.trans h₁.data⟩

theorem only_setDir (m : Mem) (h : ℕ) (d : Dir) : Only h m (m.setDir h d) :=
  ⟨fun _ hh => update_of_ne hh _ _, rfl, rfl⟩

theorem only_setPte (m : Mem) (h va : ℕ) (e : Option Pte) : Only h m (m.setPte h va e) := by
  unfold Mem.setPte
  split
  · exact .refl h m
  · exact only_setDir m h _

/-- a page taken from or given to the free list leaves every directory alone -/
structure SameDirs (m m' : Mem) : Prop where
  dir : m'.dir = m.dir
  nextDir : m'.nextDir = m.nextDir
  data : m'.data = m.data

theorem SameDirs.only (hs : SameDirs m m') : Only h m m' := ⟨fun h' _ => by rw [hs.dir], hs.nextDir, hs.data⟩

theorem kalloc_dirs {f : Frame} (hk : kalloc m = some (f, m')) : SameDirs m m' := by
  unfold kalloc at hk
  split at hk
  · cases hk
  · cases hk
    exact ⟨rfl, rfl, rfl⟩

theorem kalloc_length {f : Frame} (hk : kalloc m = some (f, m')) : m.freelist.length = m'.freelist.length + 1 := by
  unfold kalloc at hk
  split at hk
  · cases hk
  · rename_i hf
    cases hk
    simp [hf]

theorem kfree_dirs {f : Frame} (hk : kfree m f = .ok m') : SameDirs m m' := by
  unfold kfree at hk
  split at hk
  · cases hk
  · cases hk
    exact ⟨rfl, rfl, rfl⟩

theorem kfree_error {f : Frame} {e : Panic} (hk : kfree m f = .error e) : e = .kfree := by
  unfold kfree at hk
  split at hk <;> cases hk
  rfl

theorem pteOf_setPte {va : ℕ} {t : PageTable} (ht : (m.dir h).pde (pdx va) = some t) (e : Option Pte) (va' : ℕ) :
    ((m.setPte h va e).dir h).pteOf va' =
      if pdx va' = pdx va ∧ ptx va' = ptx va then e else (m.dir h).pteOf va' := by
  simp only [Mem.setPte, ht, Mem.setDir, update_self, Dir.pteOf, Dir.setTable]
  by_cases h1 : pdx va' = pdx va
  · by_cases h2 : ptx va' = ptx va
    · simp [h1, h2]
    · simp [h1, h2, ht]
  · simp [h1]

/-- `walkpgdir` may add an empty page table, which changes no entry -/
theorem walkpgdir_some {va : ℕ} (hw : walkpgdir m h va true = some m') :
    Only h m m' ∧ (∃ t, (m'.dir h).pde (pdx va) = some t) ∧ ∀ va', (m'.dir h).pteOf va' = (m.dir h).pteOf va' := by
  unfold walkpgdir at hw
  split at hw
  · rename_i t ht
    cases hw
    exact ⟨.refl h m, ⟨t, ht⟩, fun _ => rfl⟩
  · rename_i hnone
    simp only [if_true] at hw
    split at hw
    · cases hw
    · rename_i f m₁ hk
      cases hw
      have hd := kalloc_dirs hk
      refine ⟨hd.only.trans (only_setDir m₁ h _), ⟨⟨f, fun _ => none⟩, by simp [Mem.setDir, Dir.setTable]⟩,
        fun va' => ?_⟩
      simp only [Mem.setDir, update_self, Dir.pteOf, Dir.setTable, hd.dir]
      by_cases h1 : pdx va' = pdx va
      · simp [h1, hnone]
      · simp [h1]

/-- the page tables that a directory has -/
def Dir.tables (d : Dir) : Fin 1024 → Bool := fun i => (d.pde i).isSome

/-- `walkpgdir` fails where there is neither a page table nor a page for one -/
theorem walkpgdir_none {va : ℕ} (hw : walkpgdir m h va true = none) :
    (m.dir h).tables (pdx va) = false ∧ m.freelist = [] := by
  unfold walkpgdir at hw
  split at hw
  · cases hw
  · rename_i hnone
    simp only [if_true, kalloc] at hw
    cases hf : m.freelist with
    | nil => simp [Dir.tables, hnone]
    | cons f fs => simp [hf] at hw

/-- what `walkpgdir` takes: nothing where the page table is, else one page, and the page table is there now -/
theorem walkpgdir_tables {va : ℕ} (hw : walkpgdir m h va true = some m') :
    ((m.dir h).tables (pdx va) = true ∧ m' = m) ∨
    ((m.dir h).tables (pdx va) = false ∧ m.freelist.length = m'.freelist.length + 1 ∧
      (m'.dir h).tables = update (m.dir h).tables (pdx va) true) := by
  unfold walkpgdir at hw
  split at hw
  · rename_i t ht
    cases hw
    exact Or.inl ⟨by simp [Dir.tables, ht], rfl⟩
  · rename_i hnone
    simp only [if_true, kalloc] at hw
    cases hf : m.freelist with
    | nil => simp [hf] at hw
    | cons f fs =>
      simp only [hf, Option.some.injEq] at hw
      subst hw
      refine Or.inr ⟨by simp [Dir.tables, hnone], by simp [Mem.setDir], funext fun i => ?_⟩
      by_cases hi : i = pdx va
      · subst hi
        simp [Dir.tables, Mem.setDir, Dir.setTable]
      · simp [Dir.tables, Mem.setDir, Dir.setTable, hi]

/-- a store into an entry takes no page and makes no page table -/
theorem setPte_tables (m : Mem) (h va : ℕ) (e : Option Pte) :
    (m.setPte h va e).freelist = m.freelist ∧ ((m.setPte h va e).dir h).tables = (m.dir h).tables := by
  unfold Mem.setPte
  split
  · exact ⟨rfl, rfl⟩
  · rename_i t ht
    refine ⟨rfl, funext fun i => ?_⟩
    by_cases hi : i = pdx va
    · subst hi
      simp [Dir.tables, Mem.setDir, Dir.setTable, ht]
    · simp [Dir.tables, Mem.setDir, Dir.setTable, hi]

/-- the entry of page `v` is set, and no other -/
theorem setPte_page {v : ℕ} (hv : v < 2 ^ 20) {t : PageTable} (ht : (m.dir h).pde (pdx (v * PGSIZE)) = some t)
    (e : Option Pte) {w : ℕ} (hw : w < 2 ^ 20) :
    ((m.setPte h (v * PGSIZE) e).dir h).pteOf (w * PGSIZE) = if w = v then e else (m.dir h).pteOf (w * PGSIZE) := by
  rw [pteOf_setPte ht]
  simp only [page_index hv hw]

/-- one round of `mappages` that found or made a page table -/
theorem map_page {v : ℕ} (hv : v < 2 ^ 20) (hw : walkpgdir m h (v * PGSIZE) true = some m₁) (e : Pte) :
    Only h m (m₁.setPte h (v * PGSIZE) (some e)) ∧ ∀ w, w < 2 ^ 20 →
      ((m₁.setPte h (v * PGSIZE) (some e)).dir h).pteOf (w * PGSIZE) =
        if w = v then some e else (m.dir h).pteOf (w * PGSIZE) := by
  obtain ⟨ho, ⟨t, ht⟩, hp⟩ := walkpgdir_some hw
  refine ⟨ho.trans (only_setPte m₁ h _ _), fun w hw' => ?_⟩
  rw [setPte_page hv ht _ hw', hp]

/-- what a page takes beside itself: nothing where its page table is, else one free page for the table -/
def Takes (h va : ℕ) (m m' : Mem) : Prop :=
  ((m.dir h).tables (pdx va) = true ∧ m'.freelist = m.freelist ∧ (m'.dir h).tables = (m.dir h).tables) ∨
  ((m.dir h).tables (pdx va) = false ∧ m.freelist.length = m'.freelist.length + 1 ∧
    (m'.dir h).tables = update (m.dir h).tables (pdx va) true)

theorem map_takes {va : ℕ} (hw : walkpgdir m h va true = some m₁) (e : Pte) :
    Takes h va m (m₁.setPte h va (some e)) := by
  obtain ⟨hf, ht⟩ := setPte_tables m₁ h va (some e)
  rcases walkpgdir_tables hw with ⟨h1, rfl⟩ | ⟨h1, h2, h3⟩
  · exact Or.inl ⟨h1, hf, ht⟩
  · exact Or.inr ⟨h1, by rw [hf, h2], ht.trans h3⟩

end Stores

/-! ## The pages that are present -/

/-- the user pages of the directory that are present are those of `S` -/
def Dir.Holds (d : Dir) (S : ℕ → Prop) : Prop := ∀ v, v < USERPAGES → ((d.pteOf (v * PGSIZE)).isSome = true ↔ S v)

/-- the user pages of the directory that are present are the first `k` -/
def Dir.Extent (d : Dir) (k : ℕ) : Prop := d.Holds (· < k)

theorem user_lt {v : ℕ} (hv : v < USERPAGES) : v < 2 ^ 20 := by
  unfold USERPAGES at hv
  omega

/-- a page in the way of `deallocuvm`: there is no table, no entry, or a page to free -/
theorem pteOf_none_of_pde {d : Dir} {va : ℕ} (hp : d.pde (pdx va) = none) : d.pteOf va = none := by
  simp [Dir.pteOf, hp]

theorem pteOf_eq {d : Dir} {va : ℕ} {t : PageTable} (hp : d.pde (pdx va) = some t) : d.pteOf va = t.pte (ptx va) := by
  simp [Dir.pteOf, hp]

/-! `allocuvm` -/

/-- counting the free pages: from address `a` on, each page takes one, and one more if its page table is not in `has`;
they do not run out just where a page table is due -/
def tablesFit (newsz : ℕ) : ℕ → ℕ → (Fin 1024 → Bool) → ℕ → Bool
  | 0, _, _, _ => true
  | _ + 1, _, _, 0 => true
  | k + 1, a, has, free + 1 =>
    if newsz ≤ a then true
    else if has (pdx a) then tablesFit newsz k (a + PGSIZE) has free
    else if free = 0 then false
    else tablesFit newsz k (a + PGSIZE) (update has (pdx a) true) (free - 1)

theorem tablesFit_succ {newsz k a free : ℕ} {has : Fin 1024 → Bool} (ha : a < newsz) :
    tablesFit newsz (k + 1) a has (free + 1) =
      if has (pdx a) then tablesFit newsz k (a + PGSIZE) has free
      else if free = 0 then false
      else tablesFit newsz k (a + PGSIZE) (update has (pdx a) true) (free - 1) := by
  rw [tablesFit, if_neg (by omega)]

/-- the page tables that `allocuvm` needs fit into the free memory, or a page for the user is what it lacks first -/
def AllocFits (m : Mem) (h oldsz newsz : ℕ) : Prop :=
  tablesFit newsz (newsz / PGSIZE + 1) (pgroundup oldsz) (m.dir h).tables m.freelist.length = true

instance (m : Mem) (h oldsz newsz : ℕ) : Decidable (AllocFits m h oldsz newsz) := by
  unfold AllocFits
  infer_instance

/-! ## New directories -/

/-- the linker puts the kernel's data on a page of its own, after the text and before the end of physical memory -/
structure Linked (m : Mem) : Prop where
  aligned : m.data % PGSIZE = 0
  after : KERNBASE + EXTMEM < m.data
  before : m.data < KERNBASE + PHYSTOP

theorem Linked.of_data {m m' : Mem} (hl : Linked m) (hdata : m'.data = m.data) : Linked m' :=
  ⟨hdata ▸ hl.aligned, hdata ▸ hl.after, hdata ▸ hl.before⟩

/-- the directories that existed are as they were -/
structure Older (m m' : Mem) : Prop where
  dir : ∀ h, h < m.nextDir → m'.dir h = m.dir h
  nextDir : m.nextDir ≤ m'.nextDir
  data : m'.data = m.data

section NewDir

variable {m m₁ m' : Mem}

theorem SameDirs.older (hs : SameDirs m m') : Older m m' := ⟨fun h _ => by rw [hs.dir], hs.nextDir.ge, hs.data⟩

/-- the ranges of the list follow each other, from page `b` on -/
def Stacked : ℕ → List Kmap → Prop
  | _, [] => True
  | b, r :: rs => ∃ v n, r.virt = v * PGSIZE ∧ (r.physEnd + 2 ^ 32 - r.physStart) % 2 ^ 32 = (n + 1) * PGSIZE ∧
      b ≤ v ∧ v + n < 2 ^ 20 ∧ Stacked (v + n + 1) rs

/-- the kernel's ranges follow each other from KERNBASE on -/
theorem kmap_stacked (hl : Linked m) : Stacked USERPAGES (kmap m.data) := by
  obtain ⟨h1, h2, h3⟩ := hl
  simp only [PGSIZE, KERNBASE, EXTMEM, PHYSTOP] at h1 h2 h3
  refine ⟨0x80000, 0xff, rfl, rfl, le_rfl, by decide, 0x80100, m.data / 4096 - 0x80101, rfl, ?_, by decide, by omega,
    m.data / 4096, 0x8dfff - m.data / 4096, ?_, ?_, by omega, by omega, 0xfe000, 0x1fff, rfl, rfl, by omega, by decide,
    trivial⟩
  · simp only [PGSIZE, KERNBASE, EXTMEM]
    omega
  · simp only [PGSIZE]
    omega
  · simp only [PGSIZE, KERNBASE, PHYSTOP]
    omega

/-- a step on a directory that is newer than all those of `m` -/
theorem Older.only (ho : Older m m₁) {d : ℕ} (hd : m.nextDir ≤ d) (hm : Only d m₁ m') : Older m m' :=
  ⟨fun h hh => (hm.dir h (by omega)).trans (ho.dir h hh), ho.nextDir.trans hm.nextDir.ge, hm.data.trans ho.data⟩

end NewDir

end Xv6Threads.Memory
