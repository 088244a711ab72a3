/-
`copyuvm`: the copy of an address space, counting the pages it takes.

A new directory takes a page, 64 pages for the page tables of the kernel, a page for each page of the user, and one for a
page table before every 1024th of them. Memory may run out at any of these. `setupkvm` gives nothing back then; `copyuvm`
gives back the directory and what is mapped in it, but not a page whose page table could not be made.

Every page of the copy is user-writable, whatever the original was. The page below the stack, from which `exec` took the
user's access, is accessible in the copy.
- `setupkvm_exact`, `freevm_exact`, `copyLoop_ends`: what each function does with the pages, for every amount of memory.
- `copyuvm_ends`: the ways in which `copyuvm` ends, told from the number of free pages.
- `copyuvm_faithful_iff`: with enough memory the copy is faithful exactly if every page of the original is user-writable.
- `guard_page_copied`: after `exec` one is not.
-/
import Xv6Threads.Memory.Dealloc

namespace Xv6Threads.Memory

open Function

/-! ## Page tables of the kernel -/

/-- at most page tables have been added to directory `h` -/
structure Tabled (h : ℕ) (m m' : Mem) : Prop where
  only : Only h m m'
  kend : m'.kend = m.kend
  frame : (m'.dir h).frame = (m.dir h).frame
  page : m'.page = m.page
  suffix : m'.freelist <:+ m.freelist
  tables : (m'.freelist : Multiset Frame) + (m'.dir h).tableFrames = m.freelist + (m.dir h).tableFrames
  mono : ∀ i, (m.dir h).tables i = true → (m'.dir h).tables i = true

section Tables

variable {h : ℕ} {m m₁ m' : Mem}

theorem Tabled.refl (h : ℕ) (m : Mem) : Tabled h m m :=
  ⟨.refl h m, rfl, rfl, rfl, List.suffix_rfl, rfl, fun _ hi => hi⟩

theorem Tabled.trans (h₁ : Tabled h m m₁) (h₂ : Tabled h m₁ m') : Tabled h m m' :=
  ⟨h₁.only.trans h₂.only, h₂.kend.trans h₁.kend, h₂.frame.trans h₁.frame, h₂.page.trans h₁.page,
    h₂.suffix.trans h₁.suffix, h₂.tables.trans h₁.tables, fun i hi => h₂.mono i (h₁.mono i hi)⟩

/-- one round of `mappages`: the page table of the address is there, and no other is new -/
theorem map_tabled {va : ℕ} (hw : walkpgdir m h va true = some m₁) (e : Pte) :
    Tabled h m (m₁.setPte h va (some e)) ∧ ((m₁.setPte h va (some e)).dir h).tables (pdx va) = true ∧
      ∀ i, ((m₁.setPte h va (some e)).dir h).tables i = true → (m.dir h).tables i = true ∨ pdx va = i := by
  obtain ⟨hkend, hframe, hpage, hsuffix, htables⟩ := walkpgdir_ledger hw
  obtain ⟨hframe', htables'⟩ := setPte_frame m₁ h va (some e)
  obtain ⟨hpage', hkend'⟩ := setPte_page_eq m₁ h va (some e)
  have hfree := (setPte_tables m₁ h va (some e)).1
  have hsame := tables_congr htables'
  have honly := (walkpgdir_some hw).1.trans (only_setPte m₁ h va (some e))
  have hnew : (m₁.dir h).tables (pdx va) = true ∧ ∀ i, (m₁.dir h).tables i = true ↔ (m.dir h).tables i = true ∨ pdx va = i := by
    rcases walkpgdir_tables hw with ⟨hhas, rfl⟩ | ⟨_, _, hupdate⟩
    · refine ⟨hhas, fun i => ⟨.inl, ?_⟩⟩
      intro hi
      rcases hi with hi | rfl
      · exact hi
      · exact hhas
    · rw [hupdate]
      refine ⟨update_self _ _ _, fun i => ?_⟩
      by_cases hi : i = pdx va
      · subst hi
        simp
      · rw [update_of_ne hi]
        exact ⟨.inl, fun h => h.resolve_right fun heq => hi heq.symm⟩
  rw [hsame]
  refine ⟨⟨honly, hkend'.trans hkend, hframe'.trans hframe, hpage'.trans hpage, by rw [hfree]; exact hsuffix, ?_, ?_⟩,
    hnew.1, fun i hi => (hnew.2 i).1 hi⟩
  · rw [hfree, tableFrames_congr htables']
    exact htables
  · intro i hi
    rw [hsame]
    exact (hnew.2 i).2 (.inl hi)

/-- what `mappages` on the pages from `v` to `v + n` leaves -/
structure MapEnds (h v n : ℕ) (m m' : Mem) (ok : Bool) : Prop where
  tabled : Tabled h m m'
  kept : ∀ i, i < 2 ^ 20 → i < v ∨ v + n < i → (m'.dir h).pteOf (i * PGSIZE) = (m.dir h).pteOf (i * PGSIZE)
  within : ∀ i, (m'.dir h).tables i = true → (m.dir h).tables i = true ∨ ∃ x, v ≤ x ∧ x ≤ v + n ∧ pdx (x * PGSIZE) = i
  all : ok = true → ∀ x, v ≤ x → x ≤ v + n → (m'.dir h).tables (pdx (x * PGSIZE)) = true
  empty : ok = false → m'.freelist = [] ∧ ∃ x, v ≤ x ∧ x ≤ v + n ∧ (m'.dir h).tables (pdx (x * PGSIZE)) = false

theorem mapLoop_ends {w u : Bool} {n : ℕ} : ∀ {v k : ℕ} {pa : Frame} {m : Mem}, n < k → v + n < 2 ^ 20 →
    (∀ i, v ≤ i → i ≤ v + n → (m.dir h).pteOf (i * PGSIZE) = none) →
    ∃ m' ok, mapLoop h ((v + n) * PGSIZE) w u k (v * PGSIZE) pa m = .ok (m', ok) ∧ MapEnds h v n m m' ok := by
  induction n with
  | zero =>
    intro v k pa m hk hv hnone
    obtain ⟨k, rfl⟩ : ∃ k', k = k' + 1 := ⟨k - 1, by omega⟩
    simp only [mapLoop]
    cases hw : walkpgdir m h (v * PGSIZE) true with
    | none =>
      obtain ⟨htable, hempty⟩ := walkpgdir_none hw
      exact ⟨m, false, rfl, .refl h m, fun _ _ _ => rfl, fun _ hi => .inl hi, fun hok => (by cases hok),
        fun _ => ⟨hempty, v, le_rfl, by omega, htable⟩⟩
    | some m₁ =>
      obtain ⟨_, hp⟩ := map_page (by omega) hw ⟨pa, w, u⟩
      obtain ⟨htabled, hhas, hwithin⟩ := map_tabled hw ⟨pa, w, u⟩
      simp only
      rw [(walkpgdir_some hw).2.2, hnone v le_rfl (by omega)]
      simp only [Option.isSome_none, Bool.false_eq_true, if_false, Nat.add_zero, if_true]
      refine ⟨_, true, rfl, htabled, ?_, ?_, ?_, fun hok => by cases hok⟩
      · intro i hi hne
        rw [hp i hi, if_neg (by omega)]
      · intro i hi
        exact (hwithin i hi).imp id fun heq => ⟨v, le_rfl, by omega, heq⟩
      · intro _ x hx hx'
        obtain rfl : x = v := by omega
        exact hhas
  | succ n ih =>
    intro v k pa m hk hv hnone
    obtain ⟨k, rfl⟩ : ∃ k', k = k' + 1 := ⟨k - 1, by omega⟩
    simp only [mapLoop]
    cases hw : walkpgdir m h (v * PGSIZE) true with
    | none =>
      obtain ⟨htable, hempty⟩ := walkpgdir_none hw
      exact ⟨m, false, rfl, .refl h m, fun _ _ _ => rfl, fun _ hi => .inl hi, fun hok => (by cases hok),
        fun _ => ⟨hempty, v, le_rfl, by omega, htable⟩⟩
    | some m₁ =>
      obtain ⟨_, hp⟩ := map_page (by omega) hw ⟨pa, w, u⟩
      obtain ⟨htabled, hhas, hwithin⟩ := map_tabled hw ⟨pa, w, u⟩
      have hne : v * PGSIZE ≠ (v + (n + 1)) * PGSIZE := by
        unfold PGSIZE
        omega
      have hnext : (v * PGSIZE + PGSIZE) % 2 ^ 32 = (v + 1) * PGSIZE := by
        unfold PGSIZE
        omega
      simp only
      rw [(walkpgdir_some hw).2.2, hnone v le_rfl (by omega), hnext]
      simp only [Option.isSome_none, Bool.false_eq_true, if_false, if_neg hne]
      obtain ⟨m', ok, he, hends⟩ := @ih (v + 1) k (pa + 1) (m₁.setPte h (v * PGSIZE) (some ⟨pa, w, u⟩)) (by omega)
        (by omega) (fun i hi hi' => by
          rw [hp i (by omega), if_neg (by omega)]
          exact hnone i (by omega) (by omega))
      rw [show v + (n + 1) = (v + 1) + n by omega, he]
      refine ⟨m', ok, rfl, htabled.trans hends.tabled, ?_, ?_, ?_, ?_⟩
      · intro i hi hout
        rw [hends.kept i hi (by omega), hp i hi, if_neg (by omega)]
      · intro i hi
        rcases hends.within i hi with hi' | ⟨x, hx, hx', heq⟩
        · exact (hwithin i hi').imp id fun heq => ⟨v, le_rfl, by omega, heq⟩
        · exact .inr ⟨x, by omega, by omega, heq⟩
      · intro hok x hx hx'
        by_cases hxv : x = v
        · rw [hxv]
          exact hends.tabled.mono _ hhas
        · exact hends.all hok x (by omega) (by omega)
      · intro hok
        obtain ⟨hempty, x, hx, hx', hno⟩ := hends.empty hok
        exact ⟨hempty, x, by omega, by omega, hno⟩

/-- the pages of an entry of `kmap` -/
def Kmap.Covers (r : Kmap) (x : ℕ) : Prop :=
  r.virt ≤ x * PGSIZE ∧ x * PGSIZE < r.virt + (r.physEnd + 2 ^ 32 - r.physStart) % 2 ^ 32

/-- what the loop of `setupkvm` over the entries `rs` leaves -/
structure KmapEnds (h : ℕ) (rs : List Kmap) (m m' : Mem) (r : Option ℕ) : Prop where
  tabled : Tabled h m m'
  within : ∀ i, (m'.dir h).tables i = true →
    (m.dir h).tables i = true ∨ ∃ k ∈ rs, ∃ x, x < 2 ^ 20 ∧ k.Covers x ∧ pdx (x * PGSIZE) = i
  ends : (r = some h ∧ ∀ k ∈ rs, ∀ x, x < 2 ^ 20 → k.Covers x → (m'.dir h).tables (pdx (x * PGSIZE)) = true) ∨
    (r = none ∧ m'.freelist = [] ∧ ∃ k ∈ rs, ∃ x, x < 2 ^ 20 ∧ k.Covers x ∧ (m'.dir h).tables (pdx (x * PGSIZE)) = false)

theorem kmapLoop_ends {rs : List Kmap} : ∀ {b : ℕ} {m : Mem}, Stacked b rs →
    (∀ i, b ≤ i → i < 2 ^ 20 → (m.dir h).pteOf (i * PGSIZE) = none) →
    ∃ m' r, kmapLoop h rs m = .ok (m', r) ∧ KmapEnds h rs m m' r := by
  induction rs with
  | nil =>
    intro b m _ _
    exact ⟨m, some h, rfl, .refl h m, fun _ hi => .inl hi, .inl ⟨rfl, fun k hk => absurd hk List.not_mem_nil⟩⟩
  | cons k ks ih =>
    intro b m hstack hnone
    obtain ⟨v, n, hva, hsize, hb, hv, hrest⟩ := hstack
    have hcovers : ∀ x, k.Covers x ↔ v ≤ x ∧ x ≤ v + n := by
      intro x
      unfold Kmap.Covers
      rw [hva, hsize]
      unfold PGSIZE
      omega
    have ha : pgrounddown (v * PGSIZE) = v * PGSIZE := by
      unfold pgrounddown PGSIZE
      omega
    have hlast : pgrounddown ((v * PGSIZE + (n + 1) * PGSIZE + 2 ^ 32 - 1) % 2 ^ 32) = (v + n) * PGSIZE := by
      unfold pgrounddown PGSIZE
      omega
    obtain ⟨m₁, ok, he, hmap⟩ : ∃ m' ok, mapLoop h ((v + n) * PGSIZE) k.w false (2 ^ 20) (v * PGSIZE) (k.physStart / PGSIZE) m =
        .ok (m', ok) ∧ MapEnds h v n m m' ok :=
      mapLoop_ends (by omega) hv fun i hi hi' => hnone i (by omega) (by omega)
    have hrun : mappages m h k.virt ((k.physEnd + 2 ^ 32 - k.physStart) % 2 ^ 32) (k.physStart / PGSIZE) k.w false =
        .ok (m₁, ok) := by
      unfold mappages
      rw [hva, hsize, ha, hlast, he]
    simp only [kmapLoop, hrun]
    cases ok with
    | false =>
      obtain ⟨hempty, x, hx, hx', hno⟩ := hmap.empty rfl
      refine ⟨m₁, none, rfl, hmap.tabled, ?_, .inr ⟨rfl, hempty, k, List.mem_cons_self, x, by omega, (hcovers x).2 ⟨hx, hx'⟩, hno⟩⟩
      intro i hi
      refine (hmap.within i hi).imp id ?_
      rintro ⟨x, hx, hx', heq⟩
      exact ⟨k, List.mem_cons_self, x, by omega, (hcovers x).2 ⟨hx, hx'⟩, heq⟩
    | true =>
      simp only
      obtain ⟨m', r, he', hends⟩ := ih hrest fun i hi hi' => by
        rw [hmap.kept i hi' (by omega)]
        exact hnone i (by omega) hi'
      refine ⟨m', r, he', hmap.tabled.trans hends.tabled, ?_, ?_⟩
      · intro i hi
        rcases hends.within i hi with hi' | ⟨k', hk', x, hx, hc, heq⟩
        · refine (hmap.within i hi').imp id ?_
          rintro ⟨x, hx, hx', heq⟩
          exact ⟨k, List.mem_cons_self, x, by omega, (hcovers x).2 ⟨hx, hx'⟩, heq⟩
        · exact .inr ⟨k', List.mem_cons_of_mem k hk', x, hx, hc, heq⟩
      · rcases hends.ends with ⟨hr, hall⟩ | ⟨hr, hempty, k', hk', x, hx, hc, hno⟩
        · refine .inl ⟨hr, ?_⟩
          intro k' hk' x hx hc
          rcases List.mem_cons.1 hk' with rfl | hk'
          · obtain ⟨hlow, hhigh⟩ := (hcovers x).1 hc
            exact hends.tabled.mono _ (hmap.all rfl x hlow hhigh)
          · exact hall k' hk' x hx hc
        · exact .inr ⟨hr, hempty, k', List.mem_cons_of_mem k hk', x, hx, hc, hno⟩

/-- the indices of the kernel's page tables: KERNBASE up to PHYSTOP, and the devices -/
def kernelTables : Finset (Fin 1024) := Finset.univ.filter fun i => (512 ≤ i.val ∧ i.val < 568) ∨ 1016 ≤ i.val

theorem card_kernelTables : kernelTables.card = 64 := by decide +kernel

theorem mem_kernelTables {i : Fin 1024} : i ∈ kernelTables ↔ (512 ≤ i.val ∧ i.val < 568) ∨ 1016 ≤ i.val := by
  unfold kernelTables
  rw [Finset.mem_filter_univ]

theorem pdx_page_val {x : ℕ} (hx : x < 2 ^ 20) : (pdx (x * PGSIZE)).val = x / 1024 := by
  rw [pdx_page, Fin.val_ofNat]
  omega

/-- the entries of `kmap` cover these page tables -/
theorem kmap_covers (hl : Linked m) (i : Fin 1024) :
    (∃ k ∈ kmap m.data, ∃ x, x < 2 ^ 20 ∧ k.Covers x ∧ pdx (x * PGSIZE) = i) ↔ i ∈ kernelTables := by
  obtain ⟨haligned, hafter, hbefore⟩ := hl
  simp only [PGSIZE, KERNBASE, EXTMEM, PHYSTOP] at haligned hafter hbefore
  rw [mem_kernelTables]
  constructor
  · rintro ⟨k, hk, x, hx, hc, heq⟩
    have hi := congrArg Fin.val heq
    rw [pdx_page_val hx] at hi
    simp only [kmap, List.mem_cons, List.not_mem_nil, or_false] at hk
    rcases hk with rfl | rfl | rfl | rfl <;>
      simp only [Kmap.Covers, PGSIZE, KERNBASE, EXTMEM, PHYSTOP, DEVSPACE] at hc <;> omega
  · intro hi
    have hlt := i.isLt
    -- the first page of page table `i`
    have hpdx : pdx (i.val * 1024 * PGSIZE) = i := by
      apply Fin.ext
      rw [pdx_page_val (by omega)]
      omega
    have hfind : ∀ k ∈ kmap m.data, k.Covers (i.val * 1024) →
        ∃ k ∈ kmap m.data, ∃ x, x < 2 ^ 20 ∧ k.Covers x ∧ pdx (x * PGSIZE) = i :=
      fun k hk hc => ⟨k, hk, i.val * 1024, by omega, hc, hpdx⟩
    by_cases hdev : 1016 ≤ i.val
    · apply hfind ⟨DEVSPACE, DEVSPACE, 0, true⟩ (by simp [kmap])
      simp only [Kmap.Covers, PGSIZE, DEVSPACE]
      omega
    · by_cases hio : i.val * 1024 * 4096 < 0x80000000 + 0x100000
      · apply hfind ⟨KERNBASE, 0, EXTMEM, true⟩ (by simp [kmap])
        simp only [Kmap.Covers, PGSIZE, KERNBASE, EXTMEM]
        omega
      · by_cases htext : i.val * 1024 * 4096 < m.data
        · apply hfind ⟨KERNBASE + EXTMEM, EXTMEM, m.data - KERNBASE, false⟩ (by simp [kmap])
          simp only [Kmap.Covers, PGSIZE, KERNBASE, EXTMEM]
          omega
        · apply hfind ⟨m.data, m.data - KERNBASE, PHYSTOP, true⟩ (by simp [kmap])
          simp only [Kmap.Covers, PGSIZE, KERNBASE, PHYSTOP]
          omega

theorem card_tableFrames (d : Dir) : Multiset.card d.tableFrames = (Finset.univ.filter fun i => d.tables i = true).card := by
  unfold Dir.tableFrames
  rw [Multiset.card_sum, Finset.card_filter]
  apply Finset.sum_congr rfl
  intro i _
  cases ht : d.pde i with
  | none => simp [Dir.tables, ht]
  | some t => simp [Dir.tables, ht]

/-- a new directory: without user pages, with the page tables of the kernel, made of pages that were free -/
structure NewDir (m m' : Mem) : Prop where
  older : Older m m'
  next : m'.nextDir = m.nextDir + 1
  kend : m'.kend = m.kend
  page : m'.page = m.page
  extent : (m'.dir m.nextDir).Extent 0
  tables : ∀ i, (m'.dir m.nextDir).tables i = true ↔ i ∈ kernelTables
  suffix : m'.freelist <:+ m.freelist
  balance : (m.freelist : Multiset Frame) =
    m'.freelist + (m'.dir m.nextDir).tableFrames + {(m'.dir m.nextDir).frame}

theorem NewDir.length (hd : NewDir m m') : m.freelist.length = m'.freelist.length + 65 := by
  have hcard := congrArg Multiset.card hd.balance
  have htables : (Finset.univ.filter fun i => (m'.dir m.nextDir).tables i = true) = kernelTables := by
    ext i
    rw [Finset.mem_filter_univ, hd.tables i]
  rw [Multiset.card_add, Multiset.card_add, card_tableFrames, htables, card_kernelTables, Multiset.card_singleton,
    Multiset.coe_card, Multiset.coe_card] at hcard
  exact hcard

/-- **`setupkvm`** takes 65 pages. With fewer it fails, and if it had any it keeps them all. -/
theorem setupkvm_exact (hl : Linked m) :
    (m.freelist = [] ∧ setupkvm m = .ok (m, none)) ∨
    (∃ m', 1 ≤ m.freelist.length ∧ m.freelist.length < 65 ∧ setupkvm m = .ok (m', none) ∧ m'.freelist = [] ∧ Older m m' ∧
      m'.kend = m.kend ∧ m'.page = m.page) ∨
    ∃ m', 65 ≤ m.freelist.length ∧ setupkvm m = .ok (m', some m.nextDir) ∧ NewDir m m' := by
  unfold setupkvm
  cases hk : kalloc m with
  | none => exact .inl ⟨kalloc_none hk, rfl⟩
  | some p =>
    right
    obtain ⟨f, m₁⟩ := p
    obtain ⟨hfree, heq⟩ := kalloc_some hk
    have hd := kalloc_dirs hk
    have hkend : m₁.kend = m.kend := kalloc_kend hk
    have hpage : m₁.page = m.page := by rw [heq]
    simp only
    rw [← hd.nextDir]
    generalize hstart : ({ m₁.setDir m₁.nextDir ⟨f, fun _ => none⟩ with nextDir := m₁.nextDir + 1 } : Mem) = m₂
    have hdir₂ : m₂.dir m₁.nextDir = ⟨f, fun _ => none⟩ := by
      rw [← hstart]
      exact update_self _ _ _
    have hempty : ∀ va, (m₂.dir m₁.nextDir).pteOf va = none := by
      intro va
      rw [hdir₂]
      rfl
    have hnotables : (m₂.dir m₁.nextDir).tableFrames = 0 := by
      rw [hdir₂]
      unfold Dir.tableFrames
      exact Finset.sum_eq_zero fun _ _ => rfl
    have hfree₂ : m₂.freelist = m₁.freelist := by rw [← hstart]; rfl
    have hold : ∀ h', h' < m₁.nextDir → m₂.dir h' = m.dir h' := by
      intro h' hh
      rw [← hstart, ← hd.dir]
      exact update_of_ne hh.ne _ _
    have hdata₂ : m₂.data = m.data := by
      rw [← hstart, ← hd.data]
      rfl
    have hnext₂ : m₂.nextDir = m₁.nextDir + 1 := by rw [← hstart]
    have hkend₂ : m₂.kend = m.kend := by
      rw [← hkend, ← hstart]
      rfl
    have hpage₂ : m₂.page = m.page := by
      rw [← hpage, ← hstart]
      rfl
    have hl₁ : Linked m₁ := hl.of_data hd.data
    obtain ⟨m', r, hrun, hends⟩ := kmapLoop_ends (h := m₁.nextDir) (m := m₂) (kmap_stacked hl₁) fun i _ _ => hempty _
    have ht := hends.tabled
    have htables : (m'.freelist : Multiset Frame) + (m'.dir m₁.nextDir).tableFrames = m₁.freelist := by
      rw [ht.tables, hnotables, add_zero, hfree₂]
    have hwithin : ∀ i, (m'.dir m₁.nextDir).tables i = true → i ∈ kernelTables := by
      intro i hi
      rcases hends.within i hi with hi' | hcov
      · rw [hdir₂] at hi'
        cases hi'
      · exact (kmap_covers hl₁ i).1 hcov
    have hsub : (Finset.univ.filter fun i => (m'.dir m₁.nextDir).tables i = true) ⊆ kernelTables := by
      intro i hi
      exact hwithin i ((Finset.mem_filter_univ i).1 hi)
    have hcount : m'.freelist.length + (Finset.univ.filter fun i => (m'.dir m₁.nextDir).tables i = true).card =
        m₁.freelist.length := by
      have hcard := congrArg Multiset.card htables
      rwa [Multiset.card_add, card_tableFrames, Multiset.coe_card, Multiset.coe_card] at hcard
    have holder : Older m m' := by
      refine ⟨fun h' hh => ?_, ?_, ht.only.data.trans hdata₂⟩
      · rw [← hd.nextDir] at hh
        rw [ht.only.dir h' hh.ne, hold h' hh]
      · rw [ht.only.nextDir, hnext₂, hd.nextDir]
        omega
    have hlen : m.freelist.length = m₁.freelist.length + 1 := kalloc_length hk
    rw [hrun]
    rcases hends.ends with ⟨rfl, hall⟩ | ⟨rfl, hnil, k, hk', x, hx, hc, hno⟩
    · -- every page table is there
      right
      have heq : ∀ i, (m'.dir m₁.nextDir).tables i = true ↔ i ∈ kernelTables := by
        intro i
        refine ⟨hwithin i, ?_⟩
        intro hi
        obtain ⟨k, hk', x, hx, hc, rfl⟩ := (kmap_covers hl₁ i).2 hi
        exact hall k hk' x hx hc
      have hnew : NewDir m m' := by
        refine ⟨holder, ?_, ht.kend.trans hkend₂, ht.page.trans hpage₂, ?_, ?_, ?_, ?_⟩
        · rw [ht.only.nextDir, hnext₂, hd.nextDir]
        · -- a user page would have a page table of the kernel
          intro v hv
          rw [← hd.nextDir]
          simp only [Nat.not_lt_zero, iff_false, Bool.not_eq_true]
          cases hpte : (m'.dir m₁.nextDir).pteOf (v * PGSIZE) with
          | none => rfl
          | some e =>
            have hin := mem_kernelTables.1 (hwithin _ (tables_of_pteOf hpte))
            rw [pdx_page_val (user_lt hv)] at hin
            unfold USERPAGES at hv
            omega
        · rw [← hd.nextDir]
          exact heq
        · refine ht.suffix.trans ?_
          rw [hfree₂, hfree]
          exact List.suffix_cons f m₁.freelist
        · have hframe : (m'.dir m₁.nextDir).frame = f := by
            rw [ht.frame, hdir₂]
          rw [← hd.nextDir, htables, hframe, hfree, ← Multiset.cons_coe, ← Multiset.singleton_add, add_comm]
      have hlen' := hnew.length
      exact ⟨m', by omega, rfl, hnew⟩
    · left
      refine ⟨m', by omega, ?_, rfl, hnil, holder, ht.kend.trans hkend₂, ht.page.trans hpage₂⟩
      -- a page table of the kernel is missing and no page is left, so there were fewer than 64 after the first
      have hlt : (Finset.univ.filter fun i => (m'.dir m₁.nextDir).tables i = true).card < kernelTables.card := by
        apply Finset.card_lt_card
        refine Finset.ssubset_iff_subset_ne.2 ⟨hsub, ?_⟩
        intro heq
        have hin : pdx (x * PGSIZE) ∈ kernelTables := (kmap_covers hl₁ _).1 ⟨k, hk', x, hx, hc, rfl⟩
        rw [← heq, Finset.mem_filter_univ, hno] at hin
        cases hin
      rw [card_kernelTables] at hlt
      rw [hnil, List.length_nil] at hcount
      omega

end Tables

/-! ## Giving back a directory -/

theorem kfree_cases (m : Mem) (f : Frame) : (kfree m f = .error .kfree ∧ ¬ Freeable m f) ∨
    ∃ m', kfree m f = .ok m' ∧ SameDirs m m' ∧ m'.kend = m.kend ∧ (m'.freelist : Multiset Frame) = {f} + m.freelist ∧
      ∀ g, g ≠ f → m'.page g = m.page g := by
  unfold kfree
  split
  · rename_i hbad
    exact .inl ⟨rfl, fun hf => hbad.elim (not_lt.2 hf.2.1) (not_le.2 hf.2.2)⟩
  · refine .inr ⟨_, rfl, ⟨rfl, rfl, rfl⟩, rfl, ?_, fun g hne => update_of_ne hne _ _⟩
    rw [Multiset.singleton_add, Multiset.cons_coe]

theorem freeTables_exact (d : Dir) (is : List (Fin 1024)) : ∀ m : Mem,
    (freeTables d is m = .error .kfree ∧ ¬ ∀ i t, d.pde i = some t → Freeable m t.frame) ∨
    ∃ m', freeTables d is m = .ok m' ∧ SameDirs m m' ∧ m'.kend = m.kend ∧
      (m'.freelist : Multiset Frame) = (is.map fun i => (d.pde i).elim 0 fun t => {t.frame}).sum + m.freelist ∧
      ∀ g, g ∉ d.tableFrames → m'.page g = m.page g := by
  induction is with
  | nil =>
    intro m
    exact .inr ⟨m, rfl, ⟨rfl, rfl, rfl⟩, rfl, (zero_add _).symm, fun _ _ => rfl⟩
  | cons i is ih =>
    intro m
    simp only [freeTables, List.map_cons, List.sum_cons]
    cases ht : d.pde i with
    | none =>
      simp only [Option.elim_none, zero_add]
      exact ih m
    | some t =>
      rcases kfree_cases m t.frame with ⟨hk, hbad⟩ | ⟨m₁, hk, hdirs₁, hkend₁, hlist₁, hpage₁⟩ <;> simp only [hk]
      · exact .inl ⟨trivial, fun hall => hbad (hall i t ht)⟩
      rcases ih m₁ with ⟨he, hbad⟩ | ⟨m', hrun, hdirs, hkend, hlist, hpage⟩
      · exact .inl ⟨he, fun hall => hbad fun j t' ht' => (hall j t' ht').of_kend hkend₁⟩
      · refine .inr ⟨m', hrun, ⟨hdirs.dir.trans hdirs₁.dir, hdirs.nextDir.trans hdirs₁.nextDir, hdirs.data.trans hdirs₁.data⟩,
          hkend.trans hkend₁, ?_, ?_⟩
        · rw [hlist, hlist₁, Option.elim_some]
          abel
        · intro g hg
          rw [hpage g hg, hpage₁ g fun heq => hg (mem_tableFrames.2 ⟨i, t, ht, heq.symm⟩)]

/-- **`freevm`** gives back the user pages, the page tables and the directory, and writes to no other page; or `kfree` does
not accept one of these. -/
theorem freevm_exact (m : Mem) (h : ℕ) :
    (freevm m h = .error .kfree ∧ ¬ (AllFreeable m h (Finset.range USERPAGES) ∧
      (∀ i t, (m.dir h).pde i = some t → Freeable m t.frame) ∧ Freeable m (m.dir h).frame)) ∨
    ∃ m', freevm m h = .ok m' ∧ Only h m m' ∧ m'.kend = m.kend ∧ (m'.freelist : Multiset Frame) =
      m.freelist + (m.dir h).tableFrames + (m.dir h).framesOn (Finset.range USERPAGES) + {(m.dir h).frame} ∧
      ∀ g, g ∉ (m.dir h).tableFrames + (m.dir h).framesOn (Finset.range USERPAGES) + {(m.dir h).frame} →
        m'.page g = m.page g := by
  have hpages : pages KERNBASE = USERPAGES := by decide
  have hstart : pages 0 = 0 := by decide
  have hrange : reached (m.dir h).tables (pages 0) (pages KERNBASE) = Finset.range USERPAGES := by
    rw [hstart, hpages, reached_eq_Ico fun v hmiss => Nat.not_lt_zero _ hmiss.2.1, Finset.range_eq_Ico]
  unfold freevm
  rcases deallocuvm_exact (m := m) (h := h) (Nat.le_refl KERNBASE) (Nat.zero_le _) with ⟨he, hbad⟩ | ⟨m₁, hok, _, hclear⟩
  · rw [hrange] at hbad
    simp only [he]
    exact .inl ⟨trivial, fun hall => hbad hall.1⟩
  rw [hrange] at hclear
  simp only [hok]
  have hsum : ((List.finRange 1024).map fun i => ((m₁.dir h).pde i).elim 0 fun t => {t.frame}).sum =
      (m.dir h).tableFrames := by
    rw [← tableFrames_congr hclear.tables]
    unfold Dir.tableFrames
    exact (Fin.sum_univ_def _).symm
  rcases freeTables_exact (m₁.dir h) (List.finRange 1024) m₁ with ⟨he, hbad⟩ | ⟨m₂, hrun, hdirs, hkend, hlist, hpage₂⟩
  · rw [he]
    refine .inl ⟨rfl, fun hall => hbad fun i t ht => ?_⟩
    have hmap := hclear.tables i
    rw [ht, Option.map_some] at hmap
    obtain ⟨t', ht', hf⟩ := Option.map_eq_some_iff.1 hmap.symm
    rw [← hf]
    exact (hall.2.1 i t' ht').of_kend hclear.kend
  rw [hsum] at hlist
  rw [hrun]
  simp only
  rcases kfree_cases m₂ (m₂.dir h).frame with ⟨hk, hbad⟩ | ⟨m', hk, hdirs', hkend', hlist', hpage'⟩ <;> rw [hk]
  · refine .inl ⟨rfl, fun hall => hbad ?_⟩
    rw [hdirs.dir, hclear.frame]
    exact hall.2.2.of_kend (hkend.trans hclear.kend)
  refine .inr ⟨m', rfl, hclear.only.trans (hdirs.only.trans hdirs'.only), hkend'.trans (hkend.trans hclear.kend), ?_, ?_⟩
  · rw [hlist', hlist, hclear.free, hdirs.dir, hclear.frame]
    abel
  · intro g hg
    rw [Multiset.mem_add, Multiset.mem_add, Multiset.mem_singleton] at hg
    push Not at hg
    rw [hpage' g (by rw [hdirs.dir, hclear.frame]; exact hg.2), hpage₂ g (by rw [tableFrames_congr hclear.tables]; exact hg.1.1),
      hclear.page g hg.1.2]

/-! ## The loop of copyuvm -/

/-- the contents of page `v` of directory `h` -/
def Mem.pageAt (m : Mem) (h v : ℕ) : Page := ((m.dir h).pteOf (v * PGSIZE)).elim (fun _ => 0) fun e => m.page e.frame

/-- the page tables of the first `k` pages -/
def tablesOf (k : ℕ) : ℕ := (k + 1023) / 1024

/-- page `v` of directory `h` is there -/
def Mem.Present (m : Mem) (h v : ℕ) : Prop := ∃ e, (m.dir h).pteOf (v * PGSIZE) = some e

/-- how the loop of `copyuvm` ends, from `m` with the new directory empty: with the copy; without a page for page `j`; with
one for page 1024k but none for its page table; or in a panic, since page `v` of the original is not present -/
inductive CopyEnds (m : Mem) (old new sz : ℕ) : Except Panic (Mem × Bool) → Prop where
  | copied {m' : Mem} : (∀ v, v < pages sz → m.Present old v) →
      pages sz + tablesOf (pages sz) ≤ m.freelist.length → Grown new 0 (pages sz) (m.pageAt old) 0 m m' →
      CopyEnds m old new sz (.ok (m', true))
  | noPage {m' : Mem} {j : ℕ} : j < pages sz → m.freelist.length = j + tablesOf j → Grown new 0 j (m.pageAt old) 0 m m' →
      CopyEnds m old new sz (.ok (m', false))
  | noTable {m' : Mem} {k : ℕ} {f : Frame} : 1024 * k < pages sz → (∀ v, v ≤ 1024 * k → m.Present old v) →
      m.freelist.length = 1025 * k + 1 → Grown new 0 (1024 * k) (m.pageAt old) {f} m m' → CopyEnds m old new sz (.ok (m', false))
  | panics {e : Panic} {v : ℕ} : v < pages sz → ¬ m.Present old v → v + tablesOf v ≤ m.freelist.length →
      CopyEnds m old new sz (.error e)

section CopyLoop

variable {m m₁ m₂ m₃ : Mem} {old new sz : ℕ}

/-- what the loop knows at page `j` -/
structure Copying (m : Mem) (old new j : ℕ) (m₁ : Mem) : Prop where
  grown : Grown new 0 j (m.pageAt old) 0 m m₁
  present : ∀ v, v < j → m.Present old v
  used : m.freelist.length = m₁.freelist.length + j + tablesOf j
  tables : ∀ i : Fin 1024, i.val < 512 → ((m₁.dir new).tables i = true ↔ 1024 * i.val < j)

/-- a page is copied: a page for it, and one for a page table if it is the first there -/
theorem Copying.snoc {j : ℕ} {f : Frame} {e : Pte} (hc : Copying m old new j m₁) (hj : j < USERPAGES)
    (hnodup : m.freelist.Nodup) (he : (m.dir old).pteOf (j * PGSIZE) = some e) (ht : Taken f (m.pageAt old j) m₁ m₂)
    (hp : Placed new j ⟨f, true, true⟩ m₂ m₃) : Copying m old new (j + 1) m₃ := by
  have hju : j < 2 ^ 20 := user_lt hj
  have hindex : (pdx (j * PGSIZE)).val = j / 1024 := pdx_page_val hju
  have hlow : (pdx (j * PGSIZE)).val < 512 := by
    rw [hindex]
    unfold USERPAGES at hj
    omega
  have hhas : (m₂.dir new).tables (pdx (j * PGSIZE)) = true ↔ j % 1024 ≠ 0 := by
    rw [ht.dirs.dir, hc.tables _ hlow, hindex]
    omega
  have hlen : m₁.freelist.length = m₂.freelist.length + 1 := by
    rw [ht.free]
    rfl
  have hused := hc.used
  refine ⟨hc.grown.snoc (Nat.zero_le j) hju hnodup ht hp, ?_, ?_, ?_⟩
  · intro v hv
    by_cases hvj : v = j
    · exact ⟨e, hvj ▸ he⟩
    · exact hc.present v (by omega)
  · unfold tablesOf at hused ⊢
    rcases hp.takes with ⟨htrue, hfree, _⟩ | ⟨hfalse, hfree, _⟩
    · have := hhas.1 htrue
      rw [hfree]
      omega
    · rw [hfalse] at hhas
      have : ¬ j % 1024 ≠ 0 := fun hne => Bool.false_ne_true (hhas.2 hne)
      omega
  · intro i hi
    have hiff : (m₃.dir new).tables i = true ↔ (m₂.dir new).tables i = true ∨ i = pdx (j * PGSIZE) := by
      rcases hp.takes with ⟨htrue, _, htables⟩ | ⟨_, _, htables⟩
      · rw [htables]
        refine ⟨.inl, ?_⟩
        intro hor
        rcases hor with hi | rfl
        · exact hi
        · exact htrue
      · rw [htables]
        by_cases hieq : i = pdx (j * PGSIZE)
        · simp [hieq]
        · simp [hieq]
    rw [hiff, ht.dirs.dir, hc.tables i hi]
    constructor
    · intro hor
      rcases hor with hlt | rfl
      · omega
      · omega
    · intro hlt
      by_cases hij : 1024 * i.val < j
      · exact .inl hij
      · right
        apply Fin.ext
        omega

/-- **The loop of `copyuvm`**, for every amount of memory. -/
theorem copyLoop_ends (hne : old ≠ new) (hsz : sz ≤ KERNBASE) (hnodup : m.freelist.Nodup)
    (hnot : ∀ v e, v < pages sz → (m.dir old).pteOf (v * PGSIZE) = some e → e.frame ∉ m.freelist)
    (hempty : (m.dir new).Extent 0) (n : ℕ) : ∀ (j : ℕ) (m₁ : Mem), j ≤ pages sz → pages sz ≤ n + j →
    Copying m old new j m₁ → CopyEnds m old new sz (copyLoop old new sz n (j * PGSIZE) m₁) := by
  have hdone : ∀ m₁, Copying m old new (pages sz) m₁ → CopyEnds m old new sz (.ok (m₁, true)) := by
    intro m₁ hc
    have hused := hc.used
    exact .copied hc.present (by omega) hc.grown
  induction n with
  | zero =>
    intro j m₁ hj hn hc
    obtain rfl : j = pages sz := by omega
    exact hdone m₁ hc
  | succ n ih =>
    intro j m₁ hj hn hc
    rw [copyLoop]
    by_cases hlt : j * PGSIZE < sz
    · rw [if_pos hlt]
      have hjp : j < pages sz := page_lt_iff.1 hlt
      have hju : j < USERPAGES := hjp.trans_le (pages_le_user hsz)
      have hold : m₁.dir old = m.dir old := hc.grown.only.dir old hne
      have hnext : j * PGSIZE + PGSIZE = (j + 1) * PGSIZE := by
        unfold PGSIZE
        omega
      rw [hold, hnext]
      have hused := hc.used
      have hmissing : (m.dir old).pteOf (j * PGSIZE) = none → ∀ e, CopyEnds m old new sz (.error e) := by
        intro hnone e
        refine .panics hjp ?_ (by omega)
        rintro ⟨e', he'⟩
        rw [hnone] at he'
        cases he'
      cases hpde : (m.dir old).pde (pdx (j * PGSIZE)) with
      | none => exact hmissing (pteOf_none_of_pde hpde) _
      | some t =>
        have hpte := pteOf_eq hpde
        simp only
        cases he : t.pte (ptx (j * PGSIZE)) with
        | none => exact hmissing (hpte.trans he) _
        | some e =>
          rw [he] at hpte
          simp only
          cases hk : kalloc m₁ with
          | none =>
            rw [kalloc_none hk, List.length_nil] at hused
            exact .noPage hjp (by omega) hc.grown
          | some p =>
            obtain ⟨f, m₂⟩ := p
            have ht : Taken f (m.pageAt old j) m₁ (m₂.memmove f e.frame) := by
              have htaken := taken_memmove hk e.frame
              have hsource : m₁.page e.frame = m.pageAt old j := by
                rw [hc.grown.page _ (hnot j e hjp hpte)]
                unfold Mem.pageAt
                rw [hpte]
                rfl
              rwa [hsource] at htaken
            have hnone : ((m₂.memmove f e.frame).dir new).pteOf (j * PGSIZE) = none := by
              rw [ht.dirs.dir, hc.grown.kept j (user_lt hju) (.inr le_rfl)]
              exact Option.not_isSome_iff_eq_none.1 ((hempty j hju).not.2 (Nat.not_lt_zero j))
            simp only
            rcases mappages_placed (user_lt hju) hnone f true true with ⟨hmap, htable, hnil⟩ | ⟨m₃, hmap, hp⟩
            · -- no page for the page table: `j` is the first page there
              simp only [hmap]
              have hindex : (pdx (j * PGSIZE)).val = j / 1024 := pdx_page_val (user_lt hju)
              have hlow : (pdx (j * PGSIZE)).val < 512 := by
                rw [hindex]
                unfold USERPAGES at hju
                omega
              have hfirst : ¬ 1024 * (j / 1024) < j := by
                rw [ht.dirs.dir] at htable
                have hiff := hc.tables _ hlow
                rw [htable, hindex] at hiff
                exact fun hlt => Bool.false_ne_true (hiff.2 hlt)
              have hj' : j = 1024 * (j / 1024) := by omega
              have hlen : m₁.freelist.length = 1 := by
                rw [ht.free, List.length_cons, hnil]
                rfl
              unfold tablesOf at hused
              have hdrop := hc.grown.drop ht
              rw [zero_add, hj'] at hdrop
              refine .noTable (k := j / 1024) (by omega) ?_ (by omega) hdrop
              intro v hv
              by_cases hvj : v = j
              · exact ⟨e, hvj ▸ hpte⟩
              · exact hc.present v (by omega)
            · simp only [hmap]
              exact ih (j + 1) m₃ (by omega) (by omega) (hc.snoc hju hnodup hpte ht hp)
    · rw [if_neg hlt]
      have hjp : j = pages sz := by
        have := page_lt_iff.not.1 hlt
        omega
      exact hdone m₁ (hjp ▸ hc)

/-- the pages of a copy that is given up are given back, but those that were dropped -/
theorem Grown.freevm {j : ℕ} {c : ℕ → Page} {lost : Multiset Frame} (hg : Grown new 0 j c lost m m₁) (hj : j ≤ USERPAGES)
    (hempty : (m.dir new).Extent 0) (hfree : ∀ f ∈ m.freelist, Freeable m f)
    (htables : ∀ f ∈ (m.dir new).tableFrames, Freeable m f) (hframe : Freeable m (m.dir new).frame) :
    ∃ m', freevm m₁ new = .ok m' ∧ Only new m m' ∧ m'.kend = m.kend ∧
      (m'.freelist : Multiset Frame) + lost = m.freelist + (m.dir new).tableFrames + {(m.dir new).frame} := by
  have hmove : ∀ f, Freeable m f → Freeable m₁ f := fun f hf => hf.of_kend hg.kend
  have hnone : ∀ v, v < USERPAGES → j ≤ v → (m₁.dir new).pteOf (v * PGSIZE) = none := by
    intro v hv hjv
    rw [hg.kept v (user_lt hv) (.inr hjv)]
    exact Option.not_isSome_iff_eq_none.1 ((hempty v hv).not.2 (Nat.not_lt_zero v))
  have hframes : (m₁.dir new).framesOn (Finset.range USERPAGES) = (m₁.dir new).framesOn (Finset.Ico 0 j) := by
    rw [Finset.range_eq_Ico, ← Finset.Ico_union_Ico_eq_Ico (Nat.zero_le j) hj,
      framesOn_union (Finset.Ico_disjoint_Ico_consecutive _ _ _), framesOn_of_none (s := Finset.Ico j USERPAGES)]
    · exact add_zero _
    · intro v hv
      obtain ⟨hjv, hv⟩ := Finset.mem_Ico.1 hv
      exact hnone v hv hjv
  have hall : AllFreeable m₁ new (Finset.range USERPAGES) := by
    intro v hv e he
    rw [Finset.mem_range] at hv
    by_cases hvj : v < j
    · obtain ⟨f, hpte, hin, _⟩ := hg.mapped v (Nat.zero_le v) hvj
      rw [hpte] at he
      cases he
      exact hmove f (hfree f hin)
    · rw [hnone v hv (by omega)] at he
      cases he
  -- a page table is one that was there, or was free
  have htables₁ : ∀ i t, (m₁.dir new).pde i = some t → Freeable m₁ t.frame := by
    intro i t ht
    have hmem : t.frame ∈ (m.freelist : Multiset Frame) + (m.dir new).tableFrames := by
      rw [hg.balance]
      have hin : t.frame ∈ (m₁.dir new).tableFrames := mem_tableFrames.2 ⟨i, t, ht, rfl⟩
      simp only [Multiset.mem_add]
      exact .inl (.inl (.inr hin))
    rcases Multiset.mem_add.1 hmem with hin | hin
    · exact hmove _ (hfree _ (Multiset.mem_coe.1 hin))
    · exact hmove _ (htables _ hin)
  have hframe₁ : Freeable m₁ (m₁.dir new).frame := by
    rw [hg.frame]
    exact hmove _ hframe
  obtain ⟨m', hrun, honly, hkend, hlist, _⟩ := (freevm_exact m₁ new).resolve_left fun hno => hno.2 ⟨hall, htables₁, hframe₁⟩
  refine ⟨m', hrun, hg.only.trans honly, hkend.trans hg.kend, ?_⟩
  rw [hlist, hframes, hg.frame, hg.balance]
  abel

end CopyLoop

/-! ## copyuvm -/

/-- how `copyuvm` ends, told from the number of free pages -/
inductive CopyuvmEnds (m : Mem) (h sz : ℕ) : Except Panic (Mem × Option ℕ) → Prop where
  | copied {m₁ m' : Mem} : (∀ v, v < pages sz → m.Present h v) →
      65 + pages sz + tablesOf (pages sz) ≤ m.freelist.length → NewDir m m₁ →
      Grown m.nextDir 0 (pages sz) (m.pageAt h) 0 m₁ m' → CopyuvmEnds m h sz (.ok (m', some m.nextDir))
  | clean {m' : Mem} : (m.freelist = [] ∨ ∃ j, j < pages sz ∧ m.freelist.length = 65 + j + tablesOf j) → Older m m' →
      m'.kend = m.kend → (m'.freelist : Multiset Frame) = m.freelist → CopyuvmEnds m h sz (.ok (m', none))
  | leaked {m' : Mem} : ((1 ≤ m.freelist.length ∧ m.freelist.length < 65) ∨
      ∃ k, 1024 * k < pages sz ∧ (∀ v, v ≤ 1024 * k → m.Present h v) ∧ m.freelist.length = 66 + 1025 * k) → Older m m' →
      m'.kend = m.kend → m'.freelist.length < m.freelist.length → CopyuvmEnds m h sz (.ok (m', none))
  | panics {e : Panic} {v : ℕ} : v < pages sz → ¬ m.Present h v → 65 + v + tablesOf v ≤ m.freelist.length →
      CopyuvmEnds m h sz (.error e)

section Copyuvm

variable {m : Mem} {h sz : ℕ}

/-- **`copyuvm`**, for every directory, size and amount of memory. -/
theorem copyuvm_ends (hl : Linked m) (hh : h < m.nextDir) (hsz : sz ≤ KERNBASE) (hfree : FreeListOk m)
    (hnot : ∀ v e, v < pages sz → (m.dir h).pteOf (v * PGSIZE) = some e → e.frame ∉ m.freelist) :
    CopyuvmEnds m h sz (copyuvm m h sz) := by
  unfold copyuvm
  rcases setupkvm_exact hl with ⟨hnil, hrun⟩ | ⟨m₁, hpos, hlt, hrun, hnil, holder, hkend, _⟩ | ⟨m₁, hge, hrun, hd⟩
  · rw [hrun]
    exact .clean (.inl hnil) ⟨fun _ _ => rfl, le_rfl, rfl⟩ rfl rfl
  · rw [hrun]
    exact .leaked (.inl ⟨hpos, hlt⟩) holder hkend (by rw [hnil, List.length_nil]; omega)
  · rw [hrun]
    simp only
    have hlen := hd.length
    have hdir : m₁.dir h = m.dir h := hd.older.dir h hh
    have hpageAt : m₁.pageAt h = m.pageAt h := by
      funext v
      unfold Mem.pageAt
      rw [hdir, hd.page]
    have hpresent : m₁.Present h = m.Present h := by
      funext v
      unfold Mem.Present
      rw [hdir]
    have hsub : ∀ f ∈ m₁.freelist, f ∈ m.freelist := fun f hf => hd.suffix.subset hf
    have hmove : ∀ f, f ∈ (m.freelist : Multiset Frame) → Freeable m₁ f :=
      fun f hf => (hfree.freeable f (Multiset.mem_coe.1 hf)).of_kend hd.kend
    have htables : ∀ f ∈ (m₁.dir m.nextDir).tableFrames, Freeable m₁ f := by
      intro f hf
      apply hmove
      rw [hd.balance]
      exact Multiset.mem_add.2 (.inl (Multiset.mem_add.2 (.inr hf)))
    have hframe : Freeable m₁ (m₁.dir m.nextDir).frame := by
      apply hmove
      rw [hd.balance]
      exact Multiset.mem_add.2 (.inr (Multiset.mem_singleton_self _))
    have hstart : Copying m₁ h m.nextDir 0 m₁ := by
      refine ⟨.refl _ _ _ _, fun v hv => absurd hv (Nat.not_lt_zero v), rfl, ?_⟩
      intro i hi
      rw [hd.tables i, mem_kernelTables]
      omega
    have hn := pages_le_div sz
    have hloop := copyLoop_ends hh.ne hsz (hd.suffix.sublist.nodup hfree.nodup)
      (fun v e hv he hin => hnot v e hv (hdir ▸ he) (hsub _ hin)) hd.extent (sz / PGSIZE + 1) 0 m₁ (Nat.zero_le _) (by omega)
      hstart
    rw [Nat.zero_mul] at hloop
    -- a copy that is given up
    have hgive : ∀ {j : ℕ} {lost : Multiset Frame} {m₂ : Mem}, j < pages sz →
        Grown m.nextDir 0 j (m₁.pageAt h) lost m₁ m₂ → ∃ m', freevm m₂ m.nextDir = .ok m' ∧ Older m m' ∧
          m'.kend = m.kend ∧ (m'.freelist : Multiset Frame) + lost = m.freelist := by
      intro j lost m₂ hj hg
      obtain ⟨m', hf, honly, hkend, hlist⟩ := hg.freevm (hj.le.trans (pages_le_user hsz)) hd.extent
        (fun f hf => hmove f (Multiset.mem_coe.2 (hsub f hf))) htables hframe
      exact ⟨m', hf, hd.older.only le_rfl honly, hkend.trans hd.kend, by rw [hlist, ← hd.balance]⟩
    generalize copyLoop h m.nextDir sz (sz / PGSIZE + 1) 0 m₁ = r at hloop ⊢
    cases hloop with
    | @copied m' hall hmem hg =>
      rw [hpageAt] at hg
      rw [hpresent] at hall
      exact .copied hall (by omega) hd hg
    | @noPage m₂ j hj hcount hg =>
      obtain ⟨m', hf, holder, hkend, hlist⟩ := hgive hj hg
      simp only [hf]
      rw [add_zero] at hlist
      exact .clean (.inr ⟨j, hj, by omega⟩) holder hkend hlist
    | @noTable m₂ k f hk hall hcount hg =>
      obtain ⟨m', hf, holder, hkend, hlist⟩ := hgive hk hg
      simp only [hf]
      have hcard := congrArg Multiset.card hlist
      rw [Multiset.card_add, Multiset.card_singleton, Multiset.coe_card, Multiset.coe_card] at hcard
      rw [hpresent] at hall
      exact .leaked (.inr ⟨k, hk, hall, by omega⟩) holder hkend (by omega)
    | @panics e v hv hnone hmem =>
      rw [hpresent] at hnone
      exact .panics hv hnone (by omega)

/-- what `copyuvm` is for: each page below PGROUNDUP(sz) is backed by a page that was free, is not any more and is no
other's, with the contents and the permissions of the original; nothing else is mapped below KERNBASE; and the original is
as it was, with its contents -/
structure Faithful (m : Mem) (h sz : ℕ) (m' : Mem) (d : ℕ) : Prop where
  copy : ∀ v, v * PGSIZE < pgroundup sz → ∃ e f, (m.dir h).pteOf (v * PGSIZE) = some e ∧
    (m'.dir d).pteOf (v * PGSIZE) = some ⟨f, e.w, e.u⟩ ∧ f ∈ m.freelist ∧ f ∉ m'.freelist ∧ m'.page f = m.page e.frame
  own : ∀ v w e e', v * PGSIZE < pgroundup sz → w * PGSIZE < pgroundup sz → (m'.dir d).pteOf (v * PGSIZE) = some e →
    (m'.dir d).pteOf (w * PGSIZE) = some e' → e.frame = e'.frame → v = w
  nothing : ∀ v, v < USERPAGES → pgroundup sz ≤ v * PGSIZE → (m'.dir d).pteOf (v * PGSIZE) = none
  original : m'.dir h = m.dir h
  contents : ∀ v e, v < pages sz → (m.dir h).pteOf (v * PGSIZE) = some e → m'.page e.frame = m.page e.frame

/-- **A copy is faithful exactly if every page of the original is user-writable.** For every directory and size, with a
free page for the directory, each of the kernel's page tables, each page and each page table of the copy. -/
theorem copyuvm_faithful_iff (m : Mem) (h sz : ℕ) (hl : Linked m) (hh : h < m.nextDir) (hsz : sz ≤ KERNBASE)
    (hfree : FreeListOk m) (hnot : ∀ v e, v < pages sz → (m.dir h).pteOf (v * PGSIZE) = some e → e.frame ∉ m.freelist)
    (henough : 65 + pages sz + tablesOf (pages sz) ≤ m.freelist.length) :
    (∃ m' d, copyuvm m h sz = .ok (m', some d) ∧ Faithful m h sz m' d) ↔
      ∀ v, v < pages sz → ∃ f, (m.dir h).pteOf (v * PGSIZE) = some ⟨f, true, true⟩ := by
  have hpage : ∀ v, v * PGSIZE < pgroundup sz ↔ v < pages sz := by
    intro v
    rw [pgroundup_eq hsz]
    exact Nat.mul_lt_mul_right (by decide)
  have hends := copyuvm_ends hl hh hsz hfree hnot
  generalize copyuvm m h sz = r at hends ⊢
  cases hends with
  | @copied m₁ m' hall _ hd hg =>
    constructor
    · intro ⟨m'', d, hrun, hfaithful⟩ v hv
      cases hrun
      obtain ⟨e, f, he, hpte, _⟩ := hfaithful.copy v ((hpage v).2 hv)
      obtain ⟨f', hpte', _⟩ := hg.mapped v (Nat.zero_le v) hv
      rw [hpte'] at hpte
      cases e with
      | mk frame w u =>
        cases hpte
        exact ⟨frame, he⟩
    · intro hwritable
      refine ⟨m', m.nextDir, rfl, ?_, ?_, ?_, ?_, ?_⟩
      · intro v hv
        obtain ⟨f₀, he⟩ := hwritable v ((hpage v).1 hv)
        obtain ⟨f, hpte, hin, hout, hc⟩ := hg.mapped v (Nat.zero_le v) ((hpage v).1 hv)
        refine ⟨_, f, he, hpte, hd.suffix.subset hin, hout, ?_⟩
        rw [hc]
        unfold Mem.pageAt
        rw [he]
        rfl
      · intro v w e e' hv hw he he' hf
        exact hg.own v w e e' (Nat.zero_le v) ((hpage v).1 hv) (Nat.zero_le w) ((hpage w).1 hw) he he' hf
      · intro v hv hle
        have hnlt : ¬ v < pages sz := fun hlt => absurd ((hpage v).2 hlt) (not_lt.2 hle)
        rw [hg.kept v (user_lt hv) (.inr (not_lt.1 hnlt))]
        exact Option.not_isSome_iff_eq_none.1 ((hd.extent v hv).not.2 (Nat.not_lt_zero v))
      · rw [hg.only.dir h hh.ne, hd.older.dir h hh]
      · intro v e hv he
        rw [hg.page _ fun hin => hnot v e hv he (hd.suffix.subset hin), hd.page]
  | @panics e v hv hnone _ =>
    constructor
    · intro ⟨m', d, hrun, _⟩
      cases hrun
    · intro hwritable
      obtain ⟨f, hf⟩ := hwritable v hv
      exact absurd ⟨_, hf⟩ hnone
  | @clean m' hcount _ _ _ =>
    exfalso
    rcases hcount with hnil | ⟨j, hj, hlen⟩
    · rw [hnil, List.length_nil] at henough
      omega
    · unfold tablesOf at hlen henough
      omega
  | @leaked m' hcount _ _ _ =>
    exfalso
    unfold tablesOf at henough
    rcases hcount with ⟨_, hlt⟩ | ⟨k, hk, _, hlen⟩ <;> omega

/-- a process whose pages are in the first page table, accessible as `flags` says, and more free pages than a copy takes -/
def processOf (flags : List Bool) : Mem where
  freelist := List.range' 0x400 (136 + flags.length)
  page := fun _ _ => 0
  dir := fun _ => ⟨0x200, fun i => if i = 0 then
    some ⟨0x201, fun j => (flags[j.val]?).map fun u => ⟨0x202 + j.val, true, u⟩⟩ else none⟩
  nextDir := 1
  kend := 0x180
  data := 0x80108000

theorem processOf_linked (flags : List Bool) : Linked (processOf flags) := by
  refine ⟨?_, ?_, ?_⟩ <;> simp only [processOf, PGSIZE, KERNBASE, EXTMEM, PHYSTOP] <;> omega

theorem processOf_pteOf (flags : List Bool) {v : ℕ} (hv : v < 1024) :
    ((processOf flags).dir 0).pteOf (v * PGSIZE) = (flags[v]?).map fun u => ⟨0x202 + v, true, u⟩ := by
  have hpdx : pdx (v * PGSIZE) = 0 := by
    apply Fin.ext
    rw [pdx_page_val (by omega)]
    exact Nat.div_eq_of_lt hv
  have hptx : (ptx (v * PGSIZE)).val = v := by
    unfold ptx PGSIZE
    rw [Fin.val_ofNat]
    omega
  unfold Dir.pteOf
  rw [hpdx]
  simp only [processOf, if_true, Option.bind_some, hptx]

variable {flags : List Bool}

theorem processOf_free (hn : flags.length ≤ 500) : FreeListOk (processOf flags) := by
  refine ⟨List.nodup_range', ?_⟩
  intro f hf
  obtain ⟨hge, hlt⟩ := List.mem_range'_1.1 hf
  have hend : PHYSTOP / PGSIZE = 57344 := by decide
  refine ⟨(Nat.lt_of_lt_of_le (by decide) hge).ne', Nat.le_trans (show 0x180 ≤ 0x400 by decide) hge,
    Nat.lt_of_lt_of_le hlt ?_⟩
  rw [hend]
  omega

theorem pages_mul (n : ℕ) : pages (n * PGSIZE) = n := by
  unfold pages PGSIZE
  omega

theorem processOf_not_free {n : ℕ} (hlen : flags.length = n) (hn : n ≤ 500) : ∀ v e, v < pages (n * PGSIZE) →
    ((processOf flags).dir 0).pteOf (v * PGSIZE) = some e → e.frame ∉ (processOf flags).freelist := by
  intro v e hv he hin
  rw [pages_mul] at hv
  rw [processOf_pteOf flags (by omega)] at he
  obtain ⟨u, _, rfl⟩ := Option.map_eq_some_iff.1 he
  obtain ⟨hge, _⟩ := List.mem_range'_1.1 hin
  simp only at hge
  omega

theorem processOf_enough {n : ℕ} (hlen : flags.length = n) (hn : n ≤ 500) :
    65 + pages (n * PGSIZE) + tablesOf (pages (n * PGSIZE)) ≤ (processOf flags).freelist.length := by
  have hfree : (processOf flags).freelist.length = 136 + flags.length := List.length_range'
  rw [hfree, hlen, pages_mul]
  unfold tablesOf
  omega

theorem two_pages_copied : ∃ m' d, copyuvm (processOf [true, true]) 0 (2 * PGSIZE) = .ok (m', some d) ∧
    Faithful (processOf [true, true]) 0 (2 * PGSIZE) m' d := by
  have hsz : 2 * PGSIZE ≤ KERNBASE := by
    unfold PGSIZE KERNBASE
    omega
  refine (copyuvm_faithful_iff (processOf [true, true]) 0 (2 * PGSIZE) (processOf_linked _) Nat.one_pos hsz
    (processOf_free (by decide)) (processOf_not_free rfl (by decide)) (processOf_enough rfl (by decide))).2 ?_
  intro v hv
  have hv : v < 2 := pages_mul 2 ▸ hv
  rw [processOf_pteOf _ (by omega)]
  interval_cases v
  · exact ⟨_, rfl⟩
  · exact ⟨_, rfl⟩

/-- **The page below the stack.** A process as `exec` makes it, with a page of program, a page that the user may not
access and the stack: the copy has all three, and the user may access them. -/
theorem guard_page_copied :
    ∃ m' d, copyuvm (processOf [true, false, true]) 0 (3 * PGSIZE) = .ok (m', some d) ∧
      (∃ f, ((processOf [true, false, true]).dir 0).pteOf (1 * PGSIZE) = some ⟨f, true, false⟩) ∧
      (∃ f, (m'.dir d).pteOf (1 * PGSIZE) = some ⟨f, true, true⟩) ∧
      ¬ Faithful (processOf [true, false, true]) 0 (3 * PGSIZE) m' d := by
  have hguard : ((processOf [true, false, true]).dir 0).pteOf (1 * PGSIZE) = some ⟨0x203, true, false⟩ :=
    processOf_pteOf _ (by decide)
  have hsz : 3 * PGSIZE ≤ KERNBASE := by
    unfold PGSIZE KERNBASE
    omega
  have henough : 65 + pages (3 * PGSIZE) + tablesOf (pages (3 * PGSIZE)) ≤ (processOf [true, false, true]).freelist.length :=
    processOf_enough rfl (by decide)
  have hends : CopyuvmEnds (processOf [true, false, true]) 0 (3 * PGSIZE) _ :=
    copyuvm_ends (processOf_linked _) Nat.one_pos hsz (processOf_free (by decide)) (processOf_not_free rfl (by decide))
  generalize hrun : copyuvm (processOf [true, false, true]) 0 (3 * PGSIZE) = r at hends ⊢
  cases hends with
  | @copied m₁ m' hall _ hd hg =>
    obtain ⟨f, hpte, _⟩ := hg.mapped 1 (Nat.zero_le 1) (by rw [pages_mul]; decide)
    refine ⟨m', _, rfl, ⟨_, hguard⟩, ⟨f, hpte⟩, ?_⟩
    intro hfaithful
    obtain ⟨e, f', he, hpte', _⟩ := hfaithful.copy 1 (by decide)
    rw [hguard] at he
    cases he
    rw [hpte] at hpte'
    cases hpte'
  | @panics e v hv hnone _ =>
    exfalso
    have hv : v < 3 := pages_mul 3 ▸ hv
    apply hnone
    unfold Mem.Present
    rw [processOf_pteOf _ (by omega)]
    interval_cases v <;> exact ⟨_, rfl⟩
  | @clean m' hcount _ _ _ =>
    exfalso
    rcases hcount with hnil | ⟨j, hj, hlen⟩
    · rw [hnil, List.length_nil] at henough
      omega
    · unfold tablesOf at hlen henough
      omega
  | @leaked m' hcount _ _ _ =>
    exfalso
    unfold tablesOf at henough
    rcases hcount with ⟨_, hlt⟩ | ⟨k, hk, _, hlen⟩ <;> omega

end Copyuvm

end Xv6Threads.Memory
