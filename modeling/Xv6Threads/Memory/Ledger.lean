/-
The physical pages that a directory has, as multisets, and what a store into it does to them.

A page that `kalloc` hands out becomes a page table or a page of the user, and `kfree` takes it back. So the free pages
and the pages of the directory together stay what they are, unless a page is dropped on the way.
- `Dir.framesOn`, `Dir.tableFrames`: the pages mapped at given page numbers, and the pages of the page tables.
- `Cleared h s m m'`: the pages numbered in `s` are given back and nothing else changes. It composes (`Cleared.trans`), and
  page numbers at which nothing is mapped do not matter (`Cleared.enlarge`).
- `Placed`: one page is mapped, with a page table from the free list if need be.
- `Grown`: a range of pages has been mapped to pages that were free, with given contents. A round of a loop that maps a
  page extends it (`Grown.snoc`); one that takes a page and fails to map it loses the page (`Grown.drop`).
-/
import Xv6Threads.Memory.Vm

namespace Xv6Threads.Memory

open Function

/-- the pages that `d` maps at the page numbers in `s` -/
def Dir.framesOn (d : Dir) (s : Finset ℕ) : Multiset Frame :=
  ∑ v ∈ s, (d.pteOf (v * PGSIZE)).elim 0 fun e => {e.frame}

/-- the pages of its page tables; the sum over 1024 entries is not to be evaluated -/
@[irreducible]
def Dir.tableFrames (d : Dir) : Multiset Frame := ∑ i, (d.pde i).elim 0 fun t => {t.frame}

section Frames

variable {d d' : Dir} {s t : Finset ℕ} {v : ℕ} {e : Pte} {f : Frame}

@[simp]
theorem framesOn_empty (d : Dir) : d.framesOn ∅ = 0 := rfl

theorem framesOn_congr (h : ∀ v ∈ s, d'.pteOf (v * PGSIZE) = d.pteOf (v * PGSIZE)) : d'.framesOn s = d.framesOn s := by
  apply Finset.sum_congr rfl
  intro v hv
  rw [h v hv]

theorem framesOn_union (hst : Disjoint s t) : d.framesOn (s ∪ t) = d.framesOn s + d.framesOn t :=
  Finset.sum_union hst

theorem framesOn_singleton (he : d.pteOf (v * PGSIZE) = some e) : d.framesOn {v} = {e.frame} := by
  unfold Dir.framesOn
  rw [Finset.sum_singleton, he]
  rfl

theorem framesOn_of_none (h : ∀ v ∈ s, d.pteOf (v * PGSIZE) = none) : d.framesOn s = 0 := by
  apply Finset.sum_eq_zero
  intro v hv
  rw [h v hv]
  rfl

theorem mem_framesOn : f ∈ d.framesOn s ↔ ∃ v ∈ s, ∃ e, d.pteOf (v * PGSIZE) = some e ∧ e.frame = f := by
  unfold Dir.framesOn
  rw [Multiset.mem_sum]
  constructor
  · intro ⟨v, hv, hf⟩
    cases he : d.pteOf (v * PGSIZE) with
    | none =>
      rw [he] at hf
      exact absurd hf (Multiset.notMem_zero f)
    | some e =>
      rw [he] at hf
      exact ⟨v, hv, e, he, (Multiset.mem_singleton.1 hf).symm⟩
  · intro ⟨v, hv, e, he, hf⟩
    refine ⟨v, hv, ?_⟩
    rw [he]
    exact Multiset.mem_singleton.2 hf.symm

/-- with all pages different, two page numbers do not share one -/
theorem framesOn_inj (hnd : (d.framesOn s).Nodup) {v w : ℕ} (hv : v ∈ s) (hw : w ∈ s) {e e' : Pte}
    (he : d.pteOf (v * PGSIZE) = some e) (he' : d.pteOf (w * PGSIZE) = some e') (hf : e.frame = e'.frame) : v = w := by
  by_contra hne
  have hw' : w ∈ s.erase v := Finset.mem_erase.2 ⟨Ne.symm hne, hw⟩
  have hsplit : d.framesOn s = d.framesOn {v} + d.framesOn (s.erase v) := by
    rw [← framesOn_union (Finset.disjoint_singleton_left.2 (Finset.notMem_erase v s)), ← Finset.insert_eq,
      Finset.insert_erase hv]
  rw [hsplit, framesOn_singleton he] at hnd
  have hnot := (Multiset.nodup_add.1 hnd).2.2
  exact Multiset.disjoint_left.1 hnot (Multiset.mem_singleton_self _) (mem_framesOn.2 ⟨w, hw', e', he', hf.symm⟩)

theorem mem_tableFrames : f ∈ d.tableFrames ↔ ∃ i t, d.pde i = some t ∧ t.frame = f := by
  unfold Dir.tableFrames
  rw [Multiset.mem_sum]
  constructor
  · intro ⟨i, _, hf⟩
    cases ht : d.pde i with
    | none =>
      rw [ht] at hf
      exact absurd hf (Multiset.notMem_zero f)
    | some t =>
      rw [ht] at hf
      exact ⟨i, t, ht, (Multiset.mem_singleton.1 hf).symm⟩
  · intro ⟨i, t, ht, hf⟩
    refine ⟨i, Finset.mem_univ i, ?_⟩
    rw [ht]
    exact Multiset.mem_singleton.2 hf.symm

theorem tableFrames_congr (h : ∀ i, (d'.pde i).map PageTable.frame = (d.pde i).map PageTable.frame) :
    d'.tableFrames = d.tableFrames := by
  unfold Dir.tableFrames
  apply Finset.sum_congr rfl
  intro i _
  have hi := h i
  cases ht : d.pde i with
  | none =>
    rw [ht, Option.map_none, Option.map_eq_none_iff] at hi
    rw [hi]
  | some t =>
    rw [ht, Option.map_some] at hi
    obtain ⟨t', ht', hf⟩ := Option.map_eq_some_iff.1 hi
    rw [ht', Option.elim_some, Option.elim_some, hf]

theorem tables_congr (h : ∀ i, (d'.pde i).map PageTable.frame = (d.pde i).map PageTable.frame) :
    d'.tables = d.tables := by
  funext i
  have hi := congrArg Option.isSome (h i)
  rwa [Option.isSome_map, Option.isSome_map] at hi

theorem tables_of_pteOf {d : Dir} {va : ℕ} {e : Pte} (he : d.pteOf va = some e) : d.tables (pdx va) = true := by
  unfold Dir.tables
  cases ht : d.pde (pdx va) with
  | none =>
    rw [pteOf_none_of_pde ht] at he
    cases he
  | some t => rfl

/-- a new page table -/
theorem tableFrames_setTable {i : Fin 1024} {t : PageTable} (hi : d.pde i = none) :
    (d.setTable i t).tableFrames = t.frame ::ₘ d.tableFrames := by
  have hold : d.tableFrames = ∑ j ∈ Finset.univ.erase i, (d.pde j).elim 0 fun t => {t.frame} := by
    unfold Dir.tableFrames
    rw [← Finset.add_sum_erase _ _ (Finset.mem_univ i), hi]
    exact zero_add _
  have hnew : ∑ j ∈ Finset.univ.erase i, ((d.setTable i t).pde j).elim (0 : Multiset Frame) (fun t => {t.frame}) =
      ∑ j ∈ Finset.univ.erase i, (d.pde j).elim 0 fun t => {t.frame} := by
    apply Finset.sum_congr rfl
    intro j hj
    simp only [Dir.setTable, update_of_ne (Finset.ne_of_mem_erase hj)]
  have hself : (d.setTable i t).pde i = some t := by simp [Dir.setTable]
  rw [hold]
  unfold Dir.tableFrames
  rw [← Finset.add_sum_erase _ _ (Finset.mem_univ i), hnew, hself, Option.elim_some, Multiset.singleton_add]

end Frames

/-! ## Giving pages back -/

/-- what `kfree` accepts, and `deallocuvm` before it -/
def Freeable (m : Mem) (f : Frame) : Prop := f ≠ 0 ∧ m.kend ≤ f ∧ f < PHYSTOP / PGSIZE

instance (m : Mem) (f : Frame) : Decidable (Freeable m f) := by
  unfold Freeable
  infer_instance

theorem Freeable.of_kend {m m' : Mem} {f : Frame} (hf : Freeable m f) (hkend : m'.kend = m.kend) : Freeable m' f := by
  unfold Freeable
  rwa [hkend]

/-- the pages numbered in `s` are free and no longer mapped by directory `h`; the rest is as before -/
structure Cleared (h : ℕ) (s : Finset ℕ) (m m' : Mem) : Prop where
  only : Only h m m'
  kend : m'.kend = m.kend
  frame : (m'.dir h).frame = (m.dir h).frame
  tables : ∀ i, ((m'.dir h).pde i).map PageTable.frame = ((m.dir h).pde i).map PageTable.frame
  pte : ∀ v, v < 2 ^ 20 → (m'.dir h).pteOf (v * PGSIZE) = if v ∈ s then none else (m.dir h).pteOf (v * PGSIZE)
  free : (m'.freelist : Multiset Frame) = (m.dir h).framesOn s + m.freelist
  page : ∀ f, f ∉ (m.dir h).framesOn s → m'.page f = m.page f

section Cleared

variable {h : ℕ} {s t : Finset ℕ} {m m₁ m' : Mem}

theorem Cleared.refl (h : ℕ) (m : Mem) : Cleared h ∅ m m where
  only := .refl h m
  kend := rfl
  frame := rfl
  tables := fun _ => rfl
  pte := fun v _ => (if_neg (Finset.notMem_empty v)).symm
  free := by simp
  page := fun _ _ => rfl

/-- where nothing is mapped there is nothing to give back -/
theorem Cleared.enlarge (hc : Cleared h s m m') (hst : s ⊆ t)
    (hnone : ∀ v ∈ t, v ∉ s → (m.dir h).pteOf (v * PGSIZE) = none) : Cleared h t m m' := by
  have hsame : (m.dir h).framesOn t = (m.dir h).framesOn s := by
    rw [← Finset.union_sdiff_of_subset hst, framesOn_union Finset.disjoint_sdiff]
    rw [framesOn_of_none (s := t \ s)]
    · exact add_zero _
    · intro v hv
      obtain ⟨hvt, hvs⟩ := Finset.mem_sdiff.1 hv
      exact hnone v hvt hvs
  refine ⟨hc.only, hc.kend, hc.frame, hc.tables, ?_, ?_, ?_⟩
  · intro v hv
    rw [hc.pte v hv]
    by_cases hs : v ∈ s
    · rw [if_pos hs, if_pos (hst hs)]
    · rw [if_neg hs]
      by_cases ht : v ∈ t
      · rw [if_pos ht, hnone v ht hs]
      · rw [if_neg ht]
  · rw [hsame]
    exact hc.free
  · rw [hsame]
    exact hc.page

theorem Cleared.trans (h₁ : Cleared h s m m₁) (h₂ : Cleared h t m₁ m') (hst : Disjoint s t)
    (ht : ∀ v ∈ t, v < 2 ^ 20) : Cleared h (s ∪ t) m m' := by
  have hframes : (m₁.dir h).framesOn t = (m.dir h).framesOn t := by
    apply framesOn_congr
    intro v hv
    rw [h₁.pte v (ht v hv), if_neg (Finset.disjoint_right.1 hst hv)]
  refine ⟨h₁.only.trans h₂.only, h₂.kend.trans h₁.kend, h₂.frame.trans h₁.frame,
    fun i => (h₂.tables i).trans (h₁.tables i), ?_, ?_, ?_⟩
  · intro v hv
    rw [h₂.pte v hv, h₁.pte v hv]
    by_cases hs : v ∈ s <;> by_cases ht : v ∈ t <;> simp [hs, ht]
  · calc (m'.freelist : Multiset Frame)
      _ = (m₁.dir h).framesOn t + m₁.freelist := h₂.free
      _ = (m.dir h).framesOn t + ((m.dir h).framesOn s + m.freelist) := by rw [hframes, h₁.free]
      _ = (m.dir h).framesOn (s ∪ t) + m.freelist := by
        rw [framesOn_union hst, ← add_assoc, add_comm ((m.dir h).framesOn t)]
  · intro f hf
    rw [framesOn_union hst, Multiset.mem_add, not_or] at hf
    rw [h₂.page f (by rw [hframes]; exact hf.2), h₁.page f hf.1]

/-- a store into an entry leaves the page tables where they are -/
theorem setPte_frame (m : Mem) (h va : ℕ) (e : Option Pte) :
    ((m.setPte h va e).dir h).frame = (m.dir h).frame ∧
      ∀ i, (((m.setPte h va e).dir h).pde i).map PageTable.frame = ((m.dir h).pde i).map PageTable.frame := by
  unfold Mem.setPte
  split
  · exact ⟨rfl, fun _ => rfl⟩
  · rename_i t ht
    simp only [Mem.setDir, update_self, Dir.setTable, true_and]
    intro i
    by_cases hi : i = pdx va
    · subst hi
      rw [update_self, ht]
      rfl
    · rw [update_of_ne hi]

theorem setPte_page_eq (m : Mem) (h va : ℕ) (e : Option Pte) :
    (m.setPte h va e).page = m.page ∧ (m.setPte h va e).kend = m.kend := by
  unfold Mem.setPte
  split <;> exact ⟨rfl, rfl⟩

/-- one round of `deallocuvm` that frees a page -/
theorem cleared_page {v : ℕ} (hv : v < 2 ^ 20) {e : Pte} (he : (m.dir h).pteOf (v * PGSIZE) = some e)
    (hfree : Freeable m e.frame) :
    ∃ m₁, kfree m e.frame = .ok m₁ ∧ Cleared h {v} m (m₁.setPte h (v * PGSIZE) none) := by
  have hok : ¬ (e.frame < m.kend ∨ PHYSTOP / PGSIZE ≤ e.frame) := not_or.2 ⟨not_lt.2 hfree.2.1, not_le.2 hfree.2.2⟩
  refine ⟨{ m.memset e.frame 1 with freelist := e.frame :: m.freelist }, if_neg hok, ?_⟩
  have hk : kfree m e.frame = .ok { m.memset e.frame 1 with freelist := e.frame :: m.freelist } := if_neg hok
  generalize hm₁ : ({ m.memset e.frame 1 with freelist := e.frame :: m.freelist } : Mem) = m₁ at hk
  have hd := kfree_dirs hk
  obtain ⟨t, ht⟩ : ∃ t, (m₁.dir h).pde (pdx (v * PGSIZE)) = some t := by
    rw [hd.dir]
    cases ht : (m.dir h).pde (pdx (v * PGSIZE)) with
    | none =>
      rw [pteOf_none_of_pde ht] at he
      cases he
    | some t => exact ⟨t, rfl⟩
  obtain ⟨hframe, htables⟩ := setPte_frame m₁ h (v * PGSIZE) none
  obtain ⟨hpage, hkend⟩ := setPte_page_eq m₁ h (v * PGSIZE) none
  have hframes := framesOn_singleton he
  refine ⟨hd.only.trans (only_setPte m₁ h _ _), ?_, ?_, ?_, ?_, ?_, ?_⟩
  · rw [hkend, ← hm₁]
    rfl
  · rw [hframe, hd.dir]
  · intro i
    rw [htables i, hd.dir]
  · intro w hw
    rw [setPte_page hv ht none hw, hd.dir]
    simp only [Finset.mem_singleton]
  · rw [(setPte_tables m₁ h _ none).1, hframes, ← hm₁]
    rfl
  · intro f hf
    rw [hframes, Multiset.mem_singleton] at hf
    rw [hpage, ← hm₁]
    exact update_of_ne hf _ _

end Cleared

/-! ## Mapping a page -/

/-- page `v` of directory `h` has the entry `e` now, in a page table that was there or was made of a free page -/
structure Placed (h v : ℕ) (e : Pte) (m m' : Mem) : Prop where
  only : Only h m m'
  kend : m'.kend = m.kend
  frame : (m'.dir h).frame = (m.dir h).frame
  page : m'.page = m.page
  pte : ∀ w, w < 2 ^ 20 → (m'.dir h).pteOf (w * PGSIZE) = if w = v then some e else (m.dir h).pteOf (w * PGSIZE)
  takes : Takes h (v * PGSIZE) m m'
  suffix : m'.freelist <:+ m.freelist
  tables : (m'.freelist : Multiset Frame) + (m'.dir h).tableFrames = m.freelist + (m.dir h).tableFrames

section Placed

variable {h v : ℕ} {m m₁ : Mem}

/-- the page of a new page table was free -/
theorem walkpgdir_ledger {va : ℕ} (hw : walkpgdir m h va true = some m₁) :
    m₁.kend = m.kend ∧ (m₁.dir h).frame = (m.dir h).frame ∧ m₁.page = m.page ∧ m₁.freelist <:+ m.freelist ∧
      (m₁.freelist : Multiset Frame) + (m₁.dir h).tableFrames = m.freelist + (m.dir h).tableFrames := by
  unfold walkpgdir at hw
  cases hpde : (m.dir h).pde (pdx va) with
  | some t =>
    rw [hpde] at hw
    cases hw
    exact ⟨rfl, rfl, rfl, List.suffix_rfl, rfl⟩
  | none =>
    rw [hpde] at hw
    simp only [if_true, kalloc] at hw
    cases hfree : m.freelist with
    | nil =>
      rw [hfree] at hw
      cases hw
    | cons f fs =>
      rw [hfree] at hw
      cases hw
      have hdir : (Mem.setDir { m with freelist := fs } h ((m.dir h).setTable (pdx va) ⟨f, fun _ => none⟩)).dir h =
          (m.dir h).setTable (pdx va) ⟨f, fun _ => none⟩ := update_self h _ _
      simp only [hdir, tableFrames_setTable hpde]
      refine ⟨rfl, rfl, rfl, List.suffix_cons f fs, ?_⟩
      change (fs : Multiset Frame) + f ::ₘ (m.dir h).tableFrames = _
      rw [Multiset.add_cons, ← Multiset.cons_coe, Multiset.cons_add]

/-- **`mappages` of one page that is not present**: it is mapped, or there is no page for its page table. -/
theorem mappages_placed (hv : v < 2 ^ 20) (hnone : (m.dir h).pteOf (v * PGSIZE) = none) (f : Frame) (w u : Bool) :
    (mappages m h (v * PGSIZE) PGSIZE f w u = .ok (m, false) ∧
      (m.dir h).tables (pdx (v * PGSIZE)) = false ∧ m.freelist = []) ∨
    ∃ m', mappages m h (v * PGSIZE) PGSIZE f w u = .ok (m', true) ∧ Placed h v ⟨f, w, u⟩ m m' := by
  have ha : pgrounddown (v * PGSIZE) = v * PGSIZE := by
    unfold pgrounddown PGSIZE
    omega
  have hlast : pgrounddown ((v * PGSIZE + PGSIZE + 2 ^ 32 - 1) % 2 ^ 32) = v * PGSIZE := by
    unfold pgrounddown PGSIZE
    omega
  unfold mappages
  rw [ha, hlast, show (2 : ℕ) ^ 20 = (2 ^ 20 - 1) + 1 from rfl, mapLoop]
  cases hw : walkpgdir m h (v * PGSIZE) true with
  | none => exact .inl ⟨rfl, walkpgdir_none hw⟩
  | some m₁ =>
    right
    simp only
    rw [(walkpgdir_some hw).2.2, hnone, if_neg (by simp), if_pos trivial]
    obtain ⟨honly, hpte⟩ := map_page hv hw ⟨f, w, u⟩
    obtain ⟨hkend, hframe, hpage, hsuffix, htables⟩ := walkpgdir_ledger hw
    obtain ⟨hframe', htables'⟩ := setPte_frame m₁ h (v * PGSIZE) (some ⟨f, w, u⟩)
    obtain ⟨hpage', hkend'⟩ := setPte_page_eq m₁ h (v * PGSIZE) (some ⟨f, w, u⟩)
    have hfree := (setPte_tables m₁ h (v * PGSIZE) (some ⟨f, w, u⟩)).1
    refine ⟨_, rfl, honly, hkend'.trans hkend, hframe'.trans hframe, hpage'.trans hpage, hpte, map_takes hw _, ?_, ?_⟩
    · rw [hfree]
      exact hsuffix
    · rw [hfree, tableFrames_congr htables']
      exact htables

end Placed

/-! ## Mapping pages one after the other -/

/-- the free list holds different pages, which `kfree` accepted -/
structure FreeListOk (m : Mem) : Prop where
  nodup : m.freelist.Nodup
  freeable : ∀ f ∈ m.freelist, Freeable m f

/-- the first free page has been taken and holds `p` -/
structure Taken (f : Frame) (p : Page) (m m' : Mem) : Prop where
  dirs : SameDirs m m'
  kend : m'.kend = m.kend
  free : m.freelist = f :: m'.freelist
  filled : m'.page f = p
  page : ∀ g, g ≠ f → m'.page g = m.page g

/-- the pages from `a` to `b` are mapped user-writable to pages that were free, each to its own, and page `v` holds `c v`;
the pages in `lost` were free and are nowhere now -/
structure Grown (h a b : ℕ) (c : ℕ → Page) (lost : Multiset Frame) (m m' : Mem) : Prop where
  only : Only h m m'
  kend : m'.kend = m.kend
  frame : (m'.dir h).frame = (m.dir h).frame
  mapped : ∀ v, a ≤ v → v < b → ∃ f, (m'.dir h).pteOf (v * PGSIZE) = some ⟨f, true, true⟩ ∧ f ∈ m.freelist ∧
    f ∉ m'.freelist ∧ m'.page f = c v
  own : ∀ v w e e', a ≤ v → v < b → a ≤ w → w < b → (m'.dir h).pteOf (v * PGSIZE) = some e →
    (m'.dir h).pteOf (w * PGSIZE) = some e' → e.frame = e'.frame → v = w
  kept : ∀ v, v < 2 ^ 20 → v < a ∨ b ≤ v → (m'.dir h).pteOf (v * PGSIZE) = (m.dir h).pteOf (v * PGSIZE)
  suffix : m'.freelist <:+ m.freelist
  balance : (m.freelist : Multiset Frame) + (m.dir h).tableFrames =
    m'.freelist + (m'.dir h).tableFrames + (m'.dir h).framesOn (Finset.Ico a b) + lost
  page : ∀ f, f ∉ m.freelist → m'.page f = m.page f

section Grown

variable {h a b : ℕ} {c : ℕ → Page} {lost : Multiset Frame} {m m₁ m₂ m₃ : Mem} {f : Frame} {p : Page}

theorem Taken.cons (ht : Taken f p m m₁) : (m.freelist : Multiset Frame) = {f} + m₁.freelist := by
  rw [ht.free, ← Multiset.cons_coe, Multiset.singleton_add]

theorem Taken.mem (ht : Taken f p m m₁) : f ∈ m.freelist := by
  rw [ht.free]
  exact List.mem_cons_self

theorem Taken.suffix (ht : Taken f p m m₁) : m₁.freelist <:+ m.freelist := ht.free ▸ List.suffix_cons f m₁.freelist

theorem kalloc_none (hk : kalloc m = none) : m.freelist = [] := by
  unfold kalloc at hk
  cases hfree : m.freelist with
  | nil => rfl
  | cons f fs =>
    rw [hfree] at hk
    cases hk

theorem kalloc_some (hk : kalloc m = some (f, m₁)) : m.freelist = f :: m₁.freelist ∧ m₁ = { m with freelist := m₁.freelist } := by
  unfold kalloc at hk
  cases hfree : m.freelist with
  | nil =>
    rw [hfree] at hk
    cases hk
  | cons g gs =>
    rw [hfree] at hk
    cases hk
    exact ⟨rfl, rfl⟩

theorem kalloc_kend (hk : kalloc m = some (f, m₁)) : m₁.kend = m.kend := by
  rw [(kalloc_some hk).2]

/-- a page for the user in `allocuvm` -/
theorem taken_memset (hk : kalloc m = some (f, m₁)) : Taken f (fun _ => 0) m (m₁.memset f 0) := by
  obtain ⟨hfree, heq⟩ := kalloc_some hk
  have hd := kalloc_dirs hk
  refine ⟨⟨hd.dir, hd.nextDir, hd.data⟩, ?_, hfree, update_self _ _ _, ?_⟩
  · rw [heq]
    rfl
  · intro g hg
    rw [heq]
    exact update_of_ne hg _ _

/-- a page for the copy in `copyuvm` -/
theorem taken_memmove (hk : kalloc m = some (f, m₁)) (src : Frame) : Taken f (m.page src) m (m₁.memmove f src) := by
  obtain ⟨hfree, heq⟩ := kalloc_some hk
  have hd := kalloc_dirs hk
  refine ⟨⟨hd.dir, hd.nextDir, hd.data⟩, ?_, hfree, ?_, ?_⟩
  · rw [heq]
    rfl
  · rw [heq]
    exact update_self _ _ _
  · intro g hg
    rw [heq]
    exact update_of_ne hg _ _

theorem Grown.refl (h a : ℕ) (c : ℕ → Page) (m : Mem) : Grown h a a c 0 m m where
  only := .refl h m
  kend := rfl
  frame := rfl
  mapped := fun v hv hv' => by omega
  own := fun v w e e' hv hv' => by omega
  kept := fun _ _ _ => rfl
  suffix := List.suffix_rfl
  balance := by rw [Finset.Ico_self, framesOn_empty, add_zero, add_zero]
  page := fun _ _ => rfl

/-- one more page -/
theorem Grown.snoc (hg : Grown h a b c lost m m₁) (hab : a ≤ b) (hb : b < 2 ^ 20) (hnodup : m.freelist.Nodup)
    (ht : Taken f (c b) m₁ m₂) (hp : Placed h b ⟨f, true, true⟩ m₂ m₃) : Grown h a (b + 1) c lost m m₃ := by
  have hdir := ht.dirs.dir
  have hsuffix := hp.suffix.trans ht.suffix
  have hfresh : f ∉ m₃.freelist := by
    intro hin
    have hnd : (f :: m₂.freelist).Nodup := ht.free ▸ hg.suffix.sublist.nodup hnodup
    exact (List.nodup_cons.1 hnd).1 (hp.suffix.subset hin)
  -- an entry of the pages before is as it was
  have hbefore : ∀ v, v < b → (m₃.dir h).pteOf (v * PGSIZE) = (m₁.dir h).pteOf (v * PGSIZE) := by
    intro v hv
    rw [hp.pte v (by omega), if_neg (by omega), hdir]
  have hat : (m₃.dir h).pteOf (b * PGSIZE) = some ⟨f, true, true⟩ := by
    rw [hp.pte b hb, if_pos rfl]
  refine ⟨hg.only.trans (ht.dirs.only.trans hp.only), ?_, ?_, ?_, ?_, ?_, ?_, ?_, ?_⟩
  · rw [hp.kend, ht.kend, hg.kend]
  · rw [hp.frame, hdir, hg.frame]
  · intro v hv hv'
    by_cases hvb : v = b
    · subst hvb
      refine ⟨f, hat, hg.suffix.subset ht.mem, hfresh, ?_⟩
      rw [hp.page]
      exact ht.filled
    · obtain ⟨f', hpte, hin, hout, hc⟩ := hg.mapped v hv (by omega)
      refine ⟨f', (hbefore v (by omega)).trans hpte, hin, fun hin' => hout (hsuffix.subset hin'), ?_⟩
      rw [hp.page, ht.page f' fun heq => hout (heq ▸ ht.mem)]
      exact hc
  · -- the new page was free and the others were not
    have hne : ∀ v e, a ≤ v → v < b → (m₃.dir h).pteOf (v * PGSIZE) = some e → e.frame ≠ f := by
      intro v e hv hv' he heq
      obtain ⟨f', hpte, _, hout, _⟩ := hg.mapped v hv hv'
      rw [hbefore v hv', hpte] at he
      cases he
      obtain rfl : f' = f := heq
      exact hout ht.mem
    intro v w e e' hv hv' hw hw' he he' hf
    by_cases hvb : v = b <;> by_cases hwb : w = b
    · rw [hvb, hwb]
    · subst hvb
      rw [hat] at he
      cases he
      exact absurd hf.symm (hne w e' hw (by omega) he')
    · subst hwb
      rw [hat] at he'
      cases he'
      exact absurd hf (hne v e hv (by omega) he)
    · rw [hbefore v (by omega)] at he
      rw [hbefore w (by omega)] at he'
      exact hg.own v w e e' hv (by omega) hw (by omega) he he' hf
  · intro v hv hout
    rw [hp.pte v hv, if_neg (by omega), hdir]
    exact hg.kept v hv (by omega)
  · exact hsuffix.trans hg.suffix
  · have hframes : (m₃.dir h).framesOn (Finset.Ico a (b + 1)) = (m₁.dir h).framesOn (Finset.Ico a b) + {f} := by
      rw [← Finset.insert_Ico_right_eq_Ico_add_one hab, Finset.insert_eq, Finset.union_comm, framesOn_union,
        framesOn_singleton hat]
      · congr 1
        exact framesOn_congr fun v hv => hbefore v (Finset.mem_Ico.1 hv).2
      · rw [Finset.disjoint_singleton_right, Finset.mem_Ico]
        omega
    have htables := hp.tables
    rw [hdir] at htables
    calc (m.freelist : Multiset Frame) + (m.dir h).tableFrames
      _ = m₁.freelist + (m₁.dir h).tableFrames + (m₁.dir h).framesOn (Finset.Ico a b) + lost := hg.balance
      _ = (m₂.freelist + (m₁.dir h).tableFrames) + ((m₁.dir h).framesOn (Finset.Ico a b) + {f}) + lost := by
        rw [ht.cons]
        abel
      _ = m₃.freelist + (m₃.dir h).tableFrames + (m₃.dir h).framesOn (Finset.Ico a (b + 1)) + lost := by
        rw [htables, hframes]
  · intro g hg'
    rw [hp.page, ht.page g fun heq => hg' (heq ▸ hg.suffix.subset ht.mem), hg.page g hg']

/-- a page for the user whose page table does not come about -/
theorem Grown.drop (hg : Grown h a b c lost m m₁) (ht : Taken f p m₁ m₂) : Grown h a b c (lost + {f}) m m₂ := by
  have hdir := ht.dirs.dir
  refine ⟨hg.only.trans ht.dirs.only, ht.kend.trans hg.kend, ?_, ?_, ?_, ?_, ?_, ?_, ?_⟩
  · rw [hdir, hg.frame]
  · intro v hv hv'
    obtain ⟨f', hpte, hin, hout, hc⟩ := hg.mapped v hv hv'
    rw [hdir]
    refine ⟨f', hpte, hin, fun hin' => hout (ht.suffix.subset hin'), ?_⟩
    rw [ht.page f' fun heq => hout (heq ▸ ht.mem)]
    exact hc
  · rw [hdir]
    exact hg.own
  · rw [hdir]
    exact hg.kept
  · exact ht.suffix.trans hg.suffix
  · rw [hg.balance, hdir, ht.cons]
    abel
  · intro g hg'
    rw [ht.page g fun heq => hg' (heq ▸ hg.suffix.subset ht.mem), hg.page g hg']

end Grown

end Xv6Threads.Memory
