/-
The physical pages of a directory, and that giving them back does not panic.

`kfree` panics on a page below `end` or beyond PHYSTOP. A directory that was built from the free list has only pages that
were there: the pages it maps below KERNBASE, its page tables, and the page it lives in.
- `Frames V m h`: these pages and the free ones are all of `V`, whose pages `kfree` accepts.
- `mappages_frames`, `deallocuvm_frames`, `allocuvm_frames`, `setupkvm_frames`: every function of vm.c keeps that.
- `freevm_frames`: a directory of such pages is freed without a panic.
-/
import Xv6Threads.Core.Outcome
import Xv6Threads.Memory.Extent

namespace Xv6Threads.Memory

open Xv6Threads.Core Function

/-- the free pages, the page tables and the page of directory `h` are of `V`, which `kfree` accepts -/
structure TableFrames (V : Frame → Prop) (m : Mem) (h : ℕ) : Prop where
  free : ∀ f ∈ m.freelist, V f
  frame : V (m.dir h).frame
  tables : ∀ i t, (m.dir h).pde i = some t → V t.frame
  range : ∀ f, V f → f ≠ 0 ∧ m.kend ≤ f ∧ f < PHYSTOP / PGSIZE

/-- and so are the pages that it maps below KERNBASE -/
structure Frames (V : Frame → Prop) (m : Mem) (h : ℕ) : Prop extends TableFrames V m h where
  user : ∀ v e, v < USERPAGES → (m.dir h).pteOf (v * PGSIZE) = some e → V e.frame

variable {V : Frame → Prop} {m m' : Mem} {h : ℕ} {f : Frame}

theorem TableFrames.of_same (hf : TableFrames V m h) (hfree : ∀ f ∈ m'.freelist, V f) (hdir : m'.dir h = m.dir h)
    (hkend : m'.kend = m.kend) : TableFrames V m' h := by
  refine ⟨hfree, ?_, ?_, ?_⟩
  · rw [hdir]
    exact hf.frame
  · rw [hdir]
    exact hf.tables
  · rw [hkend]
    exact hf.range

theorem Frames.of_same (hf : Frames V m h) (hfree : ∀ f ∈ m'.freelist, V f) (hdir : m'.dir h = m.dir h)
    (hkend : m'.kend = m.kend) : Frames V m' h := by
  refine ⟨hf.toTableFrames.of_same hfree hdir hkend, ?_⟩
  rw [hdir]
  exact hf.user

theorem kalloc_tableFrames (hf : TableFrames V m h) (hk : kalloc m = some (f, m')) : V f ∧ TableFrames V m' h := by
  have hl := (kalloc_some hk).1
  refine ⟨hf.free f (by simp [hl]), hf.of_same ?_ (by rw [(kalloc_dirs hk).dir]) (kalloc_kend hk)⟩
  intro g hg
  exact hf.free g (by simp [hl, hg])

theorem kalloc_frames (hf : Frames V m h) (hk : kalloc m = some (f, m')) : V f ∧ Frames V m' h := by
  obtain ⟨hV, ht⟩ := kalloc_tableFrames hf.toTableFrames hk
  exact ⟨hV, hf.of_same ht.free (by rw [(kalloc_dirs hk).dir]) (kalloc_kend hk)⟩

/-- `walkpgdir` may add a page table that was free -/
theorem walkpgdir_frames {va : ℕ} {alloc : Bool} (hf : TableFrames V m h) (hw : walkpgdir m h va alloc = some m') :
    TableFrames V m' h := by
  unfold walkpgdir at hw
  split at hw
  · cases hw
    exact hf
  · split at hw
    · split at hw
      · cases hw
      · rename_i f m₁ hk
        cases hw
        obtain ⟨hV, ht⟩ := kalloc_tableFrames hf hk
        refine ⟨ht.free, ?_, ?_, ht.range⟩
        · simp only [Mem.setDir, update_self, Dir.setTable]
          exact ht.frame
        · intro i t
          simp only [Mem.setDir, update_self, Dir.setTable]
          by_cases hi : i = pdx va
          · subst hi
            rw [update_self]
            intro ht'
            cases ht'
            exact hV
          · rw [update_of_ne hi]
            exact ht.tables i t
    · cases hw

theorem setPte_tableFrames (hf : TableFrames V m h) (va : ℕ) (e : Option Pte) : TableFrames V (m.setPte h va e) h := by
  unfold Mem.setPte
  split
  · exact hf
  · rename_i t ht
    refine ⟨hf.free, ?_, ?_, hf.range⟩
    · simp only [Mem.setDir, update_self, Dir.setTable]
      exact hf.frame
    · intro i t'
      simp only [Mem.setDir, update_self, Dir.setTable]
      by_cases hi : i = pdx va
      · subst hi
        rw [update_self]
        intro ht'
        cases ht'
        exact hf.tables (pdx va) t ht
      · rw [update_of_ne hi]
        exact hf.tables i t'

/-- a user page of `V` is mapped, or one is cleared -/
theorem setPte_frames {v : ℕ} (hf : Frames V m h) (hv : v < 2 ^ 20) {e : Option Pte} (he : ∀ e', e = some e' → V e'.frame) :
    Frames V (m.setPte h (v * PGSIZE) e) h := by
  refine ⟨setPte_tableFrames hf.toTableFrames _ _, ?_⟩
  intro w e' hw hpte
  cases ht : (m.dir h).pde (pdx (v * PGSIZE)) with
  | none =>
    have hsame : m.setPte h (v * PGSIZE) e = m := by simp only [Mem.setPte, ht]
    rw [hsame] at hpte
    exact hf.user w e' hw hpte
  | some t =>
    rw [setPte_page hv ht e (user_lt hw)] at hpte
    split at hpte
    · exact he e' hpte
    · exact hf.user w e' hw hpte

/-- `mappages` of one page -/
theorem mappages_frames {v : ℕ} (hf : Frames V m h) (hv : v < 2 ^ 20) (hV : V f) (w u : Bool) :
    Ends (mappages m h (v * PGSIZE) PGSIZE f w u) (fun r => Frames V r.1 h) fun e => e = .remap := by
  have ha : pgrounddown (v * PGSIZE) = v * PGSIZE := by
    unfold pgrounddown PGSIZE
    omega
  have hlast : pgrounddown ((v * PGSIZE + PGSIZE + 2 ^ 32 - 1) % 2 ^ 32) = v * PGSIZE := by
    unfold pgrounddown PGSIZE
    omega
  unfold mappages
  rw [ha, hlast, show (2 : ℕ) ^ 20 = (2 ^ 20 - 1) + 1 from rfl, mapLoop]
  split
  · exact Ends.ok hf
  · rename_i m₁ hw
    obtain ⟨_, _, hpte⟩ := walkpgdir_some hw
    have hf₁ : Frames V m₁ h := by
      refine ⟨walkpgdir_frames hf.toTableFrames hw, ?_⟩
      intro i e hi he
      rw [hpte] at he
      exact hf.user i e hi he
    split
    · exact Ends.error rfl
    · rw [if_pos rfl]
      refine Ends.ok (setPte_frames hf₁ hv ?_)
      intro e' he'
      cases he'
      exact hV

/-- what `deallocuvm` has given back were pages of `V` -/
theorem Cleared.frames {s : Finset ℕ} (hc : Cleared h s m m') (hs : ∀ v ∈ s, v < USERPAGES) (hf : Frames V m h) :
    Frames V m' h := by
  refine ⟨⟨?_, ?_, ?_, ?_⟩, ?_⟩
  · intro f hin
    rw [← Multiset.mem_coe, hc.free, Multiset.mem_add, mem_framesOn] at hin
    rcases hin with ⟨v, hv, e, he, rfl⟩ | hin
    · exact hf.user v e (hs v hv) he
    · exact hf.free f hin
  · rw [hc.frame]
    exact hf.frame
  · intro i t ht
    have hmap := hc.tables i
    rw [ht, Option.map_some] at hmap
    obtain ⟨t', ht', heq⟩ := Option.map_eq_some_iff.1 hmap.symm
    exact heq ▸ hf.tables i t' ht'
  · rw [hc.kend]
    exact hf.range
  · intro v e hv he
    rw [hc.pte v (user_lt hv)] at he
    split at he
    · cases he
    · exact hf.user v e hv he

/-- **`deallocuvm` does not panic** on a directory of such pages. -/
theorem deallocuvm_frames {oldsz newsz : ℕ} (hold : oldsz ≤ KERNBASE) (hf : Frames V m h) :
    Ends (deallocuvm m h oldsz newsz) (fun r => Frames V r.1 h) fun _ => False := by
  by_cases hge : newsz ≥ oldsz
  · unfold deallocuvm
    rw [if_pos hge]
    exact Ends.ok hf
  have huser : ∀ v ∈ reached (m.dir h).tables (pages newsz) (pages oldsz), v < USERPAGES :=
    fun v hv => (mem_reached.1 hv).2.1.trans_le (pages_le_user hold)
  rcases deallocuvm_exact (m := m) (h := h) hold (Nat.le_of_not_le hge) with ⟨_, hbad⟩ | ⟨m', he, _, hc⟩
  · exact absurd (fun v hv e he => hf.range _ (hf.user v e (huser v hv) he)) hbad
  · rw [he]
    exact Ends.ok (hc.frames huser hf)

theorem allocLoop_frames {oldsz newsz : ℕ} (hnew : newsz < KERNBASE) (k : ℕ) : ∀ (j : ℕ) (m : Mem), Frames V m h →
    Ends (allocLoop h oldsz newsz k (j * PGSIZE) m) (fun r => Frames V r.1 h ∧ (r.2 = 0 ∨ r.2 = newsz))
      fun e => e = .remap := by
  induction k with
  | zero =>
    intro j m hf
    exact Ends.ok ⟨hf, .inr rfl⟩
  | succ k ih =>
    intro j m hf
    simp only [allocLoop]
    split
    · rename_i hlt
      have hj : j < 2 ^ 20 := by
        unfold PGSIZE at hlt
        unfold KERNBASE at hnew
        omega
      split
      · obtain ⟨r, hd, hf'⟩ := (deallocuvm_frames hnew.le hf).returns
        rw [hd]
        exact Ends.ok ⟨hf', .inl rfl⟩
      · rename_i f m₁ hk
        obtain ⟨hV, hf₁⟩ := kalloc_frames hf hk
        have hf₂ : Frames V (m₁.memset f 0) h := hf₁.of_same hf₁.free rfl rfl
        have hmap := mappages_frames hf₂ hj hV true true
        have hnext : j * PGSIZE + PGSIZE = (j + 1) * PGSIZE := by
          unfold PGSIZE
          omega
        split
        · rename_i e he
          rw [he] at hmap
          exact Ends.error hmap
        · rename_i m₂ ok he
          rw [he] at hmap
          rw [hnext]
          exact ih _ _ hmap
    · exact Ends.ok ⟨hf, .inr rfl⟩

/-- `allocuvm` takes its pages from the free list; if it returns a size, that is the larger one -/
theorem allocuvm_frames {oldsz newsz : ℕ} (hold : oldsz ≤ KERNBASE) (hf : Frames V m h) :
    Ends (allocuvm m h oldsz newsz) (fun r => Frames V r.1 h ∧ (r.2 = 0 ∨ r.2 = max oldsz newsz)) fun e => e = .remap := by
  unfold allocuvm
  split
  · exact Ends.ok ⟨hf, .inl rfl⟩
  · split
    · rename_i hlt
      exact Ends.ok ⟨hf, .inr (max_eq_left hlt.le).symm⟩
    · rename_i hnew hge
      rw [pgroundup_eq hold]
      refine (allocLoop_frames (Nat.lt_of_not_le hnew) (newsz / PGSIZE + 1) (pages oldsz) m hf).mono ?_ fun _ he => he
      intro r hr
      rw [max_eq_right (Nat.le_of_not_lt hge)]
      exact hr

/-- **`setupkvm`** makes a directory of pages that were free. -/
theorem setupkvm_frames (hl : Linked m) (hfree : ∀ f ∈ m.freelist, V f)
    (hrange : ∀ f, V f → f ≠ 0 ∧ m.kend ≤ f ∧ f < PHYSTOP / PGSIZE) :
    ∃ m' r, setupkvm m = .ok (m', r) ∧ Older m m' ∧ (∀ f ∈ m'.freelist, V f) ∧
      ∀ d, r = some d → d = m.nextDir ∧ (m'.dir d).Extent 0 ∧ Frames V m' d := by
  rcases setupkvm_exact hl with ⟨_, he⟩ | ⟨m', _, _, he, hnil, ho, _⟩ | ⟨m', _, he, hd⟩
  · exact ⟨m, none, he, ⟨fun _ _ => rfl, le_rfl, rfl⟩, hfree, fun d hr => by cases hr⟩
  · refine ⟨m', none, he, ho, ?_, fun d hr => by cases hr⟩
    rw [hnil]
    exact fun f hin => absurd hin List.not_mem_nil
  have hin : ∀ f ∈ (m'.freelist : Multiset Frame) + (m'.dir m.nextDir).tableFrames + {(m'.dir m.nextDir).frame}, V f := by
    rw [← hd.balance]
    exact fun f hf => hfree f (Multiset.mem_coe.1 hf)
  simp only [Multiset.mem_add, Multiset.mem_singleton, Multiset.mem_coe] at hin
  refine ⟨m', some m.nextDir, he, hd.older, fun f hf => hin f (.inl (.inl hf)), fun d hr => ?_⟩
  cases hr
  refine ⟨rfl, hd.extent, ⟨fun f hf => hin f (.inl (.inl hf)), hin _ (.inr rfl), ?_, ?_⟩, ?_⟩
  · exact fun i t ht => hin _ (.inl (.inr (mem_tableFrames.2 ⟨i, t, ht, rfl⟩)))
  · rw [hd.kend]
    exact hrange
  · intro v e hv hpte
    exact absurd ((hd.extent v hv).1 (by rw [hpte]; rfl)) (Nat.not_lt_zero v)

/-- **`freevm` does not panic** on a directory of such pages. -/
theorem freevm_frames (hf : Frames V m h) : Ends (freevm m h) (fun _ => True) fun _ => False := by
  have hall : AllFreeable m h (Finset.range USERPAGES) :=
    fun v hv e he => hf.range _ (hf.user v e (Finset.mem_range.1 hv) he)
  obtain ⟨m', he, _⟩ := (freevm_exact m h).resolve_left fun hno =>
    hno.2 ⟨hall, fun i t ht => hf.range _ (hf.tables i t ht), hf.range _ hf.frame⟩
  rw [he]
  exact Ends.ok trivial

/-! ## Enough memory -/

/-- with a page for the directory, one for each of its 1024 page tables and one more, `setupkvm` makes a directory -/
theorem setupkvm_enough (hl : Linked m) (hm : 1025 < m.freelist.length) :
    ∃ m', setupkvm m = .ok (m', some m.nextDir) ∧ m'.freelist ≠ [] := by
  rcases setupkvm_exact hl with ⟨hnil, _⟩ | ⟨_, _, hfew, _⟩ | ⟨m', _, he, hd⟩
  · rw [hnil, List.length_nil] at hm
    omega
  · omega
  · refine ⟨m', he, List.ne_nil_of_length_pos ?_⟩
    have := hd.length
    omega

end Xv6Threads.Memory
