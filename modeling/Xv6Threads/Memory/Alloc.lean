/-
`allocuvm` and `growproc` when memory may run out at any page.

A round of `allocuvm` takes a page for the user and then, inside `mappages`, perhaps one for a page table. If the first is
missing, everything is taken back. If the second is missing, `mappages` says so and nobody listens: the page of this round
is lost, and the loop goes on. It then finds no page in the next round and takes everything else back; but if that was the
last round, `allocuvm` returns the new size without the page.
- `Undone`: all pages that have been mapped are taken back.
- `allocLoop_ends`: the four ways in which the loop ends, told from the free pages and the page tables at its start.
- `allocuvm_whole_iff`: `allocuvm` maps everything or nothing exactly when it does not lack a page for a page table.
- `growproc_exact_iff`: when `growproc` is exact or has no effect. It is neither if the page table of the last page is what
  is lacking; if the process shrinks to 0, which frees everything and returns -1; or if it shrinks by more than it has,
  which changes nothing and returns 0.
-/
import Xv6Threads.Memory.Growproc

namespace Xv6Threads.Memory

/-! ## Taking pages back -/

/-- the directory maps what it mapped, and the free pages and its page tables are the same pages but those in `lost` -/
structure Undone (h : ℕ) (lost : Multiset Frame) (m m' : Mem) : Prop where
  only : Only h m m'
  pte : ∀ v, v < 2 ^ 20 → (m'.dir h).pteOf (v * PGSIZE) = (m.dir h).pteOf (v * PGSIZE)
  balance : (m.freelist : Multiset Frame) + (m.dir h).tableFrames = m'.freelist + (m'.dir h).tableFrames + lost
  page : ∀ f, f ∉ m.freelist → m'.page f = m.page f

section Undo

variable {h : ℕ} {c : ℕ → Page} {lost : Multiset Frame} {m m₁ : Mem}

/-- no user page is mapped at or above PGROUNDUP(oldsz) -/
def NoneAbove (m : Mem) (h oldsz : ℕ) : Prop :=
  ∀ v, v < USERPAGES → pgroundup oldsz ≤ v * PGSIZE → (m.dir h).pteOf (v * PGSIZE) = none

theorem NoneAbove.page {oldsz v : ℕ} (hn : NoneAbove m h oldsz) (hold : oldsz ≤ KERNBASE) (hv : v < USERPAGES)
    (hle : pages oldsz ≤ v) : (m.dir h).pteOf (v * PGSIZE) = none := by
  apply hn v hv
  rw [pgroundup_eq hold]
  exact Nat.mul_le_mul_right PGSIZE hle

/-- **`deallocuvm` takes everything back.** The pages that have been mapped begin at PGROUNDUP(oldsz), so their first page
table exists and none is passed over. -/
theorem Grown.undo {oldsz newsz j : ℕ} (hg : Grown h (pages oldsz) j c lost m m₁) (hle : oldsz ≤ newsz)
    (hnew : newsz < KERNBASE) (hj : j ≤ pages newsz) (hfree : FreeListOk m) (hnone : NoneAbove m h oldsz) :
    ∃ m', deallocuvm m₁ h newsz oldsz = .ok (m', oldsz) ∧ Undone h lost m m' := by
  have huser : ∀ v, v < pages newsz → v < USERPAGES := fun v hv => hv.trans_le (pages_le_user hnew.le)
  have hbeyond : ∀ v, pages oldsz ≤ v → j ≤ v → v < pages newsz → (m₁.dir h).pteOf (v * PGSIZE) = none := by
    intro v hv hjv hvp
    rw [hg.kept v (user_lt (huser v hvp)) (.inr hjv)]
    exact hnone.page (by omega) (huser v hvp) hv
  have hall : AllFreeable m₁ h (Finset.Ico (pages oldsz) (pages newsz)) := by
    intro v hv e he
    obtain ⟨hv, hvp⟩ := Finset.mem_Ico.1 hv
    by_cases hvj : v < j
    · obtain ⟨f, hpte, hin, _, _⟩ := hg.mapped v hv hvj
      rw [hpte] at he
      cases he
      exact (hfree.freeable f hin).of_kend hg.kend
    · rw [hbeyond v hv (by omega) hvp] at he
      cases he
  have hsub : reached (m₁.dir h).tables (pages oldsz) (pages newsz) ⊆ Finset.Ico (pages oldsz) (pages newsz) :=
    Finset.filter_subset _ _
  rcases deallocuvm_exact (m := m₁) (h := h) hnew.le hle with ⟨_, hbad⟩ | ⟨m', hok, _, hclear⟩
  · exact absurd (fun v hv => hall v (hsub hv)) hbad
  · refine ⟨m', hok, ?_⟩
    have hclear := hclear.enlarge hsub (by
      intro v hv hout
      obtain ⟨hv, hvp⟩ := Finset.mem_Ico.1 hv
      by_cases hempty : j ≤ pages oldsz
      · exact hbeyond v hv (by omega) hvp
      · obtain ⟨f, hpte, _⟩ := hg.mapped (pages oldsz) le_rfl (by omega)
        have htable := tables_of_pteOf hpte
        rw [pdx_page] at htable
        exact absurd (mem_reached.2 ⟨hv, hvp, not_missed htable v⟩) hout)
    have hframes : (m₁.dir h).framesOn (Finset.Ico (pages oldsz) (pages newsz)) =
        (m₁.dir h).framesOn (Finset.Ico (pages oldsz) j) := by
      by_cases hoj : pages oldsz ≤ j
      · rw [← Finset.Ico_union_Ico_eq_Ico hoj hj, framesOn_union (Finset.Ico_disjoint_Ico_consecutive _ _ _)]
        rw [framesOn_of_none (s := Finset.Ico j (pages newsz))]
        · exact add_zero _
        · intro v hv
          obtain ⟨hv, hvp⟩ := Finset.mem_Ico.1 hv
          exact hbeyond v (by omega) hv hvp
      · rw [Finset.Ico_eq_empty (by omega : ¬ pages oldsz < j), framesOn_empty]
        apply framesOn_of_none
        intro v hv
        obtain ⟨hv, hvp⟩ := Finset.mem_Ico.1 hv
        exact hbeyond v hv (by omega) hvp
    refine ⟨hg.only.trans hclear.only, ?_, ?_, ?_⟩
    · intro v hv
      rw [hclear.pte v hv]
      by_cases hin : v ∈ Finset.Ico (pages oldsz) (pages newsz)
      · obtain ⟨hvo, hvp⟩ := Finset.mem_Ico.1 hin
        rw [if_pos hin, hnone.page (by omega) (huser v hvp) hvo]
      · rw [if_neg hin]
        apply hg.kept v hv
        rw [Finset.mem_Ico] at hin
        omega
    · rw [hg.balance, hclear.free, hframes, tableFrames_congr hclear.tables]
      abel
    · intro f hf
      rw [hclear.page f, hg.page f hf]
      rw [hframes, mem_framesOn]
      intro ⟨v, hv, e, he, hef⟩
      obtain ⟨hvo, hvj⟩ := Finset.mem_Ico.1 hv
      obtain ⟨f', hpte, hin, _, _⟩ := hg.mapped v hvo hvj
      rw [hpte] at he
      cases he
      exact hf (hef ▸ hin)

end Undo

/-! ## The loop of allocuvm -/

/-- as `tablesFit`, but memory runs out where a page table is due for the last page -/
def lastTableFits (newsz : ℕ) : ℕ → ℕ → (Fin 1024 → Bool) → ℕ → Bool
  | 0, _, _, _ => true
  | _ + 1, _, _, 0 => true
  | k + 1, a, has, free + 1 =>
    if newsz ≤ a then true
    else if has (pdx a) then lastTableFits newsz k (a + PGSIZE) has free
    else if free = 0 then decide (a + PGSIZE < newsz)
    else lastTableFits newsz k (a + PGSIZE) (Function.update has (pdx a) true) (free - 1)

section Loop

variable {m m₁ m' : Mem} {h oldsz newsz : ℕ}

theorem lastTableFits_succ {k a free : ℕ} {has : Fin 1024 → Bool} (ha : a < newsz) :
    lastTableFits newsz (k + 1) a has (free + 1) =
      if has (pdx a) then lastTableFits newsz k (a + PGSIZE) has free
      else if free = 0 then decide (a + PGSIZE < newsz)
      else lastTableFits newsz k (a + PGSIZE) (Function.update has (pdx a) true) (free - 1) := by
  rw [lastTableFits, if_neg (by omega)]

/-- how `allocuvm` ends, and whether a page for a page table was lacking: it was not (`fits`), or not for the last page
(`last`) -/
inductive AllocEnds (m : Mem) (h oldsz newsz : ℕ) : Bool → Bool → Except Panic (Mem × ℕ) → Prop where
  | mapped {m' : Mem} : Grown h (pages oldsz) (pages newsz) (fun _ _ => 0) 0 m m' → AllocEnds m h oldsz newsz true true (.ok (m', newsz))
  | undone {m' : Mem} : pages oldsz < pages newsz → Undone h 0 m m' → AllocEnds m h oldsz newsz true true (.ok (m', 0))
  | leaked {m' : Mem} {f : Frame} : pages oldsz < pages newsz → Undone h {f} m m' →
      AllocEnds m h oldsz newsz false true (.ok (m', 0))
  | unmapped {m' : Mem} : pages oldsz < pages newsz → (m'.dir h).pteOf ((pages newsz - 1) * PGSIZE) = none →
      AllocEnds m h oldsz newsz false false (.ok (m', newsz))

/-- **The loop of `allocuvm`**, from `j` on with the pages before it mapped. -/
theorem allocLoop_ends (hle : oldsz ≤ newsz) (hnew : newsz < KERNBASE) (hfree : FreeListOk m) (hnone : NoneAbove m h oldsz)
    (n : ℕ) : ∀ (j : ℕ) (m₁ : Mem), pages oldsz ≤ j → j ≤ pages newsz → pages newsz ≤ n + j →
    Grown h (pages oldsz) j (fun _ _ => 0) 0 m m₁ →
    AllocEnds m h oldsz newsz (tablesFit newsz n (j * PGSIZE) (m₁.dir h).tables m₁.freelist.length)
      (lastTableFits newsz n (j * PGSIZE) (m₁.dir h).tables m₁.freelist.length)
      (allocLoop h oldsz newsz n (j * PGSIZE) m₁) := by
  induction n with
  | zero =>
    intro j m₁ hoj hj hn hg
    obtain rfl : j = pages newsz := by omega
    exact .mapped hg
  | succ n ih =>
    intro j m₁ hoj hj hn hg
    by_cases hlt : j * PGSIZE < newsz
    · have hjp : j < pages newsz := page_lt_iff.1 hlt
      have hju : j < USERPAGES := hjp.trans_le (pages_le_user hnew.le)
      have hnext : j * PGSIZE + PGSIZE = (j + 1) * PGSIZE := by
        unfold PGSIZE
        omega
      rw [allocLoop, if_pos hlt]
      cases hk : kalloc m₁ with
      | none =>
        -- no page for the user
        obtain ⟨m', hd, hundone⟩ := hg.undo hle hnew hj hfree hnone
        rw [kalloc_none hk]
        simp only [hd]
        exact .undone (by omega) hundone
      | some p =>
        obtain ⟨f, m₂⟩ := p
        have ht := taken_memset hk
        have hdir := ht.dirs.dir
        have hlist : (m₂.memset f 0).freelist = m₂.freelist := rfl
        have hpte : ((m₂.memset f 0).dir h).pteOf (j * PGSIZE) = none := by
          rw [hdir, hg.kept j (user_lt hju) (.inr le_rfl)]
          exact hnone.page (by omega) hju hoj
        rw [kalloc_length hk, tablesFit_succ hlt, lastTableFits_succ hlt, ← hdir, ← hlist, hnext]
        simp only
        rcases mappages_placed (user_lt hju) hpte f true true with ⟨hmap, htable, hempty⟩ | ⟨m₃, hmap, hp⟩
        · -- no page for the page table: this page is lost
          have hdropped := hg.drop ht
          rw [zero_add] at hdropped
          simp only [hmap, htable, hempty, List.length_nil, Bool.false_eq_true, if_false, if_true]
          cases n with
          | zero =>
            have hlast : ¬ (j + 1) * PGSIZE < newsz := fun hlt' => by
              have := page_lt_iff.1 hlt'
              omega
            rw [decide_eq_false hlast, allocLoop]
            have hj' : pages newsz - 1 = j := by omega
            exact .unmapped (by omega) (by rw [hj']; exact hpte)
          | succ n =>
            rw [allocLoop]
            by_cases hlt' : (j + 1) * PGSIZE < newsz
            · rw [if_pos hlt', decide_eq_true hlt', show kalloc (m₂.memset f 0) = none by rw [kalloc, hempty]]
              obtain ⟨m', hd, hundone⟩ := hdropped.undo hle hnew hj hfree hnone
              simp only [hd]
              exact .leaked (by omega) hundone
            · rw [if_neg hlt', decide_eq_false hlt']
              have hj' : pages newsz - 1 = j := by
                have := page_lt_iff.not.1 hlt'
                omega
              exact .unmapped (by omega) (by rw [hj']; exact hpte)
        · rw [hp.takes.count (tablesFit newsz n ((j + 1) * PGSIZE)), hp.takes.count (lastTableFits newsz n ((j + 1) * PGSIZE))]
          simp only [hmap]
          exact ih (j + 1) m₃ (by omega) (by omega) (by omega) (hg.snoc hoj (user_lt hju) hfree.nodup ht hp)
    · have hj' : j = pages newsz := by
        have := page_lt_iff.not.1 hlt
        omega
      have hfits : tablesFit newsz (n + 1) (j * PGSIZE) (m₁.dir h).tables m₁.freelist.length = true := by
        cases m₁.freelist.length with
        | zero => rfl
        | succ k => rw [tablesFit, if_pos (by omega)]
      have hlast : lastTableFits newsz (n + 1) (j * PGSIZE) (m₁.dir h).tables m₁.freelist.length = true := by
        cases m₁.freelist.length with
        | zero => rfl
        | succ k => rw [lastTableFits, if_pos (by omega)]
      rw [hfits, hlast, allocLoop, if_neg hlt]
      exact .mapped (hj' ▸ hg)

/-- memory does not run out just where `allocuvm` needs a page table for the last page -/
def LastTableFits (m : Mem) (h oldsz newsz : ℕ) : Prop :=
  lastTableFits newsz (newsz / PGSIZE + 1) (pgroundup oldsz) (m.dir h).tables m.freelist.length = true

instance (m : Mem) (h oldsz newsz : ℕ) : Decidable (LastTableFits m h oldsz newsz) := by
  unfold LastTableFits
  infer_instance

theorem allocuvm_ends (hle : oldsz ≤ newsz) (hnew : newsz < KERNBASE) (hfree : FreeListOk m) (hnone : NoneAbove m h oldsz) :
    AllocEnds m h oldsz newsz (decide (AllocFits m h oldsz newsz)) (decide (LastTableFits m h oldsz newsz))
      (allocuvm m h oldsz newsz) := by
  have hn := pages_le_div newsz
  have hends := allocLoop_ends hle hnew hfree hnone (newsz / PGSIZE + 1) (pages oldsz) m le_rfl (pages_mono hle) (by omega)
    (.refl h (pages oldsz) (fun _ _ => 0) m)
  rw [← pgroundup_eq (hle.trans hnew.le)] at hends
  have hfits : decide (AllocFits m h oldsz newsz) =
      tablesFit newsz (newsz / PGSIZE + 1) (pgroundup oldsz) (m.dir h).tables m.freelist.length :=
    Bool.eq_iff_iff.2 decide_eq_true_iff
  have hlast : decide (LastTableFits m h oldsz newsz) =
      lastTableFits newsz (newsz / PGSIZE + 1) (pgroundup oldsz) (m.dir h).tables m.freelist.length :=
    Bool.eq_iff_iff.2 decide_eq_true_iff
  rw [hfits, hlast]
  unfold allocuvm
  rw [if_neg (by omega), if_neg (by omega)]
  exact hends

/-- what `allocuvm` is for. If it returns the new size, every page of [PGROUNDUP(oldsz), newsz) is present,
user-writable and backed by a page that was free, is not any more, is no other's and holds zeros. If it returns 0, no page
from PGROUNDUP(oldsz) on is present, and the free pages and the page tables together are the pages that they were: what it
took for the user is free again. -/
structure AllOrNothing (m : Mem) (h oldsz newsz : ℕ) (m' : Mem) (r : ℕ) : Prop where
  result : r = newsz ∨ r = 0
  mapped : r = newsz → ∀ v, pgroundup oldsz ≤ v * PGSIZE → v * PGSIZE < newsz →
    ∃ f, (m'.dir h).pteOf (v * PGSIZE) = some ⟨f, true, true⟩ ∧ f ∈ m.freelist ∧ f ∉ m'.freelist ∧
      m'.page f = (fun _ => 0) ∧ ∀ w e, pgroundup oldsz ≤ w * PGSIZE → w * PGSIZE < newsz →
        (m'.dir h).pteOf (w * PGSIZE) = some e → e.frame = f → w = v
  none : r = 0 → NoneAbove m' h oldsz
  back : r = 0 → (m'.freelist : Multiset Frame) + (m'.dir h).tableFrames = m.freelist + (m.dir h).tableFrames

/-- **`allocuvm` maps everything or nothing exactly when page tables are not what it lacks.** For any directory without
pages from PGROUNDUP(oldsz) on and any free list. -/
theorem allocuvm_whole_iff (m : Mem) (h oldsz newsz : ℕ) (hle : oldsz ≤ newsz) (hnew : newsz < KERNBASE)
    (hfree : FreeListOk m) (hnone : NoneAbove m h oldsz) :
    (∃ m' r, allocuvm m h oldsz newsz = .ok (m', r) ∧ AllOrNothing m h oldsz newsz m' r) ↔
      AllocFits m h oldsz newsz := by
  have hold : oldsz ≤ KERNBASE := hle.trans hnew.le
  have hpage : ∀ v, pgroundup oldsz ≤ v * PGSIZE ∧ v * PGSIZE < newsz ↔ pages oldsz ≤ v ∧ v < pages newsz := by
    intro v
    rw [← mem_between hold, between, Finset.mem_Ico]
  have hpos : pages oldsz < pages newsz → newsz ≠ 0 := by
    intro hlt heq
    subst heq
    exact absurd hlt (Nat.not_lt_zero _)
  have hends := allocuvm_ends hle hnew hfree hnone
  generalize allocuvm m h oldsz newsz = r at hends ⊢
  generalize hlast : decide (LastTableFits m h oldsz newsz) = last at hends
  by_cases hfits : AllocFits m h oldsz newsz
  · rw [decide_eq_true hfits] at hends
    refine ⟨fun _ => hfits, fun _ => ?_⟩
    generalize htrue : true = fits at hends
    cases hends with
    | @mapped m' hg =>
      refine ⟨m', newsz, rfl, .inl rfl, ?_, ?_, ?_⟩
      · intro _ v hv hv'
        obtain ⟨hv, hv'⟩ := (hpage v).1 ⟨hv, hv'⟩
        obtain ⟨f, hpte, hin, hout, hzero⟩ := hg.mapped v hv hv'
        refine ⟨f, hpte, hin, hout, hzero, ?_⟩
        intro w e hw hw' he hef
        obtain ⟨hw, hw'⟩ := (hpage w).1 ⟨hw, hw'⟩
        exact hg.own w v e ⟨f, true, true⟩ hw hw' hv hv' he hpte hef
      · intro h0 v hv hvo
        rw [hg.kept v (user_lt hv)]
        · exact hnone v hv hvo
        · rw [h0]
          exact .inr (Nat.zero_le v)
      · intro h0
        have hbalance := hg.balance
        have hempty : Finset.Ico (pages oldsz) (pages newsz) = ∅ := by
          rw [h0]
          exact Finset.Ico_eq_empty (Nat.not_lt_zero _)
        rw [hempty, framesOn_empty, add_zero, add_zero] at hbalance
        exact hbalance.symm
    | @undone m' hlt hu =>
      refine ⟨m', 0, rfl, .inr rfl, fun h0 => absurd h0.symm (hpos hlt), ?_, ?_⟩
      · intro _ v hv hvo
        rw [hu.pte v (user_lt hv)]
        exact hnone v hv hvo
      · intro _
        rw [hu.balance, add_zero]
    | leaked => cases htrue
    | unmapped => cases htrue
  · rw [decide_eq_false hfits] at hends
    refine ⟨fun hwhole => ?_, fun hyes => absurd hyes hfits⟩
    obtain ⟨m'', r', hr, hall⟩ := hwhole
    generalize hfalse : false = fits at hends
    exfalso
    cases hends with
    | mapped => cases hfalse
    | undone => cases hfalse
    | @leaked m' f hlt hu =>
      cases hr
      -- the page that was dropped is missing
      have hback := hall.back rfl
      rw [hu.balance] at hback
      have hcard := congrArg Multiset.card hback
      rw [Multiset.card_add _ {f}, Multiset.card_singleton] at hcard
      omega
    | @unmapped m' hlt hmissing =>
      cases hr
      have hin := (hpage (pages newsz - 1)).2 ⟨by omega, by omega⟩
      obtain ⟨f, hpte, _⟩ := hall.mapped rfl _ hin.1 hin.2
      rw [hmissing] at hpte
      cases hpte

theorem onePage_free : FreeListOk onePage.mem := ⟨by decide, by decide⟩

theorem onePage_noneAbove : NoneAbove onePage.mem 0 PGSIZE := by
  intro v hv hle
  have hnot : ¬ v < pages PGSIZE := by
    rw [show pgroundup PGSIZE = pages PGSIZE * PGSIZE from pgroundup_eq (by decide)] at hle
    exact not_lt.2 (Nat.le_of_mul_le_mul_right hle (by decide))
  exact Option.not_isSome_iff_eq_none.1 ((onePage_start.extent v hv).not.2 hnot)

theorem onePage_allocuvm : ∃ m' r, allocuvm onePage.mem 0 PGSIZE (3 * PGSIZE) = .ok (m', r) ∧
    AllOrNothing onePage.mem 0 PGSIZE (3 * PGSIZE) m' r :=
  (allocuvm_whole_iff onePage.mem 0 PGSIZE (3 * PGSIZE) (by decide) (by decide) onePage_free onePage_noneAbove).2
    (by decide +kernel)

/-- an empty directory and one free page -/
def tight : Mem where
  freelist := [0x300]
  page := fun _ _ => 0
  dir := fun _ => ⟨0x200, fun _ => none⟩
  nextDir := 1
  kend := 0x180
  data := 0x80108000

/-- **The page table that is not there.** The one free page goes to the user and none is left for a page table; `allocuvm`
returns the new size all the same, and the page is not mapped. -/
theorem allocuvm_maps_nothing : ¬ ∃ m' r, allocuvm tight 0 0 PGSIZE = .ok (m', r) ∧ AllOrNothing tight 0 0 PGSIZE m' r := by
  intro ⟨m', r, hrun, hall⟩
  have hresult : allocuvm tight 0 0 PGSIZE = .ok (Mem.memset { tight with freelist := [] } 0x300 0, PGSIZE) := by rfl
  rw [hresult] at hrun
  cases hrun
  obtain ⟨f, hpte, _⟩ := hall.mapped rfl 0 (by decide) (by decide)
  cases hpte

end Loop

/-! ## growproc -/

/-- the memory of a process of size `sz`: its pages are those below `sz`, no page is mapped twice or mapped and free, and
all of them came from the free list -/
structure UserMemory (m : Mem) (h sz : ℕ) : Prop where
  sz_lt : sz < KERNBASE
  extent : (m.dir h).Extent (pages sz)
  free : FreeListOk m
  freeable : AllFreeable m h (Finset.range (pages sz))
  apart : ((m.dir h).framesOn (Finset.range (pages sz)) + m.freelist).Nodup

/-- the pages below `sz'` and no others are mapped; those that were mapped before have their contents, the new ones are
zero -/
structure Resized (m : Mem) (h sz : ℕ) (m' : Mem) (sz' : ℕ) : Prop where
  extent : ∀ v, v < USERPAGES → (((m'.dir h).pteOf (v * PGSIZE)).isSome = true ↔ v * PGSIZE < sz')
  kept : ∀ v e, v * PGSIZE < sz → v * PGSIZE < sz' → (m.dir h).pteOf (v * PGSIZE) = some e →
    (m'.dir h).pteOf (v * PGSIZE) = some e ∧ m'.page e.frame = m.page e.frame
  zero : ∀ v, ¬ v * PGSIZE < sz → v * PGSIZE < sz' →
    ∃ e, (m'.dir h).pteOf (v * PGSIZE) = some e ∧ m'.page e.frame = fun _ => 0

/-- all user mappings and their contents are as before -/
def SameUser (m : Mem) (h : ℕ) (m' : Mem) : Prop :=
  ∀ v, v < USERPAGES → (m'.dir h).pteOf (v * PGSIZE) = (m.dir h).pteOf (v * PGSIZE) ∧
    ∀ e, (m.dir h).pteOf (v * PGSIZE) = some e → m'.page e.frame = m.page e.frame

/-- what `growproc` is for: the size is the sum and the memory has that size, or nothing has happened -/
def GrowExact (m : Mem) (h sz : ℕ) (n : ℤ) (m' : Mem) : Option ℕ → Prop
  | some sz' => (sz' : ℤ) = sz + n ∧ sz' ≤ KERNBASE ∧ Resized m h sz m' sz'
  | none => SameUser m h m'

section Growproc

variable {m m' : Mem} {h sz sz' : ℕ}

theorem SameUser.refl (m : Mem) (h : ℕ) : SameUser m h m := fun _ _ => ⟨rfl, fun _ _ => rfl⟩

/-- a page of the process is not free -/
theorem UserMemory.not_free (hm : UserMemory m h sz) {v : ℕ} {e : Pte} (hv : v < USERPAGES)
    (he : (m.dir h).pteOf (v * PGSIZE) = some e) : e.frame ∉ m.freelist := by
  intro hfree
  have hlt : v < pages sz := (hm.extent v hv).1 (by rw [he]; rfl)
  have hmem : e.frame ∈ (m.dir h).framesOn (Finset.range (pages sz)) :=
    mem_framesOn.2 ⟨v, Finset.mem_range.2 hlt, e, he, rfl⟩
  exact Multiset.disjoint_left.1 (Multiset.nodup_add.1 hm.apart).2.2 hmem (Multiset.mem_coe.2 hfree)

theorem UserMemory.noneAbove (hm : UserMemory m h sz) : NoneAbove m h sz := by
  intro v hv hle
  apply Option.not_isSome_iff_eq_none.1
  rw [hm.extent v hv]
  rw [pgroundup_eq hm.sz_lt.le] at hle
  exact not_lt.2 (Nat.le_of_mul_le_mul_right hle (by decide))

theorem UserMemory.resized_self (hm : UserMemory m h sz) : Resized m h sz m sz := by
  refine ⟨?_, fun v e _ _ he => ⟨he, rfl⟩, fun v hv hv' => absurd hv' hv⟩
  intro v hv
  rw [hm.extent v hv, page_lt_iff]

/-- `allocuvm` succeeded -/
theorem Grown.resized (hg : Grown h (pages sz) (pages sz') (fun _ _ => 0) 0 m m') (hm : UserMemory m h sz) (hle : sz ≤ sz') :
    Resized m h sz m' sz' := by
  have hpages := pages_mono hle
  refine ⟨?_, ?_, ?_⟩
  · intro v hv
    rw [page_lt_iff]
    by_cases hnew : pages sz ≤ v ∧ v < pages sz'
    · obtain ⟨f, hpte, _⟩ := hg.mapped v hnew.1 hnew.2
      rw [hpte]
      exact ⟨fun _ => hnew.2, fun _ => rfl⟩
    · rw [hg.kept v (user_lt hv) (by omega), hm.extent v hv]
      omega
  · intro v e hv hv' he
    have hvp := page_lt_iff.1 hv
    have hu : v < USERPAGES := hvp.trans_le (pages_le_user hm.sz_lt.le)
    rw [hg.kept v (user_lt hu) (.inl hvp)]
    exact ⟨he, hg.page _ (hm.not_free hu he)⟩
  · intro v hv hv'
    rw [page_lt_iff] at hv hv'
    obtain ⟨f, hpte, _, _, hzero⟩ := hg.mapped v (by omega) hv'
    exact ⟨_, hpte, hzero⟩

/-- `allocuvm` has taken its pages back -/
theorem Undone.same {lost : Multiset Frame} (hu : Undone h lost m m') (hm : UserMemory m h sz) : SameUser m h m' :=
  fun v hv => ⟨hu.pte v (user_lt hv), fun _ he => hu.page _ (hm.not_free hv he)⟩

/-- **`deallocuvm` on the memory of a process**: nothing is passed over, since the first page to go is present -/
theorem UserMemory.deallocuvm (hm : UserMemory m h sz) (hlt : sz' < sz) :
    ∃ m', deallocuvm m h sz sz' = .ok (m', sz') ∧ Resized m h sz m' sz' := by
  have hpages := pages_mono hlt.le
  have hsub : reached (m.dir h).tables (pages sz') (pages sz) ⊆ Finset.Ico (pages sz') (pages sz) := Finset.filter_subset _ _
  have hall : AllFreeable m h (Finset.Ico (pages sz') (pages sz)) := by
    intro v hv
    exact hm.freeable v (Finset.mem_range.2 (Finset.mem_Ico.1 hv).2)
  rcases deallocuvm_exact (m := m) (h := h) hm.sz_lt.le hlt.le with ⟨_, hbad⟩ | ⟨m', hok, _, hclear⟩
  · exact absurd (fun v hv => hall v (hsub hv)) hbad
  · refine ⟨m', hok, ?_⟩
    have hclear := hclear.enlarge hsub (by
      intro v hv hout
      obtain ⟨hv, hvp⟩ := Finset.mem_Ico.1 hv
      have hpresent := (hm.extent (pages sz') ((hv.trans_lt hvp).trans_le (pages_le_user hm.sz_lt.le))).2 (by omega)
      obtain ⟨e, he⟩ := Option.isSome_iff_exists.1 hpresent
      have htable := tables_of_pteOf he
      rw [pdx_page] at htable
      exact absurd (mem_reached.2 ⟨hv, hvp, not_missed htable v⟩) hout)
    refine ⟨?_, ?_, ?_⟩
    · intro v hv
      rw [hclear.pte v (user_lt hv), page_lt_iff]
      by_cases hin : v ∈ Finset.Ico (pages sz') (pages sz)
      · rw [if_pos hin]
        rw [Finset.mem_Ico] at hin
        simp only [Option.isSome_none, Bool.false_eq_true, false_iff]
        omega
      · rw [if_neg hin, hm.extent v hv]
        rw [Finset.mem_Ico] at hin
        omega
    · intro v e hv hv' he
      rw [page_lt_iff] at hv hv'
      have hu : v < USERPAGES := hv.trans_le (pages_le_user hm.sz_lt.le)
      have hout : v ∉ Finset.Ico (pages sz') (pages sz) := by
        rw [Finset.mem_Ico]
        omega
      rw [hclear.pte v (user_lt hu), if_neg hout]
      refine ⟨he, hclear.page _ ?_⟩
      rw [mem_framesOn]
      intro ⟨w, hw, e', he', hf⟩
      have hw' := (Finset.mem_Ico.1 hw).2
      have hvw := framesOn_inj (Multiset.nodup_add.1 hm.apart).1 (Finset.mem_range.2 hv) (Finset.mem_range.2 hw') he he'
        hf.symm
      exact hout (hvw ▸ hw)
    · intro v hv hv'
      exact absurd (hv'.trans hlt) hv

/-- `growproc` does what it is for: the process does not change its size; or it grows, beyond KERNBASE or with a page for
the page table of its last page; or it shrinks, to a size above 0, or has no memory -/
def GrowthOk (m : Mem) (h sz : ℕ) (n : ℤ) : Prop :=
  n = 0 ∨ (0 < n ∧ (KERNBASE ≤ sz + n ∨ LastTableFits m h sz (sz + n).toNat)) ∨ (n < 0 ∧ (0 < sz + n ∨ sz = 0))

/-- **`growproc` is exact or has no effect exactly when `GrowthOk`.** For every process that maps exactly its size, every
32-bit number and every free list: it returns 0 with the size changed by `n` and the memory of that size, or -1 and
nothing has changed. -/
theorem growproc_exact_iff (m : Mem) (h sz : ℕ) (hm : UserMemory m h sz) (n : ℤ) (hmin : -2 ^ 31 ≤ n) (hmax : n < 2 ^ 31) :
    (∃ m' r, growproc m h sz n = .ok (m', r) ∧ GrowExact m h sz n m' r) ↔ GrowthOk m h sz n := by
  have hsz := hm.sz_lt
  unfold KERNBASE at hsz
  unfold growproc GrowthOk
  rcases lt_trichotomy n 0 with hneg | rfl | hpos
  · rw [if_neg (by omega), if_pos hneg]
    by_cases hless : 0 ≤ sz + n
    · have hadd : addSize sz n = (sz + n).toNat := by
        unfold addSize
        rw [Int.emod_eq_of_lt hless (by omega)]
      rw [hadd]
      have hsmaller : (sz + n).toNat < sz := by omega
      obtain ⟨m', hok, hres⟩ := hm.deallocuvm hsmaller
      rw [hok]
      by_cases hzero : sz + n = 0
      · -- everything is freed, and that is reported as a failure
        have hr : (sz + n).toNat = 0 := by omega
        simp only [hr, if_true]
        rw [hr] at hres
        constructor
        · intro ⟨m'', r, hrun, hexact⟩
          cases hrun
          have hu : 0 < USERPAGES := by decide
          have hgone := (hres.extent 0 hu).not.2 (by omega)
          have hthere := (hm.extent 0 hu).2 (page_lt_iff.1 (by omega))
          rw [(hexact 0 hu).1] at hgone
          exact absurd hthere hgone
        · intro hcond
          omega
      · have hr : (sz + n).toNat ≠ 0 := by omega
        simp only [if_neg hr]
        refine ⟨fun _ => .inr (.inr ⟨hneg, .inl (by omega)⟩), fun _ => ⟨m', some _, rfl, by omega, ?_, hres⟩⟩
        unfold KERNBASE
        omega
    · -- the sum wraps around, above the size
      have hadd : sz ≤ addSize sz n := by
        unfold addSize
        have hmod : (sz + n) % 2 ^ 32 = sz + n + 2 ^ 32 := by
          rw [← Int.add_emod_right, Int.emod_eq_of_lt (by omega) (by omega)]
        omega
      have hsame : Memory.deallocuvm m h sz (addSize sz n) = .ok (m, sz) := if_pos hadd
      rw [hsame]
      by_cases h0 : sz = 0
      · simp only [h0, if_true]
        exact ⟨fun _ => .inr (.inr ⟨hneg, .inr trivial⟩), fun _ => ⟨m, none, rfl, .refl m h⟩⟩
      · simp only [if_neg h0]
        constructor
        · intro ⟨m', r, hrun, hexact⟩
          cases hrun
          have hsum := hexact.1
          omega
        · intro hcond
          omega
  · rw [if_neg (by omega), if_neg (by omega)]
    refine ⟨fun _ => .inl rfl, fun _ => ⟨m, some sz, rfl, by omega, hm.sz_lt.le, hm.resized_self⟩⟩
  · rw [if_pos hpos]
    have hadd : addSize sz n = (sz + n).toNat := by
      unfold addSize
      rw [Int.emod_eq_of_lt (by omega) (by omega)]
    rw [hadd]
    by_cases hbig : (KERNBASE : ℤ) ≤ sz + n
    · have hno : allocuvm m h sz (sz + n).toNat = .ok (m, 0) := if_pos (by omega)
      rw [hno]
      simp only [if_true]
      exact ⟨fun _ => .inr (.inl ⟨hpos, .inl hbig⟩), fun _ => ⟨m, none, rfl, .refl m h⟩⟩
    · generalize hnew : (sz + n).toNat = newsz
      have hle : sz ≤ newsz := by omega
      have hlt : newsz < KERNBASE := by omega
      have hends := allocuvm_ends hle hlt hm.free hm.noneAbove
      have hcond : (n = 0 ∨ (0 < n ∧ ((KERNBASE : ℤ) ≤ sz + n ∨ LastTableFits m h sz newsz)) ∨ (n < 0 ∧ (0 < sz + n ∨ sz = 0))) ↔
          LastTableFits m h sz newsz := by
        constructor
        · intro hc
          rcases hc with h0 | ⟨_, hk | hfits⟩ | ⟨hn, _⟩
          · omega
          · exact absurd hk hbig
          · exact hfits
          · omega
        · intro hfits
          exact .inr (.inl ⟨hpos, .inr hfits⟩)
      rw [hcond]
      generalize allocuvm m h sz newsz = r at hends ⊢
      generalize decide (AllocFits m h sz newsz) = fits at hends
      by_cases hfits : LastTableFits m h sz newsz
      · rw [decide_eq_true hfits] at hends
        refine ⟨fun _ => hfits, fun _ => ?_⟩
        generalize htrue : true = last at hends
        cases hends with
        | @mapped m' hg =>
          simp only [if_neg (show newsz ≠ 0 by omega)]
          exact ⟨m', some newsz, rfl, by omega, hlt.le, hg.resized hm hle⟩
        | @undone m' _ hu =>
          simp only [if_true]
          exact ⟨m', none, rfl, hu.same hm⟩
        | @leaked m' f _ hu =>
          simp only [if_true]
          exact ⟨m', none, rfl, hu.same hm⟩
        | unmapped => cases htrue
      · rw [decide_eq_false hfits] at hends
        refine ⟨fun hexact => ?_, fun hyes => absurd hyes hfits⟩
        generalize hfalse : false = last at hends
        exfalso
        cases hends with
        | mapped => cases hfalse
        | undone => cases hfalse
        | leaked => cases hfalse
        | @unmapped m' hpages hmissing =>
          -- the last page is below the new size and not mapped
          obtain ⟨m'', r, hrun, hex⟩ := hexact
          simp only [if_neg (show newsz ≠ 0 by omega)] at hrun
          cases hrun
          have hu : pages newsz - 1 < USERPAGES := by
            have := pages_le_user hlt.le
            omega
          have hpresent := (hex.2.2.extent (pages newsz - 1) hu).2 (page_lt_iff.2 (by omega))
          rw [hmissing] at hpresent
          cases hpresent

theorem onePage_memory : UserMemory onePage.mem 0 PGSIZE where
  sz_lt := by decide
  extent := onePage_start.extent
  free := onePage_free
  freeable := by
    intro v hv e he
    have hv : v ∈ Finset.range 1 := hv
    rw [Finset.mem_range, Nat.lt_one_iff] at hv
    subst hv
    cases he
    decide
  apart := by
    have hframes : (onePage.mem.dir 0).framesOn (Finset.range (pages PGSIZE)) = {0x202} := by
      rw [show Finset.range (pages PGSIZE) = {0} by decide]
      exact framesOn_singleton (e := ⟨0x202, true, true⟩) rfl
    rw [hframes, Multiset.singleton_add, Multiset.cons_coe, Multiset.coe_nodup]
    decide

theorem onePage_grows : ∃ m' r, growproc onePage.mem 0 PGSIZE 8192 = .ok (m', r) ∧
    GrowExact onePage.mem 0 PGSIZE 8192 m' r := by
  refine (growproc_exact_iff onePage.mem 0 PGSIZE onePage_memory 8192 (by decide) (by decide)).2 ?_
  exact .inr (.inl ⟨by decide, .inr (by decide +kernel)⟩)

/-- **Shrinking to nothing, or to less.** A process of one page that calls `sbrk(-4096)` gets -1 and has lost its page; if
it calls `sbrk(-8192)` it gets the success of a call that did nothing. -/
theorem growproc_inexact :
    (¬ ∃ m' r, growproc onePage.mem 0 PGSIZE (-4096) = .ok (m', r) ∧ GrowExact onePage.mem 0 PGSIZE (-4096) m' r) ∧
    ¬ ∃ m' r, growproc onePage.mem 0 PGSIZE (-8192) = .ok (m', r) ∧ GrowExact onePage.mem 0 PGSIZE (-8192) m' r := by
  constructor
  · intro ⟨m', r, hrun, hexact⟩
    obtain ⟨m₁, hfree, hgone⟩ : ∃ m₁, growproc onePage.mem 0 PGSIZE (-4096) = .ok (m₁, none) ∧
        (m₁.dir 0).pteOf (0 * PGSIZE) = none := ⟨_, rfl, rfl⟩
    rw [hfree] at hrun
    cases hrun
    have hsame := (hexact 0 (by decide)).1
    rw [hgone] at hsame
    cases hsame
  · intro ⟨m', r, hrun, hexact⟩
    have hnothing : growproc onePage.mem 0 PGSIZE (-8192) = .ok (onePage.mem, some PGSIZE) := rfl
    rw [hnothing] at hrun
    cases hrun
    exact absurd hexact.1 (by decide)

end Growproc

end Xv6Threads.Memory
