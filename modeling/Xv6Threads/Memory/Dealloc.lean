/-
`deallocuvm` on a directory that may have holes anywhere.

The loop goes page by page. Where the directory has no page table it goes on 1024 pages later, which is the same place in
the next page table and not its beginning. So from a start inside a missing page table it passes over the lower part of
the first page table that exists.
- `Missed`: the pages that it passes over from a given page on.
- `deallocLoop_exact`: the loop frees every page but these, or panics on a page that `kfree` does not accept.
- `deallocuvm_removes_iff`: so the requested range is removed exactly when no page that is passed over was present.
- `page_left_mapped`: a page that stays.
-/
import Xv6Threads.Memory.Ledger

namespace Xv6Threads.Memory

/-- the pages that the loop passes over from page `j` on, in a directory with the page tables `has`: none of the page
tables from that of `j` up to that of `v` exists, and `v` is lower in its page table than `j` in its own -/
def Missed (has : Fin 1024 → Bool) (j v : ℕ) : Prop :=
  j / 1024 < v / 1024 ∧ v % 1024 < j % 1024 ∧ ∀ i < v / 1024, j / 1024 ≤ i → has (Fin.ofNat 1024 i) = false

instance (has : Fin 1024 → Bool) (j v : ℕ) : Decidable (Missed has j v) := by
  unfold Missed
  infer_instance

/-- the page numbers below `b` that the loop comes to or that have no page table -/
def reached (has : Fin 1024 → Bool) (j b : ℕ) : Finset ℕ := (Finset.Ico j b).filter fun v => ¬ Missed has j v

variable {has : Fin 1024 → Bool} {j v b : ℕ}

theorem mem_reached : v ∈ reached has j b ↔ j ≤ v ∧ v < b ∧ ¬ Missed has j v := by
  unfold reached
  rw [Finset.mem_filter, Finset.mem_Ico, and_assoc]

theorem pdx_page (v : ℕ) : pdx (v * PGSIZE) = Fin.ofNat 1024 (v / 1024) := by
  unfold pdx PGSIZE
  congr 1
  omega

/-- with a page table at `j` nothing is missed -/
theorem not_missed (hj : has (Fin.ofNat 1024 (j / 1024)) = true) (v : ℕ) : ¬ Missed has j v := by
  intro ⟨hlt, _, hnone⟩
  rw [hnone (j / 1024) hlt le_rfl] at hj
  cases hj

/-- nor from the page after it, which has the same page table or is the first of the next -/
theorem not_missed_succ (hj : has (Fin.ofNat 1024 (j / 1024)) = true) (v : ℕ) : ¬ Missed has (j + 1) v := by
  by_cases hsame : (j + 1) / 1024 = j / 1024
  · apply not_missed
    rw [hsame]
    exact hj
  · intro ⟨_, hlow, _⟩
    omega

/-- where there is no page table, a page is missed that lies between here and the same place in the next page table, or
is missed from there -/
theorem missed_skip (hj : has (Fin.ofNat 1024 (j / 1024)) = false) (hjv : j ≤ v) (hne : v / 1024 ≠ j / 1024) :
    Missed has j v ↔ v < j + 1024 ∨ Missed has (j + 1024) v := by
  constructor
  · intro ⟨hlt, hlow, hnone⟩
    by_cases hnext : v < j + 1024
    · exact .inl hnext
    · refine .inr ⟨by omega, by omega, ?_⟩
      intro i hi hji
      exact hnone i hi (by omega)
  · intro hcase
    rcases hcase with hnext | ⟨hlt, hlow, hnone⟩
    · refine ⟨by omega, by omega, ?_⟩
      intro i hi hji
      obtain rfl : i = j / 1024 := by omega
      exact hj
    · refine ⟨by omega, by omega, ?_⟩
      intro i hi hji
      by_cases hij : i = j / 1024
      · rw [hij]
        exact hj
      · exact hnone i hi (by omega)

theorem reached_eq_Ico (hnone : ∀ v, ¬ Missed has j v) : reached has j b = Finset.Ico j b :=
  Finset.filter_true_of_mem fun v _ => hnone v

/-- the loop skips to the same place in the next page table: it comes to fewer pages, and the others have no page table -/
theorem reached_skip (hj : has (Fin.ofNat 1024 (j / 1024)) = false) :
    reached has (j + 1024) b ⊆ reached has j b ∧
      ∀ v ∈ reached has j b, v ∉ reached has (j + 1024) b → v / 1024 = j / 1024 := by
  constructor
  · intro v hv
    obtain ⟨hjv, hvb, hnot⟩ := mem_reached.1 hv
    refine mem_reached.2 ⟨by omega, hvb, ?_⟩
    intro hmiss
    rcases (missed_skip hj (by omega) (by omega)).1 hmiss with hlt | hmiss'
    · omega
    · exact hnot hmiss'
  · intro v hv hout
    obtain ⟨hjv, hvb, hnot⟩ := mem_reached.1 hv
    by_contra hne
    apply hnot
    apply (missed_skip hj hjv hne).2
    by_cases hlt : v < j + 1024
    · exact .inl hlt
    · right
      by_contra hnot'
      exact hout (mem_reached.2 ⟨by omega, hvb, hnot'⟩)

variable {m m' : Mem} {h oldsz newsz : ℕ}

/-- the pages numbered in `s` can be given back -/
def AllFreeable (m : Mem) (h : ℕ) (s : Finset ℕ) : Prop :=
  ∀ v ∈ s, ∀ e, (m.dir h).pteOf (v * PGSIZE) = some e → Freeable m e.frame

theorem kfree_error_iff {f : Frame} (hf : f ≠ 0) : (∃ e, kfree m f = .error e) ↔ ¬ Freeable m f := by
  unfold kfree Freeable
  split
  · rename_i hbad
    exact ⟨fun _ hok => hbad.elim (fun hlt => absurd hlt (not_lt.2 hok.2.1)) fun hge => absurd hok.2.2 (not_lt.2 hge),
      fun _ => ⟨_, rfl⟩⟩
  · rename_i hok
    rw [not_or, not_lt, not_le] at hok
    refine ⟨?_, fun hnot => absurd ⟨hf, hok.1, hok.2⟩ hnot⟩
    intro ⟨e, he⟩
    cases he

/-- **The loop of `deallocuvm`**, on any directory: it gives back every page that it comes to, or panics on one. -/
theorem deallocLoop_exact (hold : oldsz ≤ KERNBASE) (n : ℕ) : ∀ (j : ℕ) (m : Mem), (m.dir h).tables = has →
    pages oldsz ≤ n + j →
    (deallocLoop h oldsz n (j * PGSIZE) m = .error .kfree ∧ ¬ AllFreeable m h (reached has j (pages oldsz))) ∨
    ∃ m', deallocLoop h oldsz n (j * PGSIZE) m = .ok m' ∧ AllFreeable m h (reached has j (pages oldsz)) ∧
      Cleared h (reached has j (pages oldsz)) m m' := by
  have hdone : ∀ (j : ℕ) (m : Mem), pages oldsz ≤ j →
      AllFreeable m h (reached has j (pages oldsz)) ∧ Cleared h (reached has j (pages oldsz)) m m := by
    intro j m hj
    have hempty : reached has j (pages oldsz) = ∅ := by
      unfold reached
      rw [Finset.Ico_eq_empty (not_lt.2 hj), Finset.filter_empty]
    rw [hempty]
    exact ⟨fun v hv => absurd hv (Finset.notMem_empty v), .refl h m⟩
  induction n with
  | zero =>
    intro j m _ hn
    exact .inr ⟨m, rfl, hdone j m (by omega)⟩
  | succ n ih =>
    intro j m htables hn
    simp only [deallocLoop]
    by_cases hlt : j * PGSIZE < oldsz
    · rw [if_pos hlt]
      have hjp : j < pages oldsz := page_lt_iff.1 hlt
      have hju : j < 2 ^ 20 := user_lt (hjp.trans_le (pages_le_user hold))
      have hskip : j * PGSIZE + (NPTENTRIES - 1) * PGSIZE + PGSIZE = (j + 1024) * PGSIZE := by
        unfold NPTENTRIES PGSIZE
        omega
      have hnext : j * PGSIZE + PGSIZE = (j + 1) * PGSIZE := by
        unfold PGSIZE
        omega
      rw [hskip, hnext]
      cases hpde : (m.dir h).pde (pdx (j * PGSIZE)) with
      | none =>
        -- no page table: on to the same place in the next one
        have hhas : has (Fin.ofNat 1024 (j / 1024)) = false := by
          rw [← htables, ← pdx_page, Dir.tables, hpde]
          rfl
        obtain ⟨hsub, hother⟩ := reached_skip (b := pages oldsz) hhas
        have hnone : ∀ v ∈ reached has j (pages oldsz), v ∉ reached has (j + 1024) (pages oldsz) →
            (m.dir h).pteOf (v * PGSIZE) = none := by
          intro v hv hout
          apply pteOf_none_of_pde
          rw [pdx_page, hother v hv hout, ← pdx_page]
          exact hpde
        simp only
        rcases ih (j + 1024) m htables (by omega) with ⟨herr, hbad⟩ | ⟨m', hok, hfree, hclear⟩
        · refine .inl ⟨herr, ?_⟩
          intro hall
          exact hbad fun v hv => hall v (hsub hv)
        · refine .inr ⟨m', hok, ?_, hclear.enlarge hsub hnone⟩
          intro v hv e he
          by_cases hin : v ∈ reached has (j + 1024) (pages oldsz)
          · exact hfree v hin e he
          · rw [hnone v hv hin] at he
            cases he
      | some t =>
        have hhas : has (Fin.ofNat 1024 (j / 1024)) = true := by
          rw [← htables, ← pdx_page, Dir.tables, hpde]
          rfl
        have hpte := pteOf_eq hpde
        rw [reached_eq_Ico (not_missed hhas)]
        have hih := fun m => ih (j + 1) m
        rw [reached_eq_Ico (not_missed_succ hhas)] at hih
        have hsplit : Finset.Ico j (pages oldsz) = {j} ∪ Finset.Ico (j + 1) (pages oldsz) := by
          rw [← Finset.insert_eq]
          exact (Finset.insert_Ico_add_one_left_eq_Ico hjp).symm
        have hdisj : Disjoint {j} (Finset.Ico (j + 1) (pages oldsz)) := by
          rw [Finset.disjoint_singleton_left, Finset.mem_Ico]
          omega
        simp only
        cases he : t.pte (ptx (j * PGSIZE)) with
        | none =>
          rw [he] at hpte
          simp only
          have hnone : ∀ v ∈ Finset.Ico j (pages oldsz), v ∉ Finset.Ico (j + 1) (pages oldsz) →
              (m.dir h).pteOf (v * PGSIZE) = none := by
            intro v hv hout
            rw [Finset.mem_Ico] at hv hout
            obtain rfl : v = j := by omega
            exact hpte
          rcases hih m htables (by omega) with ⟨herr, hbad⟩ | ⟨m', hok, hfree, hclear⟩
          · refine .inl ⟨herr, ?_⟩
            intro hall
            exact hbad fun v hv => hall v (by rw [hsplit]; exact Finset.mem_union_right _ hv)
          · refine .inr ⟨m', hok, ?_, hclear.enlarge (by rw [hsplit]; exact Finset.subset_union_right) hnone⟩
            intro v hv e hve
            by_cases hin : v ∈ Finset.Ico (j + 1) (pages oldsz)
            · exact hfree v hin e hve
            · rw [hnone v hv hin] at hve
              cases hve
        | some e =>
          rw [he] at hpte
          simp only
          have hmem : j ∈ Finset.Ico j (pages oldsz) := Finset.left_mem_Ico.2 hjp
          by_cases hfreeable : Freeable m e.frame
          · -- the page is freed and its entry cleared
            rw [if_neg hfreeable.1]
            obtain ⟨m₁, hk, hone⟩ := cleared_page hju hpte hfreeable
            rw [hk]
            simp only
            have htables₁ : ((m₁.setPte h (j * PGSIZE) none).dir h).tables = has := by
              rw [tables_congr hone.tables, htables]
            have hsame : ∀ v ∈ Finset.Ico (j + 1) (pages oldsz),
                ((m₁.setPte h (j * PGSIZE) none).dir h).pteOf (v * PGSIZE) = (m.dir h).pteOf (v * PGSIZE) := by
              intro v hv
              rw [Finset.mem_Ico] at hv
              rw [hone.pte v (user_lt (hv.2.trans_le (pages_le_user hold))), if_neg]
              rw [Finset.mem_singleton]
              omega
            have hkend : ∀ f, Freeable (m₁.setPte h (j * PGSIZE) none) f ↔ Freeable m f := by
              intro f
              unfold Freeable
              rw [hone.kend]
            have hall : AllFreeable (m₁.setPte h (j * PGSIZE) none) h (Finset.Ico (j + 1) (pages oldsz)) ↔
                AllFreeable m h (Finset.Ico j (pages oldsz)) := by
              constructor
              · intro hrest v hv e' hve
                by_cases hvj : v = j
                · rw [hvj, hpte] at hve
                  cases hve
                  exact hfreeable
                · have hv' : v ∈ Finset.Ico (j + 1) (pages oldsz) := by
                    rw [Finset.mem_Ico] at hv ⊢
                    omega
                  exact (hkend _).1 (hrest v hv' e' (by rw [hsame v hv']; exact hve))
              · intro hevery v hv e' hve
                rw [hsame v hv] at hve
                refine (hkend _).2 (hevery v ?_ e' hve)
                rw [hsplit]
                exact Finset.mem_union_right _ hv
            rcases hih _ htables₁ (by omega) with ⟨herr, hbad⟩ | ⟨m', hok, hfree, hclear⟩
            · exact .inl ⟨herr, fun hevery => hbad (hall.2 hevery)⟩
            · refine .inr ⟨m', hok, hall.1 hfree, ?_⟩
              rw [hsplit]
              apply hone.trans hclear hdisj
              intro v hv
              exact user_lt ((Finset.mem_Ico.1 hv).2.trans_le (pages_le_user hold))
          · -- `kfree` panics, or the check for address 0 does
            refine .inl ⟨?_, fun hall => hfreeable (hall j hmem e hpte)⟩
            split
            · rfl
            · rename_i hne
              obtain ⟨p, hp⟩ := (kfree_error_iff hne).2 hfreeable
              rw [hp, kfree_error hp]
    · rw [if_neg hlt]
      have hjp : pages oldsz ≤ j := by
        by_contra hc
        exact hlt (page_lt_iff.2 (by omega))
      exact .inr ⟨m, rfl, hdone j m hjp⟩

/-- the page numbers with an address in [PGROUNDUP(newsz), oldsz) -/
def between (newsz oldsz : ℕ) : Finset ℕ := Finset.Ico (pages newsz) (pages oldsz)

theorem mem_between (hnew : newsz ≤ KERNBASE) :
    v ∈ between newsz oldsz ↔ pgroundup newsz ≤ v * PGSIZE ∧ v * PGSIZE < oldsz := by
  unfold between
  rw [Finset.mem_Ico, pgroundup_eq hnew, page_lt_iff]
  unfold PGSIZE
  omega

/-- `deallocuvm` gives back what the loop comes to from PGROUNDUP(newsz) on -/
theorem deallocuvm_exact (hold : oldsz ≤ KERNBASE) (hle : newsz ≤ oldsz) :
    (deallocuvm m h oldsz newsz = .error .kfree ∧ ¬ AllFreeable m h (reached (m.dir h).tables (pages newsz) (pages oldsz))) ∨
    ∃ m', deallocuvm m h oldsz newsz = .ok (m', newsz) ∧
      AllFreeable m h (reached (m.dir h).tables (pages newsz) (pages oldsz)) ∧
      Cleared h (reached (m.dir h).tables (pages newsz) (pages oldsz)) m m' := by
  unfold deallocuvm
  by_cases heq : newsz = oldsz
  · rw [if_pos heq.ge, heq]
    have hempty : reached (m.dir h).tables (pages oldsz) (pages oldsz) = ∅ := by
      unfold reached
      rw [Finset.Ico_self, Finset.filter_empty]
    rw [hempty]
    exact .inr ⟨m, rfl, fun v hv => absurd hv (Finset.notMem_empty v), .refl h m⟩
  · rw [if_neg (by omega), pgroundup_eq (hle.trans hold)]
    have hn := pages_le_div oldsz
    rcases deallocLoop_exact hold (oldsz / PGSIZE + 1) (pages newsz) m rfl (by omega) with
      ⟨herr, hbad⟩ | ⟨m', hok, hfree, hclear⟩
    · rw [herr]
      exact .inl ⟨rfl, hbad⟩
    · rw [hok]
      exact .inr ⟨m', rfl, hfree, hclear⟩

/-- what `deallocuvm` is for: no page with an address in [PGROUNDUP(newsz), oldsz) is left, each that was there is on the
free list once more, and every other mapping is as before -/
structure Removed (m : Mem) (h oldsz newsz : ℕ) (m' : Mem) : Prop where
  gone : ∀ v, pgroundup newsz ≤ v * PGSIZE → v * PGSIZE < oldsz → (m'.dir h).pteOf (v * PGSIZE) = none
  freed : (m'.freelist : Multiset Frame) = (m.dir h).framesOn (between newsz oldsz) + m.freelist
  kept : ∀ v, v < 2 ^ 20 → ¬ (pgroundup newsz ≤ v * PGSIZE ∧ v * PGSIZE < oldsz) →
    (m'.dir h).pteOf (v * PGSIZE) = (m.dir h).pteOf (v * PGSIZE)
  others : ∀ h', h' ≠ h → m'.dir h' = m.dir h'

/-- no page of the range is passed over that is present -/
def NoneMissed (m : Mem) (h oldsz newsz : ℕ) : Prop :=
  ∀ v ∈ between newsz oldsz, Missed (m.dir h).tables (pages newsz) v → (m.dir h).pteOf (v * PGSIZE) = none

/-- **`deallocuvm` removes the range exactly when it passes over no page of it.** For any directory, and any `newsz` and
`oldsz` up to KERNBASE: it returns and the range is removed, if and only if the pages there are of those that `kfree`
accepts and none is one that the loop passes over. -/
theorem deallocuvm_removes_iff (m : Mem) (h oldsz newsz : ℕ) (hle : newsz ≤ oldsz) (hold : oldsz ≤ KERNBASE) :
    (∃ m', deallocuvm m h oldsz newsz = .ok (m', newsz) ∧ Removed m h oldsz newsz m') ↔
      NoneMissed m h oldsz newsz ∧ AllFreeable m h (between newsz oldsz) := by
  have hnew : newsz ≤ KERNBASE := hle.trans hold
  have hsub : reached (m.dir h).tables (pages newsz) (pages oldsz) ⊆ between newsz oldsz := Finset.filter_subset _ _
  have hmissed : ∀ v ∈ between newsz oldsz, v ∉ reached (m.dir h).tables (pages newsz) (pages oldsz) →
      Missed (m.dir h).tables (pages newsz) v := by
    intro v hv hout
    by_contra hnot
    exact hout (Finset.mem_filter.2 ⟨hv, hnot⟩)
  have hpage : ∀ v ∈ between newsz oldsz, v < 2 ^ 20 := by
    intro v hv
    exact user_lt ((Finset.mem_Ico.1 hv).2.trans_le (pages_le_user hold))
  constructor
  · intro ⟨m', hrun, hremoved⟩
    rcases deallocuvm_exact (m := m) (h := h) hold hle with ⟨herr, _⟩ | ⟨m'', hok, hfree, hclear⟩
    · rw [herr] at hrun
      cases hrun
    · rw [hok] at hrun
      cases hrun
      have hnone : NoneMissed m h oldsz newsz := by
        intro v hv hmiss
        have hgone := hremoved.gone v ((mem_between hnew).1 hv).1 ((mem_between hnew).1 hv).2
        rwa [hclear.pte v (hpage v hv), if_neg fun hin => (mem_reached.1 hin).2.2 hmiss] at hgone
      refine ⟨hnone, ?_⟩
      intro v hv e he
      by_cases hin : v ∈ reached (m.dir h).tables (pages newsz) (pages oldsz)
      · exact hfree v hin e he
      · rw [hnone v hv (hmissed v hv hin)] at he
        cases he
  · intro ⟨hnone, hall⟩
    rcases deallocuvm_exact (m := m) (h := h) hold hle with ⟨_, hbad⟩ | ⟨m', hok, _, hclear⟩
    · exact absurd (fun v hv => hall v (hsub hv)) hbad
    · refine ⟨m', hok, ?_⟩
      have hrange := hclear.enlarge hsub fun v hv hout => hnone v hv (hmissed v hv hout)
      refine ⟨?_, hrange.free, ?_, hrange.only.dir⟩
      · intro v hlow hhigh
        have hv := (mem_between hnew).2 ⟨hlow, hhigh⟩
        rw [hrange.pte v (hpage v hv), if_pos hv]
      · intro v hv hout
        rw [hrange.pte v hv, if_neg fun hin => hout ((mem_between hnew).1 hin)]

/-- a directory with the second page table only, and in it the first page -/
def holed : Mem where
  freelist := []
  page := fun _ _ => 0
  dir := fun _ => ⟨0x200, fun i => if i = 1 then
    some ⟨0x201, fun j => if j = 0 then some ⟨0x202, true, true⟩ else none⟩ else none⟩
  nextDir := 1
  kend := 0x180
  data := 0x80108000

theorem holed_removes_all : ∃ m', deallocuvm holed 0 0x401000 0 = .ok (m', 0) ∧ Removed holed 0 0x401000 0 m' := by
  refine (deallocuvm_removes_iff holed 0 0x401000 0 (by decide) (by decide)).2 ⟨?_, ?_⟩
  · intro v _ hmiss
    -- from page 0 on nothing is passed over
    have hlow : v % 1024 < pages 0 % 1024 := hmiss.2.1
    exact absurd hlow (Nat.not_lt_zero _)
  · intro v _ e he
    have hframe : e.frame = 0x202 := by
      simp only [holed, Dir.pteOf, Option.bind_eq_some_iff] at he
      obtain ⟨t, ht, hte⟩ := he
      split at ht
      · cases ht
        simp only at hte
        split at hte
        · cases hte
          rfl
        · cases hte
      · cases ht
    rw [hframe]
    decide

/-- **A page that stays.** From page 1 on, where there is no page table, the loop goes to page 1025, past page 1024, which
is present: `deallocuvm` returns with it still mapped. -/
theorem page_left_mapped : ¬ ∃ m', deallocuvm holed 0 0x401000 PGSIZE = .ok (m', PGSIZE) ∧
    Removed holed 0 0x401000 PGSIZE m' := by
  intro ⟨m', hrun, hremoved⟩
  have hsame : deallocuvm holed 0 0x401000 PGSIZE = .ok (holed, PGSIZE) := by rfl
  rw [hsame] at hrun
  cases hrun
  have hgone := hremoved.gone 1024 (by decide) (by decide)
  exact absurd hgone (by decide)

end Xv6Threads.Memory
