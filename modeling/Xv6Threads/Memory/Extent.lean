/-
The pages of a process: those below a bound, and how the functions of vm.c move it.

A directory has the pages that are present below KERNBASE as its `Dir.Extent`. Nothing is asked of the physical pages, so a
`kfree` on the way may panic; but no other panic is possible, and where a function returns the bound is known.
- `deallocuvm_extent`: `deallocuvm` lowers the bound.
- `allocLoop_spec`, `allocuvm_extent`: `allocuvm` raises it, or leaves it, if its page tables fit.
- `setupkvm_spec`, `copyLoop_spec`, `copyuvm_spec`: a new directory has no pages, then those of the original.
-/
import Xv6Threads.Memory.Copy

namespace Xv6Threads.Memory

open Function

variable {m m' : Mem} {h k : ℕ}

/-! ## deallocuvm -/

/-- **`deallocuvm`** brings the size from `oldsz` to a smaller `newsz`; the process may have fewer pages than `oldsz`. -/
theorem deallocuvm_extent {oldsz newsz : ℕ} (hold : oldsz ≤ KERNBASE) (hlt : newsz < oldsz) (hk : k ≤ pages oldsz)
    (hm : (m.dir h).Extent k) :
    deallocuvm m h oldsz newsz = .error .kfree ∨
    ∃ m', deallocuvm m h oldsz newsz = .ok (m', newsz) ∧ Only h m m' ∧ (m'.dir h).Extent (min k (pages newsz)) := by
  rcases deallocuvm_exact (m := m) (h := h) hold hlt.le with ⟨he, _⟩ | ⟨m', he, _, hc⟩
  · exact Or.inl he
  refine Or.inr ⟨m', he, hc.only, fun v hv => ?_⟩
  rw [hc.pte v (user_lt hv)]
  by_cases hin : v ∈ reached (m.dir h).tables (pages newsz) (pages oldsz)
  · have := (mem_reached.1 hin).1
    rw [if_pos hin]
    simp
    omega
  · rw [if_neg hin, hm v hv]
    refine lt_min_iff.trans (and_iff_left_of_imp fun hvk => ?_) |>.symm
    by_contra hge
    -- the page of the new bound is present, and its page table with it
    obtain ⟨e, he⟩ := Option.isSome_iff_exists.1 ((hm (pages newsz) (by omega)).2 (by omega))
    have htable := tables_of_pteOf he
    rw [pdx_page] at htable
    exact hin (mem_reached.2 ⟨by omega, by omega, not_missed htable v⟩)

/-! ## allocuvm -/

/-- a count of page tables and free pages goes on as the memory does -/
theorem Takes.count {va : ℕ} (ht : Takes h va m m') (F : (Fin 1024 → Bool) → ℕ → Bool) (z : Bool) :
    (if (m.dir h).tables (pdx va) then F (m.dir h).tables m.freelist.length
      else if m.freelist.length = 0 then z
      else F (update (m.dir h).tables (pdx va) true) (m.freelist.length - 1)) =
    F (m'.dir h).tables m'.freelist.length := by
  rcases ht with ⟨hhas, hfree, htables⟩ | ⟨hhas, hfree, htables⟩
  · rw [if_pos hhas, hfree, htables]
  · rw [hhas, if_neg Bool.false_ne_true, hfree, if_neg (by omega), htables]
    rfl

/-- **The loop of `allocuvm`.** It maps the pages up to the new size, or runs out of memory and takes back what it
mapped. -/
theorem allocLoop_spec {oldsz newsz : ℕ} (hold : oldsz ≤ newsz) (hnew : newsz < KERNBASE) : ∀ {n j : ℕ} {m : Mem},
    pages oldsz ≤ j → j ≤ pages newsz → pages newsz ≤ n + j → (m.dir h).Extent j →
    tablesFit newsz n (j * PGSIZE) (m.dir h).tables m.freelist.length = true →
    allocLoop h oldsz newsz n (j * PGSIZE) m = .error .kfree ∨
    (∃ m', allocLoop h oldsz newsz n (j * PGSIZE) m = .ok (m', 0) ∧ Only h m m' ∧ (m'.dir h).Extent (pages oldsz)) ∨
    ∃ m', allocLoop h oldsz newsz n (j * PGSIZE) m = .ok (m', newsz) ∧ Only h m m' ∧
      (m'.dir h).Extent (pages newsz) := by
  intro n
  induction n with
  | zero =>
    intro j m _ hj hn hm _
    obtain rfl : j = pages newsz := by omega
    exact Or.inr (Or.inr ⟨m, rfl, .refl h m, hm⟩)
  | succ n ih =>
    intro j m hoj hj hn hm hfit
    simp only [allocLoop]
    by_cases hlt : j * PGSIZE < newsz
    · rw [if_pos hlt]
      have hjp := page_lt_iff.1 hlt
      have hju : j < USERPAGES := hjp.trans_le (pages_le_user hnew.le)
      split
      · -- no page: everything from the old size on is taken back
        have hne : oldsz < newsz := by
          by_contra hc
          obtain rfl : oldsz = newsz := by omega
          omega
        rcases deallocuvm_extent hnew.le hne hj hm with he | ⟨m', he, ho, hext⟩
        · rw [he]
          exact Or.inl rfl
        · rw [he]
          rw [min_eq_right hoj] at hext
          exact Or.inr (Or.inl ⟨m', rfl, ho, hext⟩)
      · rename_i f m₁ hk
        have hd := kalloc_dirs hk
        have hdir : (m₁.memset f 0).dir = m.dir := hd.dir
        have hnone : ((m₁.memset f 0).dir h).pteOf (j * PGSIZE) = none := by
          rw [hdir]
          have := (hm j hju).not.2 (lt_irrefl j)
          simpa using this
        have hnext : j * PGSIZE + PGSIZE = (j + 1) * PGSIZE := by
          unfold PGSIZE
          omega
        rw [kalloc_length hk, tablesFit_succ hlt, ← hdir, hnext] at hfit
        rcases mappages_placed (user_lt hju) hnone f true true with ⟨_, ht, hf⟩ | ⟨m₂, he, hp⟩
        · rw [show m₁.freelist = [] from hf, ht] at hfit
          simp at hfit
        · simp only [he]
          rw [hnext]
          have hfit := (hp.takes.count (tablesFit newsz n ((j + 1) * PGSIZE)) false).symm.trans hfit
          have hm₂ : (m₂.dir h).Extent (j + 1) := by
            intro v hv
            rw [hp.pte v (user_lt hv), hdir]
            by_cases hvj : v = j
            · simp [hvj]
            · rw [if_neg hvj, hm v hv]
              omega
          have hframe : Only h m m₂ := (SameDirs.only ⟨hdir, hd.nextDir, hd.data⟩).trans hp.only
          rcases ih (by omega) (by omega) (by omega) hm₂ hfit with he' | ⟨m', he', ho', hx⟩ | ⟨m', he', ho', hx⟩
          · exact Or.inl he'
          · exact Or.inr (Or.inl ⟨m', he', hframe.trans ho', hx⟩)
          · exact Or.inr (Or.inr ⟨m', he', hframe.trans ho', hx⟩)
    · rw [if_neg hlt]
      have hjp : pages newsz ≤ j := by
        by_contra hc
        exact hlt (page_lt_iff.2 (by omega))
      obtain rfl : j = pages newsz := by omega
      exact Or.inr (Or.inr ⟨m, rfl, .refl h m, hm⟩)

/-- **`allocuvm`** on a directory with the pages of `oldsz`: it has the pages of the size that is returned, or still those
of `oldsz` if 0 is. -/
theorem allocuvm_extent {oldsz newsz : ℕ} (hold : oldsz < KERNBASE) (hm : (m.dir h).Extent (pages oldsz))
    (hfit : AllocFits m h oldsz newsz) :
    allocuvm m h oldsz newsz = .error .kfree ∨
    ∃ m' sz, allocuvm m h oldsz newsz = .ok (m', sz) ∧ Only h m m' ∧ sz < KERNBASE ∧
      (m'.dir h).Extent (pages (if sz = 0 then oldsz else sz)) := by
  unfold allocuvm
  by_cases h1 : newsz ≥ KERNBASE
  · rw [if_pos h1]
    exact Or.inr ⟨m, 0, rfl, .refl h m, by decide, hm⟩
  rw [if_neg h1]
  by_cases h2 : newsz < oldsz
  · rw [if_pos h2]
    exact Or.inr ⟨m, oldsz, rfl, .refl h m, hold, by simpa using hm⟩
  rw [if_neg h2]
  unfold AllocFits at hfit
  rw [pgroundup_eq hold.le] at hfit ⊢
  have hn := pages_le_div newsz
  rcases allocLoop_spec (by omega) (by omega) le_rfl (pages_mono (by omega)) (by omega) hm hfit with
    he | ⟨m', he, ho, hx⟩ | ⟨m', he, ho, hx⟩ <;> rw [he]
  · exact Or.inl rfl
  · exact Or.inr ⟨m', 0, rfl, ho, by decide, hx⟩
  · refine Or.inr ⟨m', newsz, rfl, ho, by omega, ?_⟩
    split
    · obtain rfl : oldsz = newsz := by omega
      exact hx
    · exact hx

/-! ## New directories -/

/-- **`setupkvm`** makes a directory without user pages, and touches no other. -/
theorem setupkvm_spec (hl : Linked m) : ∃ m' r, setupkvm m = .ok (m', r) ∧ Older m m' ∧
    ∀ d, r = some d → d = m.nextDir ∧ d < m'.nextDir ∧ (m'.dir d).Extent 0 := by
  rcases setupkvm_exact hl with ⟨_, he⟩ | ⟨m', _, _, he, _, ho, _⟩ | ⟨m', _, he, hd⟩
  · exact ⟨m, none, he, ⟨fun _ _ => rfl, le_rfl, rfl⟩, fun d hr => by cases hr⟩
  · exact ⟨m', none, he, ho, fun d hr => by cases hr⟩
  · refine ⟨m', some m.nextDir, he, hd.older, fun d hr => ?_⟩
    cases hr
    exact ⟨rfl, by rw [hd.next]; omega, hd.extent⟩

/-- **The loop of `copyuvm`.** With every page of the original there, nothing panics; the copy gets the same pages. -/
theorem copyLoop_spec {old new sz : ℕ} (hne : old ≠ new) (hsz : sz ≤ KERNBASE) : ∀ {n j : ℕ} {m : Mem},
    j ≤ pages sz → pages sz ≤ n + j → (m.dir old).Extent (pages sz) → (m.dir new).Extent j →
    ∃ m' ok, copyLoop old new sz n (j * PGSIZE) m = .ok (m', ok) ∧ Only new m m' ∧
      (ok = true → (m'.dir new).Extent (pages sz)) := by
  intro n
  induction n with
  | zero =>
    intro j m hj hn _ hm
    obtain rfl : j = pages sz := by omega
    exact ⟨m, true, rfl, .refl new m, fun _ => hm⟩
  | succ n ih =>
    intro j m hj hn hold hm
    simp only [copyLoop]
    by_cases hlt : j * PGSIZE < sz
    · rw [if_pos hlt]
      have hjp := page_lt_iff.1 hlt
      have hju : j < USERPAGES := hjp.trans_le (pages_le_user hsz)
      have hpresent := (hold j hju).2 hjp
      split
      · rename_i hpde
        rw [pteOf_none_of_pde hpde] at hpresent
        cases hpresent
      · rename_i t hpde
        rw [pteOf_eq hpde] at hpresent
        split
        · rename_i hnone
          rw [hnone] at hpresent
          cases hpresent
        · rename_i e _
          split
          · exact ⟨m, false, rfl, .refl new m, fun h => by cases h⟩
          · rename_i f m₁ hk
            have hd := kalloc_dirs hk
            have hdir : (m₁.memmove f e.frame).dir = m.dir := hd.dir
            have hframe : Only new m (m₁.memmove f e.frame) := SameDirs.only ⟨hdir, hd.nextDir, hd.data⟩
            have hnone : ((m₁.memmove f e.frame).dir new).pteOf (j * PGSIZE) = none := by
              rw [hdir]
              have := (hm j hju).not.2 (lt_irrefl j)
              simpa using this
            rcases mappages_placed (user_lt hju) hnone f true true with ⟨he, _⟩ | ⟨m₂, he, hp⟩
            · rw [he]
              exact ⟨_, false, rfl, hframe, fun h => by cases h⟩
            · rw [he]
              have hnext : j * PGSIZE + PGSIZE = (j + 1) * PGSIZE := by
                unfold PGSIZE
                omega
              rw [hnext]
              have hm₂ : (m₂.dir new).Extent (j + 1) := by
                intro v hv
                rw [hp.pte v (user_lt hv), hdir]
                by_cases hvj : v = j
                · simp [hvj]
                · rw [if_neg hvj, hm v hv]
                  omega
              have hold₂ : (m₂.dir old).Extent (pages sz) := by
                rw [hp.only.dir old hne, hdir]
                exact hold
              obtain ⟨m', ok, he', ho', hx⟩ := ih (by omega) (by omega) hold₂ hm₂
              exact ⟨m', ok, he', hframe.trans (hp.only.trans ho'), hx⟩
    · rw [if_neg hlt]
      have hjp : pages sz ≤ j := by
        by_contra hc
        exact hlt (page_lt_iff.2 (by omega))
      obtain rfl : j = pages sz := by omega
      exact ⟨m, true, rfl, .refl new m, fun _ => hm⟩

/-- **`copyuvm`** of a directory with the pages of `sz`: the copy has the same pages, and every old directory is
untouched. -/
theorem copyuvm_spec {sz : ℕ} (hl : Linked m) (hh : h < m.nextDir) (hsz : sz ≤ KERNBASE)
    (hm : (m.dir h).Extent (pages sz)) :
    copyuvm m h sz = .error .kfree ∨
    ∃ m' r, copyuvm m h sz = .ok (m', r) ∧ Older m m' ∧
      ∀ d, r = some d → m.nextDir ≤ d ∧ d < m'.nextDir ∧ (m'.dir d).Extent (pages sz) := by
  unfold copyuvm
  obtain ⟨m₁, r, he, ho, hr⟩ := setupkvm_spec hl
  rw [he]
  cases r with
  | none => exact Or.inr ⟨m₁, none, rfl, ho, fun d hr => by cases hr⟩
  | some d =>
    obtain ⟨rfl, hlt, hext⟩ := hr d rfl
    dsimp only
    have hold : (m₁.dir h).Extent (pages sz) := by
      rw [ho.dir h hh]
      exact hm
    have hn := pages_le_div sz
    obtain ⟨m₂, ok, he', ho', hx⟩ := copyLoop_spec hh.ne hsz (n := sz / PGSIZE + 1) (j := 0) (Nat.zero_le _) (by omega)
      hold hext
    rw [Nat.zero_mul] at he'
    rw [he']
    cases ok with
    | true =>
      refine Or.inr ⟨m₂, some m.nextDir, rfl, ho.only le_rfl ho', fun d hd => ?_⟩
      cases hd
      exact ⟨le_rfl, by rw [ho'.nextDir]; exact hlt, hx rfl⟩
    | false =>
      dsimp only
      rcases freevm_exact m₂ m.nextDir with ⟨hf, _⟩ | ⟨m₃, hf, ho'', _⟩ <;> rw [hf]
      · exact Or.inl rfl
      · exact Or.inr ⟨m₃, none, rfl, ho.only le_rfl (ho'.trans ho''), fun d hr => by cases hr⟩

end Xv6Threads.Memory
