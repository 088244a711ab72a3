/-
`malloc` of umalloc.c for every request, in 32-bit arithmetic, on a process that grows by `sys_sbrk` and `growproc`.

The model of `User/Malloc` leaves out the sums that wrap; here they are in. The number of units, the product in `morecore`,
pointer arithmetic on headers and the signed argument of `sbrk` are those of the machine. A header that is not in a page of
the process is a page fault, and the call does not return. `asked` is the history of what the call asked of `sbrk`.
- `ready_of_heap`: what the calls rely on holds for the heaps of `User/Malloc`.
- `Below`: the headers that the free list leads to, and the blocks behind them, are below the size of the process.
- `mallocLoop_sound`: for requests up to 2^31 - 16 the call keeps this, asks for as much as it needs, and returns a block that is
  large enough and below the size.
- `malloc_sound_iff`: for larger ones it does not. From 2^31 - 15 on `sbrk` is asked for a negative number of bytes or for
  none; from 2^32 - 7 on the sum for the units wraps, and the block has no room at all.
-/
import Xv6Threads.Memory.Growproc
import Xv6Threads.User.Malloc

namespace Xv6Threads.Malloc32

open Xv6Threads.Core Xv6Threads.Memory Function

/-! ## The code -/

/-- why a call does not return -/
inductive Fault where
  | page
  | null
  | spins
  | panic (e : Panic)

/-- the headers of the allocator, the process, and what the call has asked of `sbrk` -/
structure M where
  ptr : ℕ → ℕ
  size : ℕ → ℕ
  freep : Option ℕ
  mem : Mem
  pgdir : ℕ
  sz : ℕ
  asked : List ℤ

/-- `p + k` on a pointer to a header -/
def header (p k : ℕ) : ℕ := (p + 8 * k) % 2 ^ 32

/-- a `uint` passed as an `int` -/
def toInt (n : ℕ) : ℤ := (BitVec.ofNat 32 n).toInt

/-- the header at `a` is in the pages of the process -/
def M.Mapped (m : M) (a : ℕ) : Prop := a + 8 ≤ pages m.sz * PGSIZE

instance (m : M) (a : ℕ) : Decidable (m.Mapped a) := inferInstanceAs (Decidable (_ ≤ _))

/-- the search of `free`, from `p` -/
def freeLoop (m : M) (bp : ℕ) : ℕ → ℕ → Except Fault ℕ
  | 0, _ => .error .spins
  | turns + 1, p =>
    if ¬ m.Mapped p then .error .page
    else if p < bp ∧ bp < m.ptr p then .ok p
    else if m.ptr p ≤ p ∧ (p < bp ∨ bp < m.ptr p) then .ok p
    else freeLoop m bp turns (m.ptr p)

/-- the first `if` of `free`: join to the upper neighbour -/
def joinUp (m : M) (bp p : ℕ) : Except Fault M :=
  if header bp (m.size bp) = m.ptr p then
    if ¬ m.Mapped (m.ptr p) then .error .page
    else .ok { m with
      size := update m.size bp ((m.size bp + m.size (m.ptr p)) % 2 ^ 32)
      ptr := update m.ptr bp (m.ptr (m.ptr p)) }
  else .ok { m with ptr := update m.ptr bp (m.ptr p) }

/-- the second: join to the lower one -/
def joinDown (m : M) (bp p : ℕ) : M :=
  if header p (m.size p) = bp then
    { m with
      size := update m.size p ((m.size p + m.size bp) % 2 ^ 32)
      ptr := update m.ptr p (m.ptr bp) }
  else { m with ptr := update m.ptr p bp }

/-- `free` of the block with the header `bp` -/
def free (turns : ℕ) (m : M) (bp : ℕ) : Except Fault M :=
  match m.freep with
  | none => .error .null
  | some f => do
    let p ← freeLoop m bp turns f
    let m ← joinUp m bp p
    return { joinDown m bp p with freep := some p }

/-- `morecore`; `none` is the result 0 -/
def morecore (turns : ℕ) (m : M) (nu : ℕ) : Except Fault (Option ℕ) × M :=
  let nu := if nu < 4096 then 4096 else nu
  let n := toInt (nu * 8 % 2 ^ 32)
  let m := { m with asked := m.asked ++ [n] }
  match growproc m.mem m.pgdir m.sz n with
  | .error e => (.error (.panic e), m)
  | .ok (mem, none) => (.ok none, { m with mem := mem })
  | .ok (mem, some sz) =>
    -- `sbrk` returns the old size
    let hp := m.sz
    let m := { m with mem := mem, sz := sz }
    if ¬ m.Mapped hp then (.error .page, m)
    else
      match free turns { m with size := update m.size hp nu } hp with
      | .error e => (.error e, m)
      | .ok m => (.ok m.freep, m)

/-- `malloc` at a block that is large enough -/
def take (m : M) (nunits prevp p : ℕ) : ℕ × M :=
  if m.size p = nunits then
    (header p 1, { m with ptr := update m.ptr prevp (m.ptr p), freep := some prevp })
  else
    let m := { m with size := update m.size p (m.size p - nunits) }
    let p := header p (m.size p)
    (header p 1, { m with size := update m.size p nunits, freep := some prevp })

/-- the loop of `malloc` -/
def mallocLoop (nunits : ℕ) : ℕ → M → ℕ → ℕ → Except Fault (Option ℕ) × M
  | 0, m, _, _ => (.error .spins, m)
  | turns + 1, m, prevp, p =>
    if ¬ m.Mapped p then (.error .page, m)
    else if nunits ≤ m.size p then (.ok (some (take m nunits prevp p).1), (take m nunits prevp p).2)
    else if m.freep = some p then
      match morecore turns m nunits with
      | (.error e, m) => (.error e, m)
      | (.ok none, m) => (.ok none, m)
      | (.ok (some p), m) => mallocLoop nunits turns m p (m.ptr p)
    else mallocLoop nunits turns m p (m.ptr p)

/-- the units for `n` bytes and a header -/
def nunits (n : ℕ) : ℕ := (n + 8 - 1) % 2 ^ 32 / 8 + 1

/-- `malloc`, with the turns that its loops are given and the address of the static header `base` -/
def malloc (turns base : ℕ) (m : M) (n : ℕ) : Except Fault (Option ℕ) × M :=
  let m := { m with asked := [] }
  match m.freep with
  | none =>
    let m := { m with
      ptr := update m.ptr base base, size := update m.size base 0, freep := some base }
    mallocLoop (nunits n) turns m base (m.ptr base)
  | some f => mallocLoop (nunits n) turns m f (m.ptr f)

/-! ## The property -/

/-- `sbrk` was asked for more than `n` bytes each time -/
def AskedEnough (n : ℕ) (asked : List ℤ) : Prop := ∀ k ∈ asked, 0 < k ∧ (n : ℤ) ≤ k

/-- the block with the header `a` has room for `n` bytes and is below the size of the process -/
def HasBlock (n : ℕ) (m : M) (a : ℕ) : Prop := n + 8 ≤ 8 * m.size a ∧ a + 8 * m.size a ≤ m.sz

/-- whatever turns the loops are given: every `sbrk` of the call asks for enough, and the block it returns is one -/
def Sound (base : ℕ) (m : M) (n : ℕ) : Prop :=
  ∀ turns, AskedEnough n (malloc turns base m n).2.asked ∧
    ∀ ap, (malloc turns base m n).1 = .ok (some ap) → ∃ a, ap = a + 8 ∧ HasBlock n (malloc turns base m n).2 a

/-- the headers of `L` lead to each other, and they and their blocks are below the size of the process -/
structure Below (L : Set ℕ) (m : M) : Prop where
  size : m.sz < KERNBASE
  closed : ∀ a ∈ L, m.ptr a ∈ L
  header : ∀ a ∈ L, a + 8 ≤ m.sz
  block : ∀ a ∈ L, a + 8 * m.size a ≤ m.sz
  freep : ∀ f, m.freep = some f → f ∈ L

/-- nothing was called yet, or the free list is a circle of headers and blocks below the size of the process -/
structure Ready (base : ℕ) (m : M) : Prop where
  size : m.sz < KERNBASE
  base : base + 8 ≤ m.sz
  list : ∀ f, m.freep = some f → ∃ l, (f :: l).Nodup ∧ Circle m.ptr (f :: l) ∧
    ∀ a ∈ f :: l, a + 8 ≤ m.sz ∧ a + 8 * m.size a ≤ m.sz

/-! ## Sums that do not wrap -/

variable {L : Set ℕ} {m m' : M} {bp p f : ℕ}

theorem header_eq {k : ℕ} (h : p + 8 * k < 2 ^ 32) : header p k = p + 8 * k := Nat.mod_eq_of_lt h

theorem toInt_eq {n : ℕ} (h : n < 2 ^ 31) : toInt n = n := by
  rw [toInt, BitVec.toInt_eq_toNat_of_lt, BitVec.toNat_ofNat, Nat.mod_eq_of_lt]
  · omega
  · rw [BitVec.toNat_ofNat]
    omega

theorem mapped_of_le {a : ℕ} (h : a + 8 ≤ m.sz) : m.Mapped a := by
  have hpages : m.sz ≤ pages m.sz * PGSIZE := by
    unfold pages PGSIZE
    omega
  exact h.trans hpages

/-! ## `free` -/

theorem freeLoop_ok (hb : Below L m) {turns : ℕ} (hf : f ∈ L) (h : freeLoop m bp turns f = .ok p) : p ∈ L ∧ p ≠ bp := by
  induction turns generalizing f with
  | zero => cases h
  | succ turns ih =>
    rw [freeLoop] at h
    split_ifs at h with _ hbetween hend
    · cases h
      exact ⟨hf, by omega⟩
    · cases h
      exact ⟨hf, by omega⟩
    · exact ih (hb.closed f hf) h

theorem joinUp_below (hb : Below L m) (hblock : bp + 8 * m.size bp ≤ m.sz) (hp : p ∈ L) (h : joinUp m bp p = .ok m') :
    m'.sz = m.sz ∧ m'.asked = m.asked ∧ m'.ptr bp ∈ L ∧ (∀ a, a ≠ bp → m'.ptr a = m.ptr a ∧ m'.size a = m.size a) ∧
      bp + 8 * m'.size bp ≤ m.sz := by
  have hsz := hb.size
  have hKB : KERNBASE = 2 ^ 31 := rfl
  rw [joinUp] at h
  split_ifs at h with hjoin hmapped
  · cases h
    have hnext := hb.block _ (hb.closed p hp)
    rw [header_eq (by omega)] at hjoin
    refine ⟨rfl, rfl, ?_, ?_, ?_⟩
    · simp only [update_self]
      exact hb.closed _ (hb.closed p hp)
    · intro a ha
      simp only [update_of_ne ha, and_self]
    · simp only [update_self]
      have hsum : (m.size bp + m.size (m.ptr p)) % 2 ^ 32 = m.size bp + m.size (m.ptr p) := Nat.mod_eq_of_lt (by omega)
      omega
  · cases h
    refine ⟨rfl, rfl, ?_, ?_, hblock⟩
    · simp only [update_self]
      exact hb.closed p hp
    · intro a ha
      simp only [update_of_ne ha, and_self]

theorem joinDown_below {top : ℕ} (hbp : bp + 8 * m.size bp ≤ top) (hp : p + 8 * m.size p ≤ top) (htop : top < KERNBASE) :
    (joinDown m bp p).sz = m.sz ∧ (joinDown m bp p).asked = m.asked ∧
      (∀ a, a ≠ p → (joinDown m bp p).ptr a = m.ptr a ∧ (joinDown m bp p).size a = m.size a) ∧
      ((joinDown m bp p).ptr p = bp ∨ (joinDown m bp p).ptr p = m.ptr bp) ∧
      p + 8 * (joinDown m bp p).size p ≤ top := by
  have hKB : KERNBASE = 2 ^ 31 := rfl
  rw [joinDown]
  split
  case isTrue hjoin =>
    rw [header_eq (by omega)] at hjoin
    refine ⟨rfl, rfl, ?_, .inr (update_self ..), ?_⟩
    · intro a ha
      simp only [update_of_ne ha, and_self]
    · simp only [update_self]
      have hsum : (m.size p + m.size bp) % 2 ^ 32 = m.size p + m.size bp := Nat.mod_eq_of_lt (by omega)
      omega
  case isFalse =>
    refine ⟨rfl, rfl, ?_, .inl (update_self ..), hp⟩
    intro a ha
    simp only [update_of_ne ha, and_self]

/-- **`free` keeps the list below the size**, with the block that it puts back. -/
theorem free_below {turns : ℕ} (hb : Below L m) (hhead : bp + 8 ≤ m.sz) (hblock : bp + 8 * m.size bp ≤ m.sz)
    (h : free turns m bp = .ok m') : Below (insert bp L) m' ∧ m'.sz = m.sz ∧ m'.asked = m.asked := by
  rw [free] at h
  split at h
  case h_1 => cases h
  case h_2 f hfreep =>
    have hf := hb.freep f hfreep
    cases hloop : freeLoop m bp turns f with
    | error e =>
      rw [hloop] at h
      cases h
    | ok p =>
      obtain ⟨hp, hne⟩ := freeLoop_ok hb hf hloop
      rw [hloop] at h
      cases hup : joinUp m bp p with
      | error e =>
        have h' : (joinUp m bp p >>= fun m => pure { joinDown m bp p with freep := some p }) = Except.ok m' := h
        rw [hup] at h'
        cases h'
      | ok m₁ =>
        obtain ⟨hsz, hasked, hptr, hsame, hbp⟩ := joinUp_below hb hblock hp hup
        have h' : (joinUp m bp p >>= fun m => pure { joinDown m bp p with freep := some p }) = Except.ok m' := h
        rw [hup] at h'
        obtain rfl : { joinDown m₁ bp p with freep := some p } = m' := Except.ok.inj h'
        have hlt := hb.size
        have hpp := hsame p hne
        have hpblock := hb.block p hp
        obtain ⟨hsz', hasked', hothers, hnext, hpsize⟩ := joinDown_below (m := m₁) (p := p) hbp
          (by rw [hpp.2]; exact hpblock) hlt
        refine ⟨?_, hsz'.trans hsz, hasked'.trans hasked⟩
        constructor
        case size =>
          change (joinDown m₁ bp p).sz < KERNBASE
          rw [hsz', hsz]
          exact hb.size
        case closed =>
          intro a ha
          change (joinDown m₁ bp p).ptr a ∈ insert bp L
          by_cases hap : a = p
          · subst hap
            rcases hnext with hnext | hnext
            · rw [hnext]
              exact Set.mem_insert ..
            · rw [hnext]
              exact Set.mem_insert_of_mem _ hptr
          · rw [(hothers a hap).1]
            by_cases habp : a = bp
            · subst habp
              exact Set.mem_insert_of_mem _ hptr
            · rw [(hsame a habp).1]
              exact Set.mem_insert_of_mem _ (hb.closed a (Set.mem_of_mem_insert_of_ne ha habp))
        case header =>
          intro a ha
          change a + 8 ≤ (joinDown m₁ bp p).sz
          rw [hsz', hsz]
          rcases Set.mem_insert_iff.1 ha with rfl | ha
          · exact hhead
          · exact hb.header a ha
        case block =>
          intro a ha
          change a + 8 * (joinDown m₁ bp p).size a ≤ (joinDown m₁ bp p).sz
          rw [hsz', hsz]
          by_cases hap : a = p
          · subst hap
            exact hpsize
          · rw [(hothers a hap).2]
            by_cases habp : a = bp
            · subst habp
              exact hbp
            · rw [(hsame a habp).2]
              exact hb.block a (Set.mem_of_mem_insert_of_ne ha habp)
        case freep =>
          intro g hg
          cases hg
          exact Set.mem_insert_of_mem _ hp

/-! ## `malloc` for requests that do not wrap -/

theorem allocLoop_result {h oldsz newsz k a r : ℕ} {mem mem' : Mem} (hr : allocLoop h oldsz newsz k a mem = .ok (mem', r)) :
    r = newsz ∨ r = 0 := by
  induction k generalizing a mem with
  | zero =>
    cases hr
    exact .inl rfl
  | succ k ih =>
    rw [allocLoop] at hr
    split at hr
    case isFalse =>
      cases hr
      exact .inl rfl
    case isTrue =>
      split at hr
      · split at hr
        · cases hr
        · cases hr
          exact .inr rfl
      · split at hr
        · cases hr
        · exact ih hr

/-- a process that has grown -/
theorem growproc_grows {pgdir sz sz' : ℕ} {n : ℤ} {mem mem' : Mem} (hn : 0 < n) (hmax : n < 2 ^ 31) (hsz : sz < KERNBASE)
    (h : growproc mem pgdir sz n = .ok (mem', some sz')) : (sz' : ℤ) = sz + n ∧ sz' < KERNBASE := by
  have hKB : KERNBASE = 2 ^ 31 := rfl
  have hsum : (addSize sz n : ℤ) = sz + n := by
    rw [addSize, Int.toNat_of_nonneg (Int.emod_nonneg _ (by decide)), Int.emod_eq_of_lt (by omega) (by omega)]
  rw [growproc, if_pos hn, allocuvm] at h
  split_ifs at h with hbig hsmall
  · simp at h
  · omega
  · cases halloc : allocLoop pgdir sz (addSize sz n) (addSize sz n / PGSIZE + 1) (pgroundup sz) mem with
    | error e =>
      rw [halloc] at h
      cases h
    | ok r =>
      obtain ⟨mem₁, r⟩ := r
      rw [halloc] at h
      by_cases hr : r = 0
      · simp [hr] at h
      · simp only [if_neg hr] at h
        have hsame : r = sz' := Option.some.inj (congrArg Prod.snd (Except.ok.inj h))
        have hres := allocLoop_result halloc
        omega

/-- a number of units whose bytes are a positive `int` -/
structure Fits (n units : ℕ) : Prop where
  pos : 0 < units
  room : n + 8 ≤ 8 * units
  small : 8 * units < 2 ^ 31

theorem nunits_fits {n : ℕ} (h : n ≤ 2 ^ 31 - 16) : Fits n (nunits n) := by
  unfold nunits
  constructor <;> omega

variable {n units turns : ℕ}

/-- **`morecore` asks for enough**, and if it returns a header, the list is below the new size. -/
theorem morecore_below (turns : ℕ) (hfits : Fits n units) (hb : Below L m) (hasked : AskedEnough n m.asked) :
    AskedEnough n (morecore turns m units).2.asked ∧
      ∀ q, (morecore turns m units).1 = .ok (some q) → ∃ L', Below L' (morecore turns m units).2 ∧ q ∈ L' := by
  obtain ⟨hpos, hroom, hsmall⟩ := hfits
  unfold morecore
  generalize hnu : (if units < 4096 then 4096 else units) = nu
  have hlow : units ≤ nu ∧ 4096 ≤ nu ∧ 8 * nu < 2 ^ 31 := by
    rw [← hnu]
    split <;> omega
  have hint : toInt (nu * 8 % 2 ^ 32) = (nu * 8 : ℕ) := by
    rw [Nat.mod_eq_of_lt (by omega)]
    exact toInt_eq (by omega)
  simp only [hint]
  have hmore : AskedEnough n (m.asked ++ [((nu * 8 : ℕ) : ℤ)]) := by
    intro k hk
    rcases List.mem_append.1 hk with hk | hk
    · exact hasked k hk
    · rw [List.mem_singleton.1 hk]
      omega
  split
  case h_1 => exact ⟨hmore, fun _ h => by cases h⟩
  case h_2 => exact ⟨hmore, fun _ h => by cases h⟩
  case h_3 mem sz hgrow =>
    obtain ⟨hsz, hlt⟩ := growproc_grows (by omega) (by omega) hb.size hgrow
    have hle : m.sz + 8 * nu = sz := by omega
    split
    case isTrue => exact ⟨hmore, fun _ h => by cases h⟩
    case isFalse =>
      -- the new block starts at the old size, where no header of the list is
      have hnew : Below L { m with
          asked := m.asked ++ [((nu * 8 : ℕ) : ℤ)], mem := mem, sz := sz, size := update m.size m.sz nu } := by
        constructor
        case size => exact hlt
        case closed => exact hb.closed
        case header =>
          intro a ha
          have := hb.header a ha
          simp only
          omega
        case block =>
          intro a ha
          have hhead := hb.header a ha
          have hblock := hb.block a ha
          have hne : a ≠ m.sz := by omega
          simp only [update_of_ne hne]
          omega
        case freep => exact hb.freep
      split
      case h_1 => exact ⟨hmore, fun _ h => by cases h⟩
      case h_2 m₁ hfree =>
        obtain ⟨hb₁, hsz₁, hasked₁⟩ := free_below hnew (by simp only; omega)
          (by simp only [update_self]; omega) hfree
        refine ⟨?_, ?_⟩
        · rw [hasked₁]
          exact hmore
        · intro q hq
          exact ⟨_, hb₁, hb₁.freep q (Except.ok.inj hq)⟩

/-- the block that is taken ends where the one it is taken from ended -/
theorem take_block (prevp : ℕ) (hb : Below L m) (hp : p ∈ L) (hpos : 0 < units) (hsize : units ≤ m.size p) :
    ∃ a, (take m units prevp p).1 = a + 8 ∧ (take m units prevp p).2.size a = units ∧
      a + 8 * units ≤ (take m units prevp p).2.sz ∧ (take m units prevp p).2.asked = m.asked := by
  have hKB : KERNBASE = 2 ^ 31 := rfl
  have hsz := hb.size
  have hblock := hb.block p hp
  rw [take]
  split
  case isTrue hall =>
    refine ⟨p, ?_, hall, ?_, rfl⟩
    · exact header_eq (by omega)
    · simp only
      omega
  case isFalse =>
    simp only [update_self]
    have hhead : header p (m.size p - units) = p + 8 * (m.size p - units) := header_eq (by omega)
    rw [hhead]
    refine ⟨p + 8 * (m.size p - units), header_eq (by omega), update_self .., ?_, trivial⟩
    omega

/-- **The loop of `malloc`** asks for enough, and returns a block below the size. -/
theorem mallocLoop_sound (hfits : Fits n units) (turns : ℕ) {prevp : ℕ} (hb : Below L m) (hp : p ∈ L)
    (hasked : AskedEnough n m.asked) :
    AskedEnough n (mallocLoop units turns m prevp p).2.asked ∧
      ∀ ap, (mallocLoop units turns m prevp p).1 = .ok (some ap) →
        ∃ a, ap = a + 8 ∧ HasBlock n (mallocLoop units turns m prevp p).2 a := by
  induction turns generalizing m prevp p L with
  | zero => exact ⟨hasked, fun _ h => by cases h⟩
  | succ turns ih =>
    rw [mallocLoop]
    by_cases hmapped : m.Mapped p
    · rw [if_neg (not_not.2 hmapped)]
      split_ifs with hlarge hround
      · obtain ⟨a, hap, hsize, hend, hsame⟩ := take_block prevp hb hp hfits.pos hlarge
        refine ⟨by rw [hsame]; exact hasked, ?_⟩
        intro ap hres
        have hres' := Option.some.inj (Except.ok.inj hres)
        refine ⟨a, hres'.symm.trans hap, ?_, ?_⟩
        · rw [hsize]
          exact hfits.room
        · rw [hsize]
          exact hend
      · obtain ⟨henough, hlist⟩ := morecore_below turns hfits hb hasked
        cases hmore : morecore turns m units with
        | mk r m₁ =>
          rw [hmore] at henough hlist
          cases r with
          | error e => exact ⟨henough, fun _ h => by cases h⟩
          | ok q =>
            cases q with
            | none => exact ⟨henough, fun _ h => by cases h⟩
            | some q =>
              obtain ⟨L', hb', hq⟩ := hlist q rfl
              exact ih hb' (hb'.closed q hq) henough
      · exact ih hb (hb.closed p hp) hasked
    · rw [if_pos hmapped]
      exact ⟨hasked, fun _ h => by cases h⟩

/-- the list from a header of the free list, as a set that is closed -/
theorem below_of_circle {l : List ℕ} (hsz : m.sz < KERNBASE) (hcircle : Circle m.ptr (f :: l))
    (hlist : ∀ a ∈ f :: l, a + 8 ≤ m.sz ∧ a + 8 * m.size a ≤ m.sz) (hfreep : m.freep = some f) :
    Below {a | a ∈ f :: l} m where
  size := hsz
  closed := by
    intro a ha
    obtain ⟨l₁, l₂, hl⟩ := List.append_of_mem (show a ∈ f :: l from ha)
    have hrot : f :: l ~r a :: (l₂ ++ l₁) := by
      rw [hl, ← List.cons_append]
      exact List.isRotated_append
    have hnext := (hcircle.rotate hrot).next_eq
    change m.ptr a ∈ f :: l
    rw [hrot.mem_iff, hnext]
    cases hrest : l₂ ++ l₁ with
    | nil => exact List.mem_cons_self
    | cons b rest => exact List.mem_cons_of_mem _ List.mem_cons_self
  header a ha := (hlist a ha).1
  block a ha := (hlist a ha).2
  freep g hg := by
    rw [hfreep] at hg
    cases hg
    exact List.mem_cons_self

/-! ## Requests that wrap -/

theorem joinDown_asked : (joinDown m bp p).asked = m.asked := by
  rw [joinDown]
  split <;> rfl

theorem free_asked (h : free turns m bp = .ok m') : m'.asked = m.asked := by
  rw [free] at h
  split at h
  case h_1 => cases h
  case h_2 f _ =>
    cases hloop : freeLoop m bp turns f with
    | error e =>
      rw [hloop] at h
      cases h
    | ok p =>
      rw [hloop] at h
      have h' : (joinUp m bp p >>= fun m => pure { joinDown m bp p with freep := some p }) = Except.ok m' := h
      rw [joinUp] at h'
      split_ifs at h'
      · cases h'
        exact joinDown_asked
      · cases h'
      · cases h'
        exact joinDown_asked

/-- what `morecore` asks for -/
theorem morecore_asked (turns : ℕ) (m : M) (nu : ℕ) :
    (morecore turns m nu).2.asked = m.asked ++ [toInt ((if nu < 4096 then 4096 else nu) * 8 % 2 ^ 32)] := by
  unfold morecore
  generalize (if nu < 4096 then 4096 else nu) = nu
  simp only
  split
  case h_1 => rfl
  case h_2 => rfl
  case h_3 =>
    split
    case isTrue => rfl
    case isFalse =>
      split
      case h_1 => rfl
      case h_2 m₁ hfree => exact free_asked hfree

theorem mallocLoop_asked (turns : ℕ) {prevp : ℕ} : m.asked <+: (mallocLoop units turns m prevp p).2.asked := by
  induction turns generalizing m prevp p with
  | zero => exact List.prefix_rfl
  | succ turns ih =>
    rw [mallocLoop]
    by_cases hmapped : m.Mapped p
    · rw [if_neg (not_not.2 hmapped)]
      split_ifs with hlarge hround
      · rw [take]
        split <;> exact List.prefix_rfl
      · have hmore : m.asked <+: (morecore turns m units).2.asked := by
          rw [morecore_asked]
          exact List.prefix_append ..
        cases hcore : morecore turns m units with
        | mk r m₁ =>
          rw [hcore] at hmore
          cases r with
          | error e => exact hmore
          | ok q =>
            cases q with
            | none => exact hmore
            | some q => exact hmore.trans ih
      · exact ih
    · rw [if_pos hmapped]

/-- the search goes around the circle: it finds a block that is large enough, or asks for memory -/
theorem mallocLoop_walks {w : List ℕ} {prevp : ℕ} (units : ℕ) (hchain : List.IsChain (fun a b => m.ptr a = b) (prevp :: (w ++ [f])))
    (hfreep : m.freep = some f) (hf : f ∉ w) (hmapped : ∀ x ∈ w ++ [f], m.Mapped x) (turns : ℕ) :
    ∃ turns', (∃ y x, x ∈ w ++ [f] ∧ units ≤ m.size x ∧ mallocLoop units turns' m prevp (m.ptr prevp) =
        (.ok (some (take m units y x).1), (take m units y x).2)) ∨
      (morecore turns m units).2.asked <+: (mallocLoop units turns' m prevp (m.ptr prevp)).2.asked := by
  induction w generalizing prevp with
  | nil =>
    obtain ⟨hnext, _⟩ := isChain_first.1 hchain
    have hptr : m.ptr prevp = f := hnext
    refine ⟨turns + 1, ?_⟩
    rw [hptr, mallocLoop, if_neg (not_not.2 (hmapped f (by simp)))]
    split_ifs with hlarge
    · exact .inl ⟨prevp, f, by simp, hlarge, rfl⟩
    · right
      cases hcore : morecore turns m units with
      | mk r m₁ =>
        cases r with
        | error e => exact List.prefix_rfl
        | ok q =>
          cases q with
          | none => exact List.prefix_rfl
          | some q => exact mallocLoop_asked turns
  | cons y w ih =>
    obtain ⟨hnext, hrest⟩ := isChain_first.1 hchain
    have hptr : m.ptr prevp = y := hnext
    rw [List.mem_cons, not_or] at hf
    obtain ⟨turns', hturns⟩ := ih hrest hf.2 fun x hx => hmapped x (List.mem_cons_of_mem _ hx)
    refine ⟨turns' + 1, ?_⟩
    rw [hptr, mallocLoop, if_neg (not_not.2 (hmapped y (by simp)))]
    split_ifs with hlarge hround
    · exact .inl ⟨prevp, y, by simp, hlarge, rfl⟩
    · rw [hfreep] at hround
      exact absurd (Option.some.inj hround) hf.1
    · rcases hturns with ⟨z, x, hx, hsize, hloop⟩ | hasks
      · exact .inl ⟨z, x, List.mem_cons_of_mem _ hx, hsize, hloop⟩
      · exact .inr hasks

theorem toInt_nonpos {k : ℕ} (hlow : 2 ^ 31 ≤ k) (hhigh : k ≤ 2 ^ 32) : toInt (k % 2 ^ 32) ≤ 0 := by
  by_cases htop : k = 2 ^ 32
  · subst htop
    decide
  · rw [Nat.mod_eq_of_lt (by omega), toInt, BitVec.toInt_eq_toNat_cond, BitVec.toNat_ofNat, Nat.mod_eq_of_lt (by omega)]
    split <;> omega

/-- what the call returns or asks for is wrong for the larger requests -/
theorem mallocLoop_unsound {l : List ℕ} (hlow : 2 ^ 31 - 16 < n) (hhigh : n < 2 ^ 32) (hsz : m.sz < KERNBASE)
    (hfreep : m.freep = some f) (hnodup : (f :: l).Nodup) (hcircle : Circle m.ptr (f :: l))
    (hlist : ∀ a ∈ f :: l, a + 8 ≤ m.sz ∧ a + 8 * m.size a ≤ m.sz) :
    ∃ turns, AskedEnough n (mallocLoop (nunits n) turns m f (m.ptr f)).2.asked →
      ∃ ap, (mallocLoop (nunits n) turns m f (m.ptr f)).1 = .ok (some ap) ∧
        ∀ a, ap = a + 8 → ¬ HasBlock n (mallocLoop (nunits n) turns m f (m.ptr f)).2 a := by
  have hKB : KERNBASE = 2 ^ 31 := rfl
  have hmem : ∀ x, x ∈ l ++ [f] → x ∈ f :: l := by
    intro x hx
    rw [List.mem_append, List.mem_singleton] at hx
    exact List.mem_cons.2 hx.symm
  obtain ⟨turns, hturns⟩ := mallocLoop_walks (nunits n) (circle_cons.1 hcircle) hfreep (List.nodup_cons.1 hnodup).1
    (fun x hx => mapped_of_le (hlist x (hmem x hx)).1) 0
  refine ⟨turns, fun henough => ?_⟩
  rcases hturns with ⟨y, x, hx, hsize, hloop⟩ | hasks
  · -- a block was found, so the sum for the units has wrapped
    have hblock := (hlist x (hmem x hx)).2
    have hone : nunits n = 1 := by
      unfold nunits at hsize ⊢
      omega
    obtain ⟨a, hap, hunits, _⟩ := take_block y (below_of_circle hsz hcircle hlist hfreep) (hmem x hx)
      (show 0 < nunits n by omega) hsize
    refine ⟨_, by rw [hloop], ?_⟩
    intro b hb
    obtain rfl : a = b := by omega
    rw [hloop, HasBlock, hunits]
    omega
  · -- `sbrk` was asked for too little
    rw [morecore_asked] at hasks
    have hbad := henough _ (hasks.subset (List.mem_append_right _ (List.mem_singleton_self _)))
    exfalso
    by_cases hwrap : n < 2 ^ 32 - 7
    · have hunits : nunits n = (n + 7) / 8 + 1 := by
        unfold nunits
        omega
      rw [if_neg (by omega)] at hbad
      have hneg : toInt (nunits n * 8 % 2 ^ 32) ≤ 0 := toInt_nonpos (by omega) (by omega)
      omega
    · have hunits : nunits n = 1 := by
        unfold nunits
        omega
      have hsmall : toInt ((if nunits n < 4096 then 4096 else nunits n) * 8 % 2 ^ 32) = 32768 := by
        rw [hunits]
        decide
      rw [hsmall] at hbad
      omega

/-- the first call makes the list -/
theorem Ready.first {base : ℕ} (h : Ready base m) :
    let m' := { m with
      asked := [], ptr := update m.ptr base base, size := update m.size base 0, freep := some base }
    Circle m'.ptr [base] ∧ ∀ a ∈ [base], a + 8 ≤ m'.sz ∧ a + 8 * m'.size a ≤ m'.sz := by
  refine ⟨circle_cons.2 (isChain_first.2 ⟨update_self .., .singleton _⟩), ?_⟩
  intro a ha
  obtain rfl := List.mem_singleton.1 ha
  have hbase := h.base
  refine ⟨hbase, ?_⟩
  simp only [update_self]
  omega

/-- the heap of `User/Malloc`, in a process that has all the memory of the heap -/
theorem ready_of_heap {base sz : ℕ} {s : Malloc.St} {as out : List ℕ} (h : Malloc.Heap base s as out) (hsz : sz < KERNBASE)
    (hbase : base + 8 ≤ sz) (hcores : ∀ c ∈ s.cores, c.1 + c.2 ≤ sz) (mem : Mem) (pgdir : ℕ) :
    Ready base ⟨s.ptr, s.size, s.freep, mem, pgdir, sz, []⟩ where
  size := hsz
  base := hbase
  list := by
    intro f hfreep
    obtain ⟨g, hg, hg'⟩ := h.freep
    obtain rfl : f = g := Option.some.inj (hfreep.symm.trans hg')
    obtain ⟨l₁, l₂, hl⟩ := List.append_of_mem hg
    have hrot := Malloc.rotated hl
    refine ⟨l₂ ++ l₁, hrot.nodup_iff.1 (h.sorted.imp fun hlt => Nat.ne_of_lt hlt), h.circle.rotate hrot, ?_⟩
    intro a ha
    rcases List.mem_cons.1 (hrot.mem_iff.2 ha) with rfl | ha
    · refine ⟨hbase, ?_⟩
      simp only [h.empty]
      omega
    · have hblock := h.below hcores (List.mem_append_left _ ha)
      have hpos := h.pos (List.mem_append_left _ ha)
      exact ⟨by simp only; omega, hblock⟩

/-- **`malloc` is sound exactly for requests up to 2^31 - 16.** For every 32-bit request, every process and every free list
of headers and blocks below its size. -/
theorem malloc_sound_iff (base : ℕ) (m : M) (n : ℕ) (hn : n < 2 ^ 32) (h : Ready base m) :
    Sound base m n ↔ n ≤ 2 ^ 31 - 16 := by
  -- the state and the list that the loop starts with
  obtain ⟨m₁, f, l, hstart, hasked, hsz, hfreep, hnodup, hcircle, hlist⟩ : ∃ m₁ f l,
      (∀ turns, malloc turns base m n = mallocLoop (nunits n) turns m₁ f (m₁.ptr f)) ∧ m₁.asked = [] ∧ m₁.sz < KERNBASE ∧
        m₁.freep = some f ∧ (f :: l).Nodup ∧ Circle m₁.ptr (f :: l) ∧
        ∀ a ∈ f :: l, a + 8 ≤ m₁.sz ∧ a + 8 * m₁.size a ≤ m₁.sz := by
    cases hfreep : m.freep with
    | none =>
      obtain ⟨hcircle, hlist⟩ := h.first
      refine ⟨{ m with
        asked := []
        ptr := update m.ptr base base
        size := update m.size base 0
        freep := some base }, base, [], ?_, rfl, h.size, rfl, List.nodup_singleton _, hcircle, hlist⟩
      intro turns
      simp only [malloc, hfreep]
    | some f =>
      obtain ⟨l, hnodup, hcircle, hlist⟩ := h.list f hfreep
      refine ⟨{ m with asked := [] }, f, l, ?_, rfl, h.size, hfreep, hnodup, hcircle, hlist⟩
      intro turns
      simp only [malloc, hfreep]
  constructor
  · intro hsound
    by_contra hlow
    obtain ⟨turns, hbad⟩ := mallocLoop_unsound (not_le.1 hlow) hn hsz hfreep hnodup hcircle hlist
    obtain ⟨henough, hblock⟩ := hsound turns
    rw [hstart] at henough hblock
    obtain ⟨ap, hres, hno⟩ := hbad henough
    obtain ⟨a, hap, ha⟩ := hblock ap hres
    exact hno a hap ha
  · intro hle turns
    rw [hstart]
    have hb := below_of_circle hsz hcircle hlist hfreep
    refine mallocLoop_sound (nunits_fits hle) turns hb (hb.closed f List.mem_cons_self) ?_
    rw [hasked]
    exact fun k hk => absurd hk List.not_mem_nil

/-- a process of 8200 bytes with a free block of 4096 bytes -/
def oneBlock : M where
  ptr a := if a = 64 then 4096 else 64
  size a := if a = 4096 then 512 else 0
  freep := some 64
  mem := ⟨[], fun _ _ => 0, fun _ => ⟨0, fun _ => none⟩, 1, 1024, 0⟩
  pgdir := 0
  sz := 8200
  asked := []

theorem oneBlock_ready : Ready 64 oneBlock where
  size := by decide
  base := by decide
  list := by
    intro f hf
    cases hf
    refine ⟨[4096], by decide, circle_cons.2 (.cons_cons rfl (.cons_cons rfl (.singleton _))), ?_⟩
    decide

/-- a request for 100 bytes -/
theorem oneBlock_sound : Sound 64 oneBlock 100 :=
  (malloc_sound_iff 64 oneBlock 100 (by decide) oneBlock_ready).2 (by decide)

/-- a block that is returned and is none -/
theorem not_sound {base ap n : ℕ} {m : M} (turns : ℕ) (h : (malloc turns base m n).1.toOption = some (some (ap + 8)))
    (hno : ¬ HasBlock n (malloc turns base m n).2 ap) : ¬ Sound base m n := by
  intro hsound
  cases hres : (malloc turns base m n).1 with
  | error e =>
    rw [hres] at h
    cases h
  | ok r =>
    rw [hres] at h
    obtain rfl : r = some (ap + 8) := Option.some.inj h
    obtain ⟨a, hap, ha⟩ := (hsound turns).2 _ hres
    obtain rfl : ap = a := by omega
    exact hno ha

/-- **Requests that wrap.** The largest request gets a block of 8 bytes, which is the header; a request for half of the
address space asks `sbrk` for a negative number of bytes, which does nothing, and gets a block that starts at the end of the
process. -/
theorem malloc_unsound :
    ((malloc 3 64 oneBlock (2 ^ 32 - 1)).1.toOption = some (some 8192) ∧
      (malloc 3 64 oneBlock (2 ^ 32 - 1)).2.size 8184 = 1 ∧ ¬ Sound 64 oneBlock (2 ^ 32 - 1)) ∧
    (malloc 5 64 oneBlock (2 ^ 31)).1.toOption = some (some 8208) ∧ (malloc 5 64 oneBlock (2 ^ 31)).2.sz = 8200 ∧
      (malloc 5 64 oneBlock (2 ^ 31)).2.asked = [-2147483640] ∧ ¬ Sound 64 oneBlock (2 ^ 31) := by
  have hlargest : (malloc 3 64 oneBlock (2 ^ 32 - 1)).1.toOption = some (some 8192) := by decide +kernel
  have hunits : (malloc 3 64 oneBlock (2 ^ 32 - 1)).2.size 8184 = 1 := by decide +kernel
  have hhalf : (malloc 5 64 oneBlock (2 ^ 31)).1.toOption = some (some 8208) := by decide +kernel
  have hsz : (malloc 5 64 oneBlock (2 ^ 31)).2.sz = 8200 := by decide +kernel
  have hroom : (malloc 5 64 oneBlock (2 ^ 31)).2.size 8200 = 2 ^ 28 + 1 := by decide +kernel
  refine ⟨⟨hlargest, hunits, not_sound 3 hlargest ?_⟩, hhalf, hsz, by decide +kernel, not_sound 5 hhalf ?_⟩
  · intro hblock
    have hfits := hblock.1
    rw [hunits] at hfits
    omega
  · intro hblock
    have hend := hblock.2
    rw [hsz, hroom] at hend
    omega

end Xv6Threads.Malloc32
