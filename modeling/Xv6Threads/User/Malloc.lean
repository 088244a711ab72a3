/-
The user allocator of umalloc.c: `free`, `morecore` and `malloc`.

A header is modelled by two maps from addresses, `ptr` and `size`; pointer arithmetic on headers is in steps of 8 bytes. The
address of the static header `base` is a parameter. What `sbrk` answers is part of an operation: it fails, or it returns
memory above `base` and above all it returned before. Between calls a program may write into the blocks it has, behind
their headers. Sizes asked for are below 2^30, so that no sum wraps.

Histories that no step reads, but for the turns a loop is given: the blocks that were handed out and not freed (`live`), the
memory that `sbrk` returned (`cores`), and the number of calls of `free`, which bounds the length of the free list.
- `Heap base s as out`: the free list is the circle of `base` and `as`, in the order of the addresses; no two blocks of it
  meet; its blocks and those of `out` tile the memory.
- `Heap.free_ends`: `free` ends, and puts its block back.
- `Heap.malloc_ends`: `malloc` ends, and takes a block out.
- `allocator_partitions`: so it is after every sequence of calls.
-/
import Xv6Threads.Core.Circle
import Xv6Threads.Core.Outcome

namespace Xv6Threads.Malloc

open Xv6Threads.Core Function

/-! ## The code -/

/-- why a call does not return: a null pointer, a loop that was not given enough turns, or more calls of `sbrk` than answers -/
inductive Fail where
  | null
  | spins
  | sbrk
deriving DecidableEq

/-- a block that was handed out: its header, and the bytes asked for -/
structure Live where
  addr : ℕ
  n : ℕ
deriving DecidableEq

structure St where
  ptr : ℕ → ℕ
  size : ℕ → ℕ
  freep : Option ℕ
  cores : List (ℕ × ℕ)
  calls : ℕ
  live : List Live
  failed : Option Fail

/-- the search of `free`, from `p` -/
def freeLoop (s : St) (bp : ℕ) : ℕ → ℕ → Option ℕ
  | 0, _ => none
  | turns + 1, p =>
    if p < bp ∧ bp < s.ptr p then some p
    else if s.ptr p ≤ p ∧ (p < bp ∨ bp < s.ptr p) then some p
    else freeLoop s bp turns (s.ptr p)

/-- the first `if` of `free`: join to the upper neighbour -/
def joinUp (s : St) (bp p : ℕ) : St :=
  if bp + 8 * s.size bp = s.ptr p then
    { s with size := update s.size bp (s.size bp + s.size (s.ptr p)),
             ptr := update s.ptr bp (s.ptr (s.ptr p)) }
  else { s with ptr := update s.ptr bp (s.ptr p) }

/-- the second: join to the lower one -/
def joinDown (s : St) (bp p : ℕ) : St :=
  if p + 8 * s.size p = bp then
    { s with size := update s.size p (s.size p + s.size bp), ptr := update s.ptr p (s.ptr bp) }
  else { s with ptr := update s.ptr p bp }

def free (s : St) (ap : ℕ) : Except Fail St :=
  let bp := ap - 8
  match s.freep with
  | none => .error .null
  | some f =>
    match freeLoop s bp (s.calls + 1) f with
    | none => .error .spins
    | some p => .ok { joinDown (joinUp s bp p) bp p with freep := some p, calls := s.calls + 1 }

/-- `morecore`, with what `sbrk` answers -/
def morecore (s : St) (nu : ℕ) (answer : Option ℕ) : Except Fail (Option ℕ × St) :=
  let nu := if nu < 4096 then 4096 else nu
  match answer with
  | none => .ok (none, s)
  | some hp => do
    let s ← free { s with size := update s.size hp nu, cores := s.cores ++ [(hp, 8 * nu)] } (hp + 8)
    return (s.freep, s)

/-- `malloc` at a block that is large enough -/
def take (s : St) (nunits prevp p : ℕ) : Option ℕ × St :=
  if s.size p = nunits then
    (some (p + 8), { s with ptr := update s.ptr prevp (s.ptr p), freep := some prevp })
  else
    let s := { s with size := update s.size p (s.size p - nunits) }
    let p := p + 8 * s.size p
    (some (p + 8), { s with size := update s.size p nunits, freep := some prevp })

/-- the loop of `malloc` -/
def mallocLoop (nunits : ℕ) : ℕ → List (Option ℕ) → St → ℕ → ℕ → Except Fail (Option ℕ × St)
  | 0, _, _, _, _ => .error .spins
  | turns + 1, answers, s, prevp, p =>
    if nunits ≤ s.size p then .ok (take s nunits prevp p)
    else if s.freep = some p then
      match answers with
      | [] => .error .sbrk
      | answer :: answers => do
        let (hp, s) ← morecore s nunits answer
        match hp with
        | none => return (none, s)
        | some p => mallocLoop nunits turns answers s p (s.ptr p)
    else mallocLoop nunits turns answers s p (s.ptr p)

/-- the units for `n` bytes and a header -/
def nunits (n : ℕ) : ℕ := (n + 8 - 1) / 8 + 1

def malloc (base : ℕ) (s : St) (n : ℕ) (answers : List (Option ℕ)) : Except Fail (Option ℕ × St) :=
  let (s, prevp) :=
    match s.freep with
    | none =>
      ({ s with ptr := update s.ptr base base, size := update s.size base 0, freep := some base }, base)
    | some f => (s, f)
  mallocLoop (nunits n) (2 * s.calls + 3) answers s prevp (s.ptr prevp)

/-! ## Runs -/

/-- what may be asked of `sbrk`'s answer -/
def Fresh (base : ℕ) (s : St) (answer : Option ℕ) : Prop :=
  ∀ hp ∈ answer, 8 ∣ hp ∧ base + 8 ≤ hp ∧ ∀ c ∈ s.cores, c.1 + c.2 ≤ hp

instance decidableFresh (base : ℕ) (s : St) (answer : Option ℕ) : Decidable (Fresh base s answer) := by
  unfold Fresh
  infer_instance

inductive Op where
  | malloc (n : ℕ) (answer : Option ℕ)
  | free (ap : ℕ)
  /-- the program writes eight bytes -/
  | write (a ptr size : ℕ)

def St.after (s : St) : Except Fail St → St
  | .ok s' => s'
  | .error e => { s with failed := some e }

def step (base : ℕ) (s : St) : Op → St
  | .malloc n answer =>
    if n < 2 ^ 30 ∧ Fresh base s answer then
      s.after do
        let (ap, s) ← malloc base s n [answer]
        match ap with
        | none => return s
        | some ap => return { s with live := ⟨ap - 8, n⟩ :: s.live }
    else s
  | .free ap =>
    -- a live block is freed, which is no longer live then
    match s.live.find? fun b => b.addr + 8 = ap with
    | none => s
    | some b => s.after (free { s with live := s.live.erase b } ap)
  | .write a ptr size =>
    if ∃ b ∈ s.live, b.addr + 8 ≤ a ∧ a + 8 ≤ b.addr + 8 * s.size b.addr then
      { s with ptr := update s.ptr a ptr, size := update s.size a size }
    else s

/-- nothing was asked for yet -/
def init (ptr size : ℕ → ℕ) : St where
  ptr := ptr
  size := size
  freep := none
  cores := []
  calls := 0
  live := []
  failed := none

/-! ## The heap -/

/-- the memory that `sbrk` returned -/
def St.memory (s : St) (u : ℕ) : Prop := ∃ c ∈ s.cores, Covers c u

/-- the bytes of a block, with its header -/
def block (size : ℕ → ℕ) (a : ℕ) : ℕ × ℕ := (a, 8 * size a)

/-- **The heap**: `as` are the free blocks and `out` the others. -/
structure Heap (base : ℕ) (s : St) (as out : List ℕ) : Prop where
  circle : Circle s.ptr (base :: as)
  sorted : (base :: as).Pairwise (· < ·)
  freep : ∃ f ∈ base :: as, s.freep = some f
  empty : s.size base = 0
  aligned : ∀ a ∈ as ++ out, 8 ∣ a
  merged : ∀ a ∈ as, ∀ b ∈ as, a + 8 * s.size a ≠ b
  tiles : Tiles ((as ++ out).map (block s.size)) s.memory
  cores : ∀ c ∈ s.cores, base + 8 ≤ c.1
  turns : as.length ≤ s.calls

namespace Heap

variable {base : ℕ} {s : St} {as out : List ℕ} {a b bp p : ℕ} {pre post : List ℕ}

theorem pos (h : Heap base s as out) (ha : a ∈ as ++ out) : 0 < s.size a := by
  have hpos : 0 < 8 * s.size a := h.tiles.pos _ (List.mem_map_of_mem ha)
  omega

/-- a block is in the memory -/
theorem above (h : Heap base s as out) (ha : a ∈ as ++ out) : base + 8 ≤ a := by
  have hcovers : Covers (block s.size a) a := ⟨le_rfl, Nat.lt_add_of_pos_right (h.tiles.pos _ (List.mem_map_of_mem ha))⟩
  obtain ⟨c, hc, hca⟩ := (h.tiles.cover a).2 ⟨_, List.mem_map_of_mem ha, hcovers⟩
  exact (h.cores c hc).trans hca.1

theorem apart (h : Heap base s as out) (ha : a ∈ as ++ out) (hb : b ∈ as ++ out) (hne : a ≠ b) :
    a + 8 * s.size a ≤ b ∨ b + 8 * s.size b ≤ a :=
  h.tiles.apart_of_mem (List.mem_map_of_mem ha) (List.mem_map_of_mem hb) fun e => hne (congrArg Prod.fst e)

theorem nodup (h : Heap base s as out) : (as ++ out).Nodup := by
  have hpair := List.pairwise_map.1 h.tiles.apart
  refine hpair.imp_of_mem ?_
  rintro a b ha - hab rfl
  have hpos := h.pos ha
  unfold Apart block at hab
  simp only at hab
  omega

/-- the header after a header of the list -/
theorem next_eq (h : Heap base s as out) (hl : base :: as = pre ++ p :: post) : s.ptr p = post.headD base := by
  have hrot : base :: as ~r p :: (post ++ pre) := by
    rw [hl, ← List.cons_append]
    exact List.isRotated_append
  have hnext := (h.circle.rotate hrot).next_eq
  cases post with
  | cons q post => exact hnext
  | nil =>
    cases pre with
    | nil =>
      obtain ⟨rfl, -⟩ := List.cons.inj hl
      exact hnext
    | cons c pre =>
      obtain ⟨rfl, -⟩ := List.cons.inj hl
      exact hnext

end Heap

/-- a number is between two of a sorted list, or after the last -/
theorem exists_position {x bp : ℕ} {l : List ℕ} (hl : (x :: l).Pairwise (· < ·)) (hx : x < bp) (hbp : bp ∉ x :: l) :
    ∃ pre p post, x :: l = pre ++ p :: post ∧ (∀ y ∈ pre, y < bp) ∧ p < bp ∧ ∀ y ∈ post, bp < y := by
  induction l generalizing x with
  | nil => exact ⟨[], x, [], rfl, nofun, hx, nofun⟩
  | cons y l ih =>
    obtain ⟨-, hrest⟩ := List.pairwise_cons.1 hl
    rcases Nat.lt_or_ge y bp with hy | hy
    · obtain ⟨pre, p, post, he, hpre, hp, hpost⟩ := ih hrest hy fun hm => hbp (List.mem_cons_of_mem _ hm)
      refine ⟨x :: pre, p, post, by rw [he, List.cons_append], ?_, hp, hpost⟩
      intro z hz
      rcases List.mem_cons.1 hz with rfl | hz
      · exact hx
      · exact hpre z hz
    · have hne : bp ≠ y := fun e => hbp (e ▸ List.mem_cons_of_mem _ List.mem_cons_self)
      refine ⟨[], x, y :: l, rfl, nofun, hx, ?_⟩
      intro z hz
      rcases List.mem_cons.1 hz with rfl | hz
      · omega
      · have := (List.pairwise_cons.1 hrest).1 z hz
        omega

/-! ## free -/

section Free

variable {base : ℕ} {s : St} {as out : List ℕ} {bp p : ℕ} {pre post : List ℕ}

/-- the list with other headers after `p` -/
theorem exists_relist (hl : base :: as = pre ++ p :: post) (post' : List ℕ) : ∃ as', base :: as' = pre ++ p :: post' := by
  cases pre with
  | nil =>
    obtain ⟨rfl, -⟩ := List.cons.inj hl
    exact ⟨post', rfl⟩
  | cons c pre =>
    obtain ⟨rfl, -⟩ := List.cons.inj hl
    exact ⟨pre ++ p :: post', rfl⟩

/-- reading the circle from `p` -/
theorem rotated (hl : base :: as = pre ++ p :: post) : base :: as ~r p :: (post ++ pre) := by
  rw [hl, ← List.cons_append]
  exact List.isRotated_append

/-- the list with one header more after `p` -/
theorem perm_of_relist {as' : List ℕ} {q : ℕ} (hl : base :: as = pre ++ p :: q :: post) (hl' : base :: as' = pre ++ p :: post) :
    as.Perm (q :: as') := by
  have hp : (base :: as).Perm (q :: base :: as') := by
    rw [hl', hl]
    exact (List.perm_append_left_iff pre |>.2 (List.Perm.swap q p post)).trans List.perm_middle
  exact (hp.trans (List.Perm.swap _ _ _)).cons_inv

/-- `bp` belongs after `p`, which `pre` is before and `post` after -/
structure Position (base : ℕ) (as : List ℕ) (bp p : ℕ) (pre post : List ℕ) : Prop where
  list : base :: as = pre ++ p :: post
  lower : ∀ y ∈ pre, y < bp
  here : p < bp
  upper : ∀ y ∈ post, bp < y

/-- the tests of the search: it stops at `p` -/
def Stops (s : St) (bp p : ℕ) : Prop := (p < bp ∧ bp < s.ptr p) ∨ (s.ptr p ≤ p ∧ (p < bp ∨ bp < s.ptr p))

theorem Heap.stops_iff (h : Heap base s as out) (hpos : Position base as bp p pre post) {x : ℕ} (hx : x ∈ base :: as) :
    Stops s bp x ↔ x = p := by
  have hsorted := h.sorted
  rw [hpos.list] at hsorted hx
  have hbase : base ≤ p := by
    cases pre with
    | nil => exact (List.cons.inj hpos.list).1.le
    | cons c pre =>
      obtain ⟨rfl, -⟩ := List.cons.inj hpos.list
      exact ((List.pairwise_cons.1 hsorted).1 p (by simp)).le
  have hhere := hpos.here
  constructor
  · intro hstops
    by_contra hne
    rcases List.mem_append.1 hx with hx | hx
    · -- below: the next header is at most `p`
      obtain ⟨l₁, l₂, rfl⟩ := List.append_of_mem hx
      have hlist : base :: as = l₁ ++ x :: (l₂ ++ p :: post) := by
        rw [hpos.list]
        simp
      have hnext := h.next_eq hlist
      have hle : s.ptr x ≤ p := by
        rw [hnext]
        cases l₂ with
        | nil => exact le_rfl
        | cons y l₂ =>
          have hrest := (List.pairwise_append.1 hsorted).2.2 y (by simp) p (by simp)
          exact hrest.le
      have hlt : x < s.ptr x := by
        rw [hnext]
        have hx' : (x :: (l₂ ++ p :: post)).Pairwise (· < ·) :=
          hsorted.sublist (by rw [List.append_assoc]; exact List.sublist_append_right _ _)
        cases l₂ with
        | nil => exact (List.pairwise_cons.1 hx').1 p (by simp)
        | cons y l₂ => exact (List.pairwise_cons.1 hx').1 y (by simp)
      unfold Stops at hstops
      omega
    · rcases List.mem_cons.1 hx with rfl | hx
      · exact hne rfl
      · -- above: the next header is higher, or it is the base
        have hup := hpos.upper x hx
        obtain ⟨l₁, l₂, rfl⟩ := List.append_of_mem hx
        have hlist : base :: as = (pre ++ p :: l₁) ++ x :: l₂ := by
          rw [hpos.list]
          simp
        have hnext := h.next_eq hlist
        unfold Stops at hstops
        cases l₂ with
        | nil =>
          change s.ptr x = base at hnext
          omega
        | cons y l₂ =>
          change s.ptr x = y at hnext
          have hxy : x < y := by
            have hx' : (x :: y :: l₂).Pairwise (· < ·) := hsorted.sublist (by
              rw [show pre ++ p :: (l₁ ++ x :: y :: l₂) = (pre ++ p :: l₁) ++ x :: y :: l₂ by simp]
              exact List.sublist_append_right _ _)
            exact (List.pairwise_cons.1 hx').1 y List.mem_cons_self
          omega
  · rintro rfl
    have hnext := h.next_eq hpos.list
    unfold Stops
    cases post with
    | nil =>
      change s.ptr x = base at hnext
      omega
    | cons y post =>
      have hy := hpos.upper y List.mem_cons_self
      change s.ptr x = y at hnext
      omega

/-- the search goes along the next fields until it stops -/
theorem freeLoop_walk {w : List ℕ} {e turns : ℕ} (hw : List.IsChain (fun a b => s.ptr a = b) (w ++ [e]))
    (hstop : ∀ x ∈ w, Stops s bp x ↔ x = p) (hp : p ∈ w) (hturns : w.length ≤ turns) :
    freeLoop s bp turns ((w ++ [e]).headD e) = some p := by
  induction w generalizing turns with
  | nil => exact absurd hp List.not_mem_nil
  | cons x w ih =>
    obtain ⟨turns, rfl⟩ : ∃ k, turns = k + 1 := Nat.exists_eq_succ_of_ne_zero (by
      rw [List.length_cons] at hturns
      omega)
    obtain ⟨hnext, hrest⟩ := isChain_first.1 hw
    have hx := hstop x List.mem_cons_self
    change freeLoop s bp (turns + 1) x = some p
    rw [freeLoop]
    by_cases hxp : x = p
    · rcases hx.2 hxp with hfirst | hsecond
      · rw [if_pos hfirst, hxp]
      · rw [if_pos hsecond, ite_self, hxp]
    · have hno : ¬ Stops s bp x := fun hs => hxp (hx.1 hs)
      rw [if_neg fun hf => hno (.inl hf), if_neg fun hs => hno (.inr hs), hnext]
      refine ih hrest (fun y hy => hstop y (List.mem_cons_of_mem _ hy)) ?_ (Nat.le_of_succ_le_succ hturns)
      exact (List.mem_cons.1 hp).resolve_left fun e => hxp e.symm

theorem Heap.freeLoop_eq (h : Heap base s as out) (hpos : Position base as bp p pre post) {f : ℕ} (hf : f ∈ base :: as) :
    freeLoop s bp (s.calls + 1) f = some p := by
  obtain ⟨l₁, l₂, hl⟩ := List.append_of_mem hf
  have hrot := rotated hl
  have hwalk := circle_cons.1 (h.circle.rotate hrot)
  refine freeLoop_walk (w := f :: (l₂ ++ l₁)) hwalk ?_ ?_ ?_
  · exact fun x hx => h.stops_iff hpos (hrot.mem_iff.2 hx)
  · refine hrot.mem_iff.1 ?_
    rw [hpos.list]
    simp
  · rw [← hrot.perm.length_eq, List.length_cons]
    exact Nat.succ_le_succ h.turns

theorem map_block_congr {size size' : ℕ → ℕ} {l : List ℕ} (h : ∀ a ∈ l, size' a = size a) :
    l.map (block size') = l.map (block size) := by
  refine List.map_congr_left fun a ha => ?_
  unfold block
  rw [h a ha]

/-- **After the first `if`**: if the next header is where the block ends, it is part of the block. The next field that `p`
is about to get is that of the block. -/
theorem Heap.joinUp (h : Heap base s as (bp :: out)) (hpos : Position base as bp p pre post) :
    ∃ as' post', Position base as' bp p pre post' ∧
      Heap base { joinUp s bp p with ptr := update (joinUp s bp p).ptr p ((joinUp s bp p).ptr bp), freep := some p }
        as' (bp :: out) ∧
      (∀ b ∈ as', bp + 8 * (joinUp s bp p).size bp ≠ b) ∧
      s.size bp ≤ (joinUp s bp p).size bp ∧ ∀ a, a ≠ bp → (joinUp s bp p).size a = s.size a := by
  have hmem : bp ∈ as ++ bp :: out := by simp
  have hbase := h.above hmem
  have hnodup := h.nodup
  have hbp : bp ∉ as ∧ bp ∉ out := by
    rw [List.nodup_append] at hnodup
    exact ⟨fun hm => hnodup.2.2 bp hm bp List.mem_cons_self rfl, (List.nodup_cons.1 hnodup.2.1).1⟩
  have hbpl : bp ∉ base :: as := by
    rw [List.mem_cons, not_or]
    exact ⟨by omega, hbp.1⟩
  have hpl : p ∈ base :: as := by
    rw [hpos.list]
    simp
  have hpbp : p ≠ bp := fun e => hbpl (e ▸ hpl)
  have hnext := h.next_eq hpos.list
  unfold Malloc.joinUp
  split
  case isTrue hend =>
    -- the block is joined to the header after `p`, which leaves the list
    obtain ⟨q, post', rfl⟩ : ∃ q post', post = q :: post' := by
      cases post with
      | nil =>
        change s.ptr p = base at hnext
        omega
      | cons q post' => exact ⟨q, post', rfl⟩
    change s.ptr p = q at hnext
    rw [hnext] at hend ⊢
    obtain ⟨as', hl'⟩ := exists_relist hpos.list post'
    have hsub : (base :: as').Sublist (base :: as) := by
      rw [hl', hpos.list]
      exact (List.Sublist.refl pre).append ((List.sublist_cons_self q post').cons_cons p)
    have hperm : as.Perm (q :: as') := perm_of_relist hpos.list hl'
    have hq : q ∈ as := hperm.mem_iff.2 List.mem_cons_self
    have has' : ∀ a ∈ as', a ∈ as := fun a ha => hperm.mem_iff.2 (List.mem_cons_of_mem _ ha)
    have hqbp : q ≠ bp := fun e => hbp.1 (e ▸ hq)
    have hpos' : Position base as' bp p pre post' :=
      ⟨hl', hpos.lower, hpos.here, fun y hy => hpos.upper y (List.mem_cons_of_mem _ hy)⟩
    have hsize : ∀ a, a ≠ bp → update s.size bp (s.size bp + s.size q) a = s.size a :=
      fun a ha => update_of_ne ha ..
    have hne : ∀ a ∈ as' ++ out, a ≠ bp := by
      rintro a ha rfl
      rcases List.mem_append.1 ha with ha | ha
      · exact hbp.1 (has' _ ha)
      · exact hbp.2 ha
    refine ⟨as', post', hpos', ?_, ?_, ?_, hsize⟩
    · refine ⟨?_, h.sorted.sublist hsub, ⟨p, ?_, rfl⟩, ?_, ?_, ?_, ?_, h.cores, ?_⟩
      · -- `q` is linked out
        have hcircle : Circle (update s.ptr p (s.ptr q)) (p :: (post' ++ pre)) := by
          refine Circle.remove (h.circle.rotate (rotated hpos.list)) ?_
          have hnd : (p :: (q :: post' ++ pre)).Nodup :=
            (rotated hpos.list).nodup_iff.1 (h.sorted.imp fun hlt => Nat.ne_of_lt hlt)
          exact fun hm => (List.nodup_cons.1 hnd).1 (List.mem_cons_of_mem _ hm)
        refine (hcircle.rotate (rotated hpos'.list).symm).congr ?_
        intro a ha
        have hab : a ≠ bp := fun e => hbpl (e ▸ hsub.subset ha)
        simp only [update_self]
        by_cases hap : a = p
        · rw [hap, update_self, update_self]
        · rw [update_of_ne hap, update_of_ne hap, update_of_ne hab]
      · rw [hl']
        simp
      · exact (hsize base (by omega)).trans h.empty
      · intro a ha
        refine h.aligned a ?_
        rcases List.mem_append.1 ha with ha | ha
        · exact List.mem_append_left _ (has' a ha)
        · exact List.mem_append_right _ ha
      · intro a ha b hb
        change a + 8 * update s.size bp (s.size bp + s.size q) a ≠ b
        rw [hsize a (hne a (List.mem_append_left _ ha))]
        exact h.merged a (has' a ha) b (has' b hb)
      · change Tiles ((as' ++ bp :: out).map (block (update s.size bp (s.size bp + s.size q)))) s.memory
        have hold : Tiles ((bp, 8 * s.size bp) :: (bp + 8 * s.size bp, 8 * s.size q) :: (as' ++ out).map (block s.size))
            s.memory := by
          refine h.tiles.perm ?_
          rw [hend]
          have hall : (as ++ bp :: out).Perm (bp :: q :: (as' ++ out)) :=
            List.perm_middle.trans (List.Perm.cons _ (hperm.append_right out))
          exact hall.map (block s.size)
        rw [← tiles_split (Nat.mul_pos (by decide) (h.pos hmem))
          (Nat.mul_pos (by decide) (h.pos (List.mem_append_left _ hq))), ← Nat.mul_add] at hold
        refine hold.perm (List.Perm.trans (List.Perm.of_eq ?_) (List.perm_middle.symm.map _))
        rw [List.map_cons, map_block_congr fun a ha => hsize a (hne a ha)]
        unfold block
        rw [update_self]
      · have := h.turns
        rw [hperm.length_eq, List.length_cons] at this
        exact Nat.le_of_succ_le this
    · intro b hb
      simp only [update_self]
      have := h.merged q hq b (has' b hb)
      omega
    · simp only [update_self]
      exact Nat.le_add_right _ _
  case isFalse hend =>
    have hgap : ∀ b ∈ as, bp + 8 * s.size bp ≠ b := by
      intro b hb he
      have hbl : b ∈ pre ++ p :: post := hpos.list ▸ List.mem_cons_of_mem _ hb
      rcases List.mem_append.1 hbl with hlow | hbl
      · have := hpos.lower b hlow
        omega
      rcases List.mem_cons.1 hbl with rfl | hup
      · have := hpos.here
        omega
      · -- the first header above is not where the block ends, and so the others are not
        cases post with
        | nil => exact absurd hup List.not_mem_nil
        | cons q post =>
          change s.ptr p = q at hnext
          have hsorted := h.sorted
          rw [hpos.list] at hsorted
          have hqb : q ≤ b := by
            rcases List.mem_cons.1 hup with rfl | hup
            · exact le_rfl
            · have hq' : (q :: post).Pairwise (· < ·) := hsorted.sublist
                ((List.sublist_cons_self p (q :: post)).trans (List.sublist_append_right pre _))
              exact ((List.pairwise_cons.1 hq').1 b hup).le
          have hqas : q ∈ as := by
            have hql : q ∈ base :: as := by
              rw [hpos.list]
              simp
            have hqbp := hpos.upper q List.mem_cons_self
            exact (List.mem_cons.1 hql).resolve_left (by omega)
          have hapart := h.apart hmem (List.mem_append_left _ hqas) (by
            have := hpos.upper q List.mem_cons_self
            omega)
          have hqbp := hpos.upper q List.mem_cons_self
          omega
    refine ⟨as, post, hpos, ⟨?_, h.sorted, ⟨p, hpl, rfl⟩, h.empty, h.aligned, h.merged, h.tiles, h.cores, h.turns⟩, hgap,
      le_rfl, fun _ _ => rfl⟩
    refine h.circle.congr ?_
    intro a ha
    have hab : a ≠ bp := fun e => hbpl (e ▸ ha)
    simp only [update_self]
    by_cases hap : a = p
    · rw [hap, update_self]
    · rw [update_of_ne hap, update_of_ne hab]

/-- **After the second `if`**: the block is part of the one that ends where it starts, or in the list after it. -/
theorem Heap.joinDown (h : Heap base { s with ptr := update s.ptr p (s.ptr bp), freep := some p } as (bp :: out))
    (hpos : Position base as bp p pre post) (hgap : ∀ b ∈ as, bp + 8 * s.size bp ≠ b) :
    ∃ as', Heap base { joinDown s bp p with freep := some p, calls := s.calls + 1 } as' out ∧
      (∃ x ∈ as', s.size bp ≤ (joinDown s bp p).size x) ∧ ∀ a ∈ out, (joinDown s bp p).size a = s.size a := by
  have hmem : bp ∈ as ++ bp :: out := by simp
  have hbase := h.above hmem
  have hnodup := h.nodup
  have hbp : bp ∉ as ∧ bp ∉ out := by
    rw [List.nodup_append] at hnodup
    exact ⟨fun hm => hnodup.2.2 bp hm bp List.mem_cons_self rfl, (List.nodup_cons.1 hnodup.2.1).1⟩
  have hbpl : bp ∉ base :: as := by
    rw [List.mem_cons, not_or]
    exact ⟨by omega, hbp.1⟩
  have hpl : p ∈ base :: as := by
    rw [hpos.list]
    simp
  have hempty : s.size base = 0 := h.empty
  unfold Malloc.joinDown
  split
  case isTrue hend =>
    have hpas : p ∈ as := by
      refine (List.mem_cons.1 hpl).resolve_left ?_
      rintro rfl
      rw [hempty] at hend
      omega
    have hpout : p ∉ out := by
      rw [List.nodup_append] at hnodup
      exact fun hm => hnodup.2.2 p hpas p (List.mem_cons_of_mem _ hm) rfl
    have hpbp : p ≠ bp := fun e => hbp.1 (e ▸ hpas)
    have hpbase : base ≠ p := by
      have := h.above (List.mem_append_left (bp :: out) hpas)
      omega
    have hsize : ∀ a, a ≠ p → update s.size p (s.size p + s.size bp) a = s.size a :=
      fun a ha => update_of_ne ha ..
    refine ⟨as, ⟨h.circle, h.sorted, ⟨p, hpl, rfl⟩, ?_, ?_, ?_, ?_, h.cores, Nat.le_succ_of_le h.turns⟩, ⟨p, hpas, ?_⟩, ?_⟩
    · exact (hsize base hpbase).trans hempty
    · intro a ha
      refine h.aligned a ?_
      rcases List.mem_append.1 ha with ha | ha
      · exact List.mem_append_left _ ha
      · exact List.mem_append_right _ (List.mem_cons_of_mem _ ha)
    · intro a ha b hb
      change a + 8 * update s.size p (s.size p + s.size bp) a ≠ b
      by_cases hap : a = p
      · rw [hap, update_self]
        have := hgap b hb
        omega
      · rw [update_of_ne hap]
        exact h.merged a ha b hb
    · change Tiles ((as ++ out).map (block (update s.size p (s.size p + s.size bp)))) s.memory
      obtain ⟨l₁, l₂, rfl⟩ := List.append_of_mem hpas
      have hrest : ∀ a ∈ l₁ ++ l₂ ++ out, a ≠ p := by
        rintro a ha rfl
        rcases List.mem_append.1 ha with ha | ha
        · have hnd := (List.nodup_append.1 hnodup).1
          exact (List.nodup_cons.1 (List.nodup_middle.1 hnd)).1 ha
        · exact hpout ha
      have hold : Tiles ((p, 8 * s.size p) :: (p + 8 * s.size p, 8 * s.size bp) :: (l₁ ++ l₂ ++ out).map (block s.size))
          s.memory := by
        refine h.tiles.perm ?_
        rw [hend]
        have hall : (l₁ ++ p :: l₂ ++ bp :: out).Perm (p :: bp :: (l₁ ++ l₂ ++ out)) :=
          (List.Perm.append_right _ List.perm_middle).trans (List.Perm.cons _ List.perm_middle)
        exact hall.map (block s.size)
      rw [← tiles_split (Nat.mul_pos (by decide) (h.pos (List.mem_append_left (bp :: out) hpas)))
        (Nat.mul_pos (by decide) (h.pos hmem)), ← Nat.mul_add] at hold
      have hall : (p :: (l₁ ++ l₂ ++ out)).Perm (l₁ ++ p :: l₂ ++ out) := (List.Perm.append_right out List.perm_middle).symm
      refine hold.perm (List.Perm.trans (List.Perm.of_eq ?_) (hall.map _))
      rw [List.map_cons, map_block_congr fun a ha => hsize a (hrest a ha)]
      unfold block
      rw [update_self]
    · simp only [update_self]
      exact Nat.le_add_left _ _
    · exact fun a ha => hsize a fun e => hpout (e ▸ ha)
  case isFalse hend =>
    obtain ⟨as', hl'⟩ := exists_relist hpos.list (bp :: post)
    have hperm : as'.Perm (bp :: as) := perm_of_relist hl' hpos.list
    have hsorted := h.sorted
    rw [hpos.list] at hsorted
    have hcases : ∀ {a}, a ∈ as' → a = bp ∨ a ∈ as := fun ha => List.mem_cons.1 (hperm.mem_iff.1 ha)
    refine ⟨as', ⟨?_, ?_, ⟨p, ?_, rfl⟩, hempty, ?_, ?_, ?_, h.cores, ?_⟩, ⟨bp, hperm.mem_iff.2 List.mem_cons_self, le_rfl⟩,
      fun _ _ => rfl⟩
    · -- the block is linked in after `p`
      have hnd : (p :: (post ++ pre)).Nodup := (rotated hpos.list).nodup_iff.1 (h.sorted.imp fun hlt => Nat.ne_of_lt hlt)
      have hcircle := Circle.insert (b := bp) (h.circle.rotate (rotated hpos.list)) (List.nodup_cons.1 hnd).1
        fun hm => hbpl ((rotated hpos.list).mem_iff.2 hm)
      have hrot : p :: bp :: (post ++ pre) ~r base :: as' := by
        rw [hl', ← List.cons_append, ← List.cons_append]
        exact List.isRotated_append
      refine (hcircle.rotate hrot).congr ?_
      intro a _
      change update s.ptr p bp a = _
      simp only [update_self]
      by_cases hap : a = p
      · rw [hap, update_self, update_self]
      · rw [update_of_ne hap, update_of_ne hap]
        by_cases hab : a = bp
        · rw [hab, update_self]
        · rw [update_of_ne hab, update_of_ne hap]
    · rw [hl']
      rw [List.pairwise_append, List.pairwise_cons] at hsorted ⊢
      obtain ⟨hpre, ⟨hp, hpost⟩, hbetween⟩ := hsorted
      refine ⟨hpre, ⟨?_, List.pairwise_cons.2 ⟨hpos.upper, hpost⟩⟩, ?_⟩
      · intro y hy
        rcases List.mem_cons.1 hy with rfl | hy
        · exact hpos.here
        · exact hp y hy
      · intro x hx y hy
        rcases List.mem_cons.1 hy with rfl | hy
        · exact hbetween x hx y List.mem_cons_self
        · rcases List.mem_cons.1 hy with rfl | hy
          · exact hpos.lower x hx
          · exact hbetween x hx y (List.mem_cons_of_mem _ hy)
    · rw [hl']
      simp
    · intro a ha
      refine h.aligned a ?_
      rcases List.mem_append.1 ha with ha | ha
      · rcases hcases ha with rfl | ha
        · exact hmem
        · exact List.mem_append_left _ ha
      · exact List.mem_append_right _ (List.mem_cons_of_mem _ ha)
    · intro a ha b hb
      change a + 8 * s.size a ≠ b
      rcases hcases ha with rfl | ha
      · rcases hcases hb with rfl | hb
        · have : 0 < s.size b := h.pos hmem
          omega
        · exact hgap b hb
      · rcases hcases hb with rfl | hb
        · -- a header below ends at `p` or before it
          intro he
          have hal : a ∈ pre ++ p :: post := hpos.list ▸ List.mem_cons_of_mem _ ha
          have habove := h.above (List.mem_append_left (b :: out) ha)
          rcases List.mem_append.1 hal with hlow | hal
          · have hap : a < p := (List.pairwise_append.1 hsorted).2.2 a hlow p List.mem_cons_self
            have hpas : p ∈ as := (List.mem_cons.1 hpl).resolve_left (by omega)
            have hapart := h.apart (List.mem_append_left _ ha) (List.mem_append_left _ hpas) (Nat.ne_of_lt hap)
            change a + 8 * s.size a ≤ p ∨ p + 8 * s.size p ≤ a at hapart
            have := hpos.here
            omega
          · rcases List.mem_cons.1 hal with rfl | hup
            · exact hend he
            · have := hpos.upper a hup
              omega
        · exact h.merged a ha b hb
    · change Tiles ((as' ++ out).map (block s.size)) s.memory
      refine h.tiles.perm ?_
      have hall : (as ++ bp :: out).Perm (as' ++ out) := List.perm_middle.trans (hperm.symm.append_right out)
      exact hall.map (block s.size)
    · rw [hperm.length_eq, List.length_cons]
      exact Nat.succ_le_succ h.turns

/-- what `free` leaves alone -/
theorem joinUp_same (s : St) (bp p : ℕ) : (joinUp s bp p).cores = s.cores ∧ (joinUp s bp p).calls = s.calls ∧
    (joinUp s bp p).live = s.live ∧ (joinUp s bp p).failed = s.failed := by
  unfold joinUp
  split <;> exact ⟨rfl, rfl, rfl, rfl⟩

theorem joinDown_same (s : St) (bp p : ℕ) : (joinDown s bp p).cores = s.cores ∧
    (joinDown s bp p).live = s.live ∧ (joinDown s bp p).failed = s.failed := by
  unfold joinDown
  split <;> exact ⟨rfl, rfl, rfl⟩

/-- **`free` ends and puts its block back.** Some free block is at least as large then; the blocks that are out stay as they
are. -/
theorem Heap.free_ends (h : Heap base s as (bp :: out)) :
    ∃ s' as', free s (bp + 8) = .ok s' ∧ Heap base s' as' out ∧ (∃ x ∈ as', s.size bp ≤ s'.size x) ∧
      (∀ a ∈ out, s'.size a = s.size a) ∧ s'.calls = s.calls + 1 ∧ s'.cores = s.cores ∧ s'.live = s.live ∧
      s'.failed = s.failed := by
  have hmem : bp ∈ as ++ bp :: out := by simp
  have hbase := h.above hmem
  have hnodup := h.nodup
  rw [List.nodup_append] at hnodup
  have hbpl : bp ∉ base :: as := by
    rw [List.mem_cons, not_or]
    exact ⟨by omega, fun hm => hnodup.2.2 bp hm bp List.mem_cons_self rfl⟩
  have hbpout : bp ∉ out := (List.nodup_cons.1 hnodup.2.1).1
  obtain ⟨pre, p, post, hl, hpre, hp, hpost⟩ := exists_position h.sorted (by omega) hbpl
  have hpos : Position base as bp p pre post := ⟨hl, hpre, hp, hpost⟩
  obtain ⟨f, hf, hfreep⟩ := h.freep
  obtain ⟨as₁, post₁, hpos₁, hheap₁, hgap, hgrow, hsize₁⟩ := h.joinUp hpos
  obtain ⟨as₂, hheap₂, ⟨x, hx, hxsize⟩, hsize₂⟩ := hheap₁.joinDown hpos₁ hgap
  obtain ⟨hc, hcalls, hlive, hfailed⟩ := joinUp_same s bp p
  obtain ⟨hc', hlive', hfailed'⟩ := joinDown_same (Malloc.joinUp s bp p) bp p
  refine ⟨{ Malloc.joinDown (Malloc.joinUp s bp p) bp p with freep := some p, calls := s.calls + 1 }, as₂, ?_, ?_, ?_, ?_,
    rfl, hc'.trans hc, hlive'.trans hlive, hfailed'.trans hfailed⟩
  · unfold free
    simp only [hfreep, Nat.add_sub_cancel, h.freeLoop_eq hpos hf]
  · rw [hcalls] at hheap₂
    exact hheap₂
  · exact ⟨x, hx, hgrow.trans hxsize⟩
  · intro a ha
    exact (hsize₂ a ha).trans (hsize₁ a fun e => hbpout (e ▸ ha))

end Free

/-! ## malloc -/

section Malloc

variable {base : ℕ} {s : St} {as out : List ℕ}

theorem nunits_pos (n : ℕ) : 0 < nunits n := Nat.succ_pos _

/-- the units hold the header and the bytes -/
theorem le_nunits (n : ℕ) : n + 8 ≤ 8 * nunits n := by
  unfold nunits
  omega

/-- **A block is taken**: the whole of it, or its upper end. -/
theorem Heap.take_ends (h : Heap base s as out) {units prevp x : ℕ} (hprev : prevp ∈ base :: as) (hnext : s.ptr prevp = x)
    (hx : x ∈ as) (hunits : 0 < units) (hsize : units ≤ s.size x) :
    ∃ a as' s', take s units prevp x = (some (a + 8), s') ∧ Heap base s' as' (a :: out) ∧ s'.size a = units ∧
      (∀ b ∈ out, s'.size b = s.size b) ∧ s'.live = s.live ∧ s'.failed = s.failed := by
  have hxo : x ∈ as ++ out := List.mem_append_left _ hx
  have hnodup := h.nodup
  have hxout : ∀ b ∈ out, b ≠ x := by
    rw [List.nodup_append] at hnodup
    exact fun b hb e => hnodup.2.2 x hx b hb e.symm
  have hxbase := h.above hxo
  unfold take
  split
  case isTrue hall =>
    obtain ⟨pre, post', hl⟩ := List.append_of_mem hprev
    obtain ⟨post, rfl⟩ : ∃ post, post' = x :: post := by
      have hhead := h.next_eq hl
      rw [hnext] at hhead
      cases post' with
      | nil =>
        change x = base at hhead
        omega
      | cons y post =>
        obtain rfl : x = y := hhead
        exact ⟨post, rfl⟩
    obtain ⟨as', hl'⟩ := exists_relist hl post
    have hperm := perm_of_relist hl hl'
    have hsub : (base :: as').Sublist (base :: as) := by
      rw [hl', hl]
      exact (List.Sublist.refl pre).append ((List.sublist_cons_self x post).cons_cons prevp)
    have has' : ∀ a ∈ as', a ∈ as := fun a ha => hperm.mem_iff.2 (List.mem_cons_of_mem _ ha)
    refine ⟨x, as', _, rfl, ⟨?_, h.sorted.sublist hsub, ⟨prevp, ?_, rfl⟩, h.empty, ?_, ?_, ?_, h.cores, ?_⟩, hall,
      fun _ _ => rfl, rfl, rfl⟩
    · refine Circle.rotate (Circle.remove (h.circle.rotate (rotated hl)) ?_) (rotated hl').symm
      have hnd : (prevp :: (x :: post ++ pre)).Nodup :=
        (rotated hl).nodup_iff.1 (h.sorted.imp fun hlt => Nat.ne_of_lt hlt)
      exact fun hm => (List.nodup_cons.1 hnd).1 (List.mem_cons_of_mem _ hm)
    · rw [hl']
      simp
    · intro a ha
      refine h.aligned a ?_
      rcases List.mem_append.1 ha with ha | ha
      · exact List.mem_append_left _ (has' a ha)
      · rcases List.mem_cons.1 ha with rfl | ha
        · exact hxo
        · exact List.mem_append_right _ ha
    · exact fun a ha b hb => h.merged a (has' a ha) b (has' b hb)
    · refine h.tiles.perm ?_
      have hall : (as ++ out).Perm (as' ++ x :: out) := (hperm.append_right out).trans List.perm_middle.symm
      exact hall.map (block s.size)
    · have := h.turns
      rw [hperm.length_eq, List.length_cons] at this
      exact Nat.le_of_succ_le this
  case isFalse hpart =>
    -- the header of the upper end is new, and inside of the block
    have hlt : units < s.size x := lt_of_le_of_ne hsize fun e => hpart e.symm
    simp only [update_self]
    generalize ha : x + 8 * (s.size x - units) = a
    have hinside : ∀ b ∈ as ++ out, b ≠ x → b ≠ a := by
      rintro b hb hbx rfl
      have := h.apart hxo hb fun e => hbx e.symm
      have := h.pos hb
      omega
    have hax : a ≠ x := by omega
    have hsx : ∀ b ∈ as ++ out, b ≠ x →
        update (update s.size x (s.size x - units)) a units b = s.size b := by
      intro b hb hbx
      rw [update_of_ne (hinside b hb hbx), update_of_ne hbx]
    have hxx : update (update s.size x (s.size x - units)) a units x = s.size x - units := by
      rw [update_of_ne fun e => hax e.symm, update_self]
    refine ⟨a, as, _, rfl, ⟨h.circle, h.sorted, ⟨prevp, hprev, rfl⟩, ?_, ?_, ?_, ?_, h.cores, h.turns⟩,
      update_self .., fun b hb => hsx b (List.mem_append_right _ hb) (hxout b hb), rfl, rfl⟩
    · change update (update s.size x (s.size x - units)) a units base = 0
      rw [update_of_ne (by omega), update_of_ne (by omega)]
      exact h.empty
    · intro b hb
      rcases List.mem_append.1 hb with hb | hb
      · exact h.aligned b (List.mem_append_left _ hb)
      · rcases List.mem_cons.1 hb with rfl | hb
        · rw [← ha]
          exact Dvd.dvd.add (h.aligned x hxo) (Dvd.intro _ rfl)
        · exact h.aligned b (List.mem_append_right _ hb)
    · intro b hb c hc
      change b + 8 * update (update s.size x (s.size x - units)) a units b ≠ c
      by_cases hbx : b = x
      · rw [hbx, hxx, ha]
        by_cases hcx : c = x
        · rw [hcx]
          exact hax
        · exact (hinside c (List.mem_append_left _ hc) hcx).symm
      · rw [hsx b (List.mem_append_left _ hb) hbx]
        exact h.merged b hb c hc
    · change Tiles ((as ++ a :: out).map (block (update (update s.size x (s.size x - units)) a units)))
        s.memory
      obtain ⟨l₁, l₂, rfl⟩ := List.append_of_mem hx
      have hrest : ∀ b ∈ l₁ ++ l₂ ++ out, b ∈ l₁ ++ x :: l₂ ++ out ∧ b ≠ x := by
        intro b hb
        have hmid : (l₁ ++ x :: l₂ ++ out).Perm (x :: (l₁ ++ l₂ ++ out)) := List.Perm.append_right out List.perm_middle
        refine ⟨hmid.mem_iff.2 (List.mem_cons_of_mem _ hb), ?_⟩
        rintro rfl
        exact (List.nodup_cons.1 (hmid.nodup_iff.1 hnodup)).1 hb
      have hold : Tiles ((x, 8 * s.size x) :: (l₁ ++ l₂ ++ out).map (block s.size)) s.memory := by
        have hall : (l₁ ++ x :: l₂ ++ out).Perm (x :: (l₁ ++ l₂ ++ out)) := List.Perm.append_right out List.perm_middle
        exact h.tiles.perm (hall.map (block s.size))
      rw [show 8 * s.size x = 8 * (s.size x - units) + 8 * units by omega, tiles_split (by omega) (by omega), ha] at hold
      have hall : (x :: a :: (l₁ ++ l₂ ++ out)).Perm (l₁ ++ x :: l₂ ++ a :: out) := by
        refine List.Perm.trans ?_ List.perm_middle.symm
        exact (List.Perm.swap _ _ _).trans (List.Perm.cons _ (List.Perm.append_right out List.perm_middle).symm)
      refine hold.perm (List.Perm.trans (List.Perm.of_eq ?_) (hall.map _))
      rw [List.map_cons, List.map_cons, map_block_congr fun b hb => hsx b (hrest b hb).1 (hrest b hb).2]
      unfold block
      rw [hxx, update_self]

theorem mallocLoop_of_le {units turns prevp p : ℕ} {answers : List (Option ℕ)} (h : units ≤ s.size p) :
    mallocLoop units (turns + 1) answers s prevp p = .ok (take s units prevp p) := by
  cases answers <;> exact if_pos h

theorem mallocLoop_next {units turns prevp p : ℕ} {answers : List (Option ℕ)} (h : ¬ units ≤ s.size p)
    (hp : s.freep ≠ some p) :
    mallocLoop units (turns + 1) answers s prevp p = mallocLoop units turns answers s p (s.ptr p) := by
  cases answers <;> exact (if_neg h).trans (if_neg hp)

/-- the search goes around the circle until a block is large enough -/
theorem mallocLoop_found {units f prevp : ℕ} {w : List ℕ} (turns : ℕ) (answers : List (Option ℕ))
    (hw : List.IsChain (fun a b => s.ptr a = b) (prevp :: (w ++ [f]))) (hfreep : s.freep = some f) (hf : f ∉ w)
    (hturns : w.length < turns) (hfound : ∃ x ∈ w ++ [f], units ≤ s.size x) :
    ∃ y x, y ∈ prevp :: w ∧ s.ptr y = x ∧ x ∈ w ++ [f] ∧ units ≤ s.size x ∧
      mallocLoop units turns answers s prevp (s.ptr prevp) = .ok (take s units y x) := by
  induction w generalizing prevp turns with
  | nil =>
    obtain ⟨turns, rfl⟩ : ∃ k, turns = k + 1 := Nat.exists_eq_succ_of_ne_zero (Nat.ne_zero_of_lt hturns)
    obtain ⟨x, hx, hsize⟩ := hfound
    obtain rfl := List.mem_singleton.1 hx
    obtain ⟨hnext, -⟩ := isChain_first.1 hw
    change s.ptr prevp = x at hnext
    refine ⟨prevp, x, List.mem_cons_self, hnext, hx, hsize, ?_⟩
    rw [hnext, mallocLoop_of_le hsize]
  | cons y w ih =>
    obtain ⟨turns, rfl⟩ : ∃ k, turns = k + 1 := Nat.exists_eq_succ_of_ne_zero (Nat.ne_zero_of_lt hturns)
    obtain ⟨hnext, hrest⟩ := isChain_first.1 hw
    change s.ptr prevp = y at hnext
    rw [List.mem_cons, not_or] at hf
    have hyf : s.freep ≠ some y := by
      rw [hfreep]
      exact fun e => hf.1 (Option.some.inj e)
    rw [hnext]
    by_cases hy : units ≤ s.size y
    · exact ⟨prevp, y, List.mem_cons_self, hnext, by simp, hy, mallocLoop_of_le hy⟩
    · rw [mallocLoop_next hy hyf]
      obtain ⟨z, hz, hzs⟩ := hfound
      rw [List.cons_append, List.mem_cons] at hz
      have hz' : z ∈ w ++ [f] := hz.resolve_left fun e => hy (e ▸ hzs)
      obtain ⟨v, x, hv, hvx, hx, hxs, hok⟩ :=
        ih turns hrest hf.2 (Nat.lt_of_succ_lt_succ hturns) ⟨z, hz', hzs⟩
      exact ⟨v, x, List.mem_cons_of_mem _ hv, hvx, List.mem_cons_of_mem _ hx, hxs, hok⟩

/-- otherwise it asks for memory when it has been around -/
theorem mallocLoop_asks {units f prevp : ℕ} {w : List ℕ} {turns : ℕ} {answer : Option ℕ}
    (hw : List.IsChain (fun a b => s.ptr a = b) (prevp :: (w ++ [f]))) (hfreep : s.freep = some f) (hf : f ∉ w)
    (hnone : ∀ x ∈ w ++ [f], ¬ units ≤ s.size x) :
    mallocLoop units (turns + 1 + w.length) [answer] s prevp (s.ptr prevp) =
      (morecore s units answer >>= fun r =>
        match r.1 with
        | none => return (none, r.2)
        | some p => mallocLoop units turns [] r.2 p (r.2.ptr p)) := by
  induction w generalizing prevp with
  | nil =>
    obtain ⟨hnext, -⟩ := isChain_first.1 hw
    change s.ptr prevp = f at hnext
    rw [List.length_nil, Nat.add_zero, mallocLoop, hnext, if_neg (hnone f (by simp)), if_pos hfreep]
  | cons y w ih =>
    obtain ⟨hnext, hrest⟩ := isChain_first.1 hw
    change s.ptr prevp = y at hnext
    rw [List.mem_cons, not_or] at hf
    have hyf : s.freep ≠ some y := by
      rw [hfreep]
      exact fun e => hf.1 (Option.some.inj e)
    rw [List.length_cons, ← Nat.add_assoc, hnext, mallocLoop_next (hnone y (by simp)) hyf]
    exact ih hrest hf.2 fun x hx => hnone x (List.mem_cons_of_mem _ hx)

/-- the circle, from the header `f` back to it -/
theorem Heap.walk (h : Heap base s as out) {f : ℕ} (hf : f ∈ base :: as) :
    ∃ w, List.IsChain (fun a b => s.ptr a = b) (f :: (w ++ [f])) ∧ f ∉ w ∧ w.length = as.length ∧
      ∀ x, x ∈ f :: w ↔ x ∈ base :: as := by
  obtain ⟨l₁, l₂, hl⟩ := List.append_of_mem hf
  have hrot := rotated hl
  refine ⟨l₂ ++ l₁, circle_cons.1 (h.circle.rotate hrot), ?_, ?_, fun x => hrot.mem_iff.symm⟩
  · exact (List.nodup_cons.1 (hrot.nodup_iff.1 (h.sorted.imp fun hlt => Nat.ne_of_lt hlt))).1
  · have := hrot.perm.length_eq
    rw [List.length_cons, List.length_cons] at this
    omega

/-- if a block is large enough, one is taken -/
theorem Heap.loop_found (h : Heap base s as out) {units f : ℕ} (turns : ℕ) (answers : List (Option ℕ)) (hfreep : s.freep = some f)
    (hunits : 0 < units) (hturns : as.length < turns) (hfound : ∃ x ∈ as, units ≤ s.size x) :
    ∃ a as' s', mallocLoop units turns answers s f (s.ptr f) = .ok (some (a + 8), s') ∧ Heap base s' as' (a :: out) ∧
      s'.size a = units ∧ (∀ b ∈ out, s'.size b = s.size b) ∧ s'.live = s.live ∧ s'.failed = s.failed := by
  obtain ⟨g, hg, hg'⟩ := h.freep
  obtain rfl : f = g := Option.some.inj (hfreep.symm.trans hg')
  obtain ⟨w, hchain, hfw, hlen, hmem⟩ := h.walk hg
  have hmem' : ∀ x, x ∈ w ++ [f] ↔ x ∈ base :: as := by
    intro x
    rw [← hmem x, List.mem_append, List.mem_singleton, List.mem_cons, or_comm]
  obtain ⟨z, hz, hzs⟩ := hfound
  obtain ⟨y, x, hy, hyx, hx, hxs, hok⟩ := mallocLoop_found turns answers hchain hfreep hfw (by rw [hlen]; exact hturns)
    ⟨z, (hmem' z).2 (List.mem_cons_of_mem _ hz), hzs⟩
  have hxas : x ∈ as := by
    refine (List.mem_cons.1 ((hmem' x).1 hx)).resolve_left ?_
    rintro rfl
    have := h.empty
    omega
  obtain ⟨a, as', s', htake, hheap, hrest⟩ := h.take_ends ((hmem y).1 hy) hyx hxas hunits hxs
  exact ⟨a, as', s', hok.trans (congrArg Except.ok htake), hheap, hrest⟩

/-- the blocks are in the memory, and so below what it is below -/
theorem Heap.below (h : Heap base s as out) {top : ℕ} (hcores : ∀ c ∈ s.cores, c.1 + c.2 ≤ top) {a : ℕ} (ha : a ∈ as ++ out) :
    a + 8 * s.size a ≤ top := by
  have hpos := h.pos ha
  have hlast : Covers (block s.size a) (a + 8 * s.size a - 1) := by
    unfold Covers block
    simp only
    omega
  obtain ⟨c, hc, hca⟩ := (h.tiles.cover _).2 ⟨_, List.mem_map_of_mem ha, hlast⟩
  have := hcores c hc
  have := hca.2
  omega

/-- memory is added, as a block that is out -/
theorem Heap.extend (h : Heap base s as out) {hp nu : ℕ} (hfresh : Fresh base s (some hp)) (hnu : 0 < nu) :
    Heap base { s with size := update s.size hp nu, cores := s.cores ++ [(hp, 8 * nu)] } as (hp :: out) := by
  obtain ⟨haligned, habove, hcores⟩ := hfresh hp rfl
  have hbelow : ∀ a ∈ as ++ out, a + 8 * s.size a ≤ hp := fun a ha => h.below hcores ha
  have hsize : ∀ a ∈ as ++ out, update s.size hp nu a = s.size a := by
    intro a ha
    have := hbelow a ha
    have := h.pos ha
    exact update_of_ne (by omega) ..
  refine ⟨h.circle, h.sorted, h.freep, ?_, ?_, ?_, ?_, ?_, h.turns⟩
  · exact (update_of_ne (by omega) ..).trans h.empty
  · intro a ha
    rcases List.mem_append.1 ha with ha | ha
    · exact h.aligned a (List.mem_append_left _ ha)
    · rcases List.mem_cons.1 ha with rfl | ha
      · exact haligned
      · exact h.aligned a (List.mem_append_right _ ha)
  · intro a ha b hb
    change a + 8 * update s.size hp nu a ≠ b
    rw [hsize a (List.mem_append_left _ ha)]
    exact h.merged a ha b hb
  · have hnew : Tiles ((hp, 8 * nu) :: (as ++ out).map (block s.size)) fun u => s.memory u ∨ Covers (hp, 8 * nu) u := by
      refine h.tiles.extend (Nat.mul_pos (by decide) hnu) ?_
      intro t ht
      obtain ⟨a, ha, rfl⟩ := List.mem_map.1 ht
      exact .inr (hbelow a ha)
    have hmemory : (fun u => s.memory u ∨ Covers (hp, 8 * nu) u) =
        St.memory { s with size := update s.size hp nu, cores := s.cores ++ [(hp, 8 * nu)] } := by
      funext u
      simp [St.memory, or_and_right, exists_or]
    rw [← hmemory]
    refine hnew.perm (List.Perm.trans (List.Perm.of_eq ?_) (List.perm_middle.symm.map _))
    rw [List.map_cons, map_block_congr hsize]
    unfold block
    simp only [update_self]
  · intro c hc
    rcases List.mem_append.1 hc with hc | hc
    · exact h.cores c hc
    · rw [List.mem_singleton.1 hc]
      exact habove

/-- **`malloc` ends and takes a block out**, unless memory is refused. -/
theorem Heap.malloc_ends (h : Heap base s as out) {n : ℕ} {answer : Option ℕ} (hfresh : Fresh base s answer) :
    ∃ r s' as', malloc base s n [answer] = .ok (r, s') ∧ (∀ b ∈ out, s'.size b = s.size b) ∧ s'.live = s.live ∧
      s'.failed = s.failed ∧
      ((r = none ∧ Heap base s' as' out) ∨
        ∃ a, r = some (a + 8) ∧ Heap base s' as' (a :: out) ∧ s'.size a = nunits n) := by
  obtain ⟨f, hf, hfreep⟩ := h.freep
  have hturns := h.turns
  unfold malloc
  simp only [hfreep]
  by_cases hfound : ∃ x ∈ as, nunits n ≤ s.size x
  · obtain ⟨a, as', s', hok, hheap, hsize, hsizes, hlive, hfailed⟩ :=
      h.loop_found (2 * s.calls + 3) [answer] hfreep (nunits_pos n) (by omega) hfound
    exact ⟨_, s', as', hok, hsizes, hlive, hfailed, .inr ⟨a, rfl, hheap, hsize⟩⟩
  · obtain ⟨w, hchain, hfw, hlen, hmem⟩ := h.walk hf
    have hnone : ∀ x ∈ w ++ [f], ¬ nunits n ≤ s.size x := by
      intro x hx hsize
      have hxl : x ∈ base :: as := by
        rw [← hmem x, List.mem_cons, or_comm]
        simpa using hx
      rcases List.mem_cons.1 hxl with rfl | hxas
      · have := nunits_pos n
        have := h.empty
        omega
      · exact hfound ⟨x, hxas, hsize⟩
    obtain ⟨turns, hturns'⟩ : ∃ turns, 2 * s.calls + 3 = turns + 1 + w.length := ⟨2 * s.calls + 2 - w.length, by omega⟩
    rw [hturns', mallocLoop_asks hchain hfreep hfw hnone]
    cases answer with
    | none => exact ⟨none, s, as, rfl, fun _ _ => rfl, rfl, rfl, .inl ⟨rfl, h⟩⟩
    | some hp =>
      -- the new block is freed, and found in the second turn around
      unfold morecore
      generalize hnu : (if nunits n < 4096 then 4096 else nunits n) = nu
      have hle : nunits n ≤ nu := by
        rw [← hnu]
        split <;> omega
      have hext := h.extend hfresh (lt_of_lt_of_le (nunits_pos n) hle)
      obtain ⟨s₁, as₁, hfree, hheap₁, ⟨x, hx, hxs⟩, hsizes₁, hcalls, -, hlive₁, hfailed₁⟩ := hext.free_ends
      have hbig : nunits n ≤ s₁.size x := by
        simp only [update_self] at hxs
        exact hle.trans hxs
      obtain ⟨g, -, hg⟩ := hheap₁.freep
      have hturns₁ := hheap₁.turns
      change s₁.calls = s.calls + 1 at hcalls
      obtain ⟨a, as', s', hok, hheap, hsize, hsizes, hlive, hfailed⟩ :=
        hheap₁.loop_found turns [] hg (nunits_pos n) (by omega) ⟨x, hx, hbig⟩
      refine ⟨some (a + 8), s', as', ?_, ?_, hlive.trans hlive₁, hfailed.trans hfailed₁, .inr ⟨a, rfl, hheap, hsize⟩⟩
      · simp only [hfree]
        change (match s₁.freep with
          | none => _
          | some p => mallocLoop (nunits n) turns [] s₁ p (s₁.ptr p)) = _
        rw [hg]
        exact hok
      · intro b hb
        rw [hsizes b hb, hsizes₁ b hb]
        have hnd := (List.nodup_append.1 hext.nodup).2.1
        have hbp : b ≠ hp := fun e => (List.nodup_cons.1 hnd).1 (e ▸ hb)
        exact update_of_ne hbp ..

/-- the first call makes the list -/
theorem malloc_first (base : ℕ) (hcores : s.cores = []) :
    Heap base { s with ptr := update s.ptr base base, size := update s.size base 0, freep := some base }
      [] [] := by
  refine ⟨?_, List.pairwise_singleton _ _, ⟨base, List.mem_singleton.2 rfl, rfl⟩, update_self .., nofun, nofun, ?_, ?_,
    Nat.zero_le _⟩
  · exact circle_cons.2 (isChain_first.2 ⟨update_self .., .singleton _⟩)
  · refine ⟨nofun, .nil, ?_⟩
    intro u
    simp [St.memory, hcores]
  · simp [hcores]

end Malloc

/-! ## Every sequence of calls -/

section Sequences

variable {base : ℕ} {s : St} {as out out' : List ℕ}

/-- the order of the blocks that are out does not matter -/
theorem Heap.perm_out (h : Heap base s as out) (hout : out.Perm out') : Heap base s as out' := by
  have hall : (as ++ out).Perm (as ++ out') := List.Perm.append_left as hout
  exact { h with
    aligned := fun a ha => h.aligned a (hall.mem_iff.2 ha)
    tiles := h.tiles.perm (hall.map _) }

/-- the headers are what the program does not write -/
theorem Heap.write (h : Heap base s as out) {a b p n : ℕ} (hb : b ∈ out) (hlow : b + 8 ≤ a)
    (hhigh : a + 8 ≤ b + 8 * s.size b) :
    Heap base { s with ptr := update s.ptr a p, size := update s.size a n } as out ∧
      ∀ c ∈ as ++ out, update s.size a n c = s.size c := by
  have hbo : b ∈ as ++ out := List.mem_append_right _ hb
  have hne : ∀ c ∈ as ++ out, c ≠ a := by
    rintro c hc rfl
    have hcb : b ≠ c := by omega
    have := h.apart hbo hc hcb
    have := h.pos hc
    omega
  have hsize : ∀ c ∈ as ++ out, update s.size a n c = s.size c :=
    fun c hc => update_of_ne (hne c hc) ..
  have hbase : base ≠ a := by
    have := h.above hbo
    omega
  refine ⟨⟨?_, h.sorted, h.freep, ?_, h.aligned, ?_, ?_, h.cores, h.turns⟩, hsize⟩
  · refine h.circle.congr fun c hc => update_of_ne ?_ ..
    rcases List.mem_cons.1 hc with rfl | hc
    · exact hbase
    · exact hne c (List.mem_append_left _ hc)
  · exact (update_of_ne hbase ..).trans h.empty
  · intro c hc d hd
    change c + 8 * update s.size a n c ≠ d
    rw [hsize c (List.mem_append_left _ hc)]
    exact h.merged c hc d hd
  · change Tiles ((as ++ out).map (block (update s.size a n))) s.memory
    rw [map_block_congr hsize]
    exact h.tiles

/-- nothing was called yet, or there is a heap with the live blocks out of it -/
structure Good (base : ℕ) (s : St) : Prop where
  runs : s.failed = none
  room : ∀ b ∈ s.live, b.n + 8 ≤ 8 * s.size b.addr
  heap : (s.freep = none ∧ s.cores = [] ∧ s.live = []) ∨ ∃ as, Heap base s as (s.live.map Live.addr)

/-- what a call of `malloc` returns, and leaves -/
theorem Good.malloc_ends (h : Good base s) {n : ℕ} {answer : Option ℕ} (hfresh : Fresh base s answer) :
    ∃ r s' as', malloc base s n [answer] = .ok (r, s') ∧ (∀ b ∈ s.live, s'.size b.addr = s.size b.addr) ∧
      s'.live = s.live ∧ s'.failed = none ∧
      ((r = none ∧ Heap base s' as' (s.live.map Live.addr)) ∨
        ∃ a, r = some (a + 8) ∧ Heap base s' as' (a :: s.live.map Live.addr) ∧ s'.size a = nunits n) := by
  rcases h.heap with ⟨hfreep, hcores, hlive⟩ | ⟨as, hheap⟩
  · have hsame : malloc base s n [answer] = malloc base { s with
        ptr := update s.ptr base base
        size := update s.size base 0
        freep := some base } n [answer] := by
      unfold malloc
      simp only [hfreep]
    obtain ⟨r, s', as', hok, -, hlive', hfailed, hr⟩ := (malloc_first base hcores).malloc_ends (n := n) hfresh
    refine ⟨r, s', as', hsame.trans hok, ?_, hlive', hfailed.trans h.runs, ?_⟩
    · rw [hlive]
      exact nofun
    · rw [hlive]
      exact hr
  · obtain ⟨r, s', as', hok, hsizes, hlive, hfailed, hr⟩ := hheap.malloc_ends (n := n) hfresh
    exact ⟨r, s', as', hok, fun b hb => hsizes _ (List.mem_map_of_mem hb), hlive, hfailed.trans h.runs, hr⟩

theorem Good.step (h : Good base s) (o : Op) : Good base (step base s o) := by
  cases o with
  | malloc n answer =>
    simp only [Malloc.step]
    split
    case isFalse => exact h
    case isTrue hcall =>
      obtain ⟨r, s', as', hok, hsizes, hlive, hfailed, hr⟩ := h.malloc_ends (n := n) hcall.2
      rw [hok]
      rcases hr with ⟨rfl, hheap⟩ | ⟨a, rfl, hheap, hsize⟩
      · refine ⟨hfailed, ?_, .inr ⟨as', ?_⟩⟩
        · change ∀ b ∈ s'.live, b.n + 8 ≤ 8 * s'.size b.addr
          rw [hlive]
          intro b hb
          rw [hsizes b hb]
          exact h.room b hb
        · change Heap base s' as' (s'.live.map Live.addr)
          rw [hlive]
          exact hheap
      · refine ⟨hfailed, ?_, .inr ⟨as', ?_⟩⟩
        · change ∀ b ∈ (⟨a, n⟩ : Live) :: s'.live, b.n + 8 ≤ 8 * s'.size b.addr
          rw [hlive]
          intro b hb
          rcases List.mem_cons.1 hb with rfl | hb
          · change n + 8 ≤ 8 * s'.size a
            rw [hsize]
            exact le_nunits n
          · rw [hsizes b hb]
            exact h.room b hb
        · have hheap' : Heap base s' as' (((⟨a, n⟩ : Live) :: s'.live).map Live.addr) := by
            rw [hlive]
            exact hheap
          exact { hheap' with }
  | free ap =>
    simp only [Malloc.step]
    split
    case h_1 => exact h
    case h_2 b hfind =>
      have hb : b ∈ s.live := List.mem_of_find?_eq_some hfind
      have hap : b.addr + 8 = ap := by simpa using List.find?_some hfind
      rcases h.heap with ⟨-, -, hlive⟩ | ⟨as, hheap⟩
      · rw [hlive] at hb
        exact absurd hb List.not_mem_nil
      · have hperm := (List.perm_cons_erase hb).map Live.addr
        have hheap' : Heap base { s with live := s.live.erase b } as (b.addr :: (s.live.erase b).map Live.addr) :=
          { hheap.perm_out hperm with }
        obtain ⟨s', as', hok, hheap'', -, hsizes, -, -, hlive, hfailed⟩ := hheap'.free_ends
        rw [← hap, hok]
        change s'.live = s.live.erase b at hlive
        refine ⟨hfailed.trans h.runs, ?_, .inr ⟨as', ?_⟩⟩
        · change ∀ c ∈ s'.live, c.n + 8 ≤ 8 * s'.size c.addr
          rw [hlive]
          intro c hc
          rw [hsizes _ (List.mem_map_of_mem hc)]
          exact h.room c (List.mem_of_mem_erase hc)
        · change Heap base s' as' (s'.live.map Live.addr)
          rw [hlive]
          exact hheap''
  | write a p n =>
    simp only [Malloc.step]
    split
    case isFalse => exact h
    case isTrue hwrite =>
      obtain ⟨b, hb, hlow, hhigh⟩ := hwrite
      rcases h.heap with ⟨-, -, hlive⟩ | ⟨as, hheap⟩
      · rw [hlive] at hb
        exact absurd hb List.not_mem_nil
      · obtain ⟨hheap', hsizes⟩ := hheap.write (p := p) (n := n) (List.mem_map_of_mem hb) hlow hhigh
        refine ⟨h.runs, ?_, .inr ⟨as, hheap'⟩⟩
        intro c hc
        change c.n + 8 ≤ 8 * update s.size a n c.addr
        rw [hsizes _ (List.mem_append_right _ (List.mem_map_of_mem hc))]
        exact h.room c hc

/-- **The allocator partitions its memory.** After every sequence of calls: no call failed to end; the live blocks are
aligned and hold what was asked for; the free list is one circle in the order of the addresses with one wrap, no two blocks
of it meet, and the live and the free blocks tile the memory that `sbrk` returned; and what `malloc` returns next is
aligned, large enough, and apart from every live block. -/
theorem allocator_partitions (base : ℕ) (ptr size : ℕ → ℕ) (ops : List Op) :
    let s := run (step base) (init ptr size) ops
    s.failed = none ∧
    (∀ b ∈ s.live, 8 ∣ b.addr + 8 ∧ b.n + 8 ≤ 8 * s.size b.addr) ∧
    ((s.freep = none ∧ s.cores = [] ∧ s.live = []) ∨
      ∃ as, Circle s.ptr (base :: as) ∧ (base :: as).Pairwise (· < ·) ∧ (∃ f ∈ base :: as, s.freep = some f) ∧
        (∀ a ∈ as, ∀ b ∈ as, a + 8 * s.size a ≠ b) ∧
        Tiles ((as ++ s.live.map Live.addr).map (block s.size)) s.memory) ∧
    ∀ n answer, Fresh base s answer → ∃ r s', malloc base s n [answer] = .ok (r, s') ∧
      ∀ ap ∈ r, 8 ∣ ap ∧ n + 8 ≤ 8 * s'.size (ap - 8) ∧
        ∀ b ∈ s.live, Apart (block s'.size (ap - 8)) (block s.size b.addr) := by
  intro s
  have hgood : Good base s := run_inv (I := Good base) (fun _ o h => h.step o)
    ⟨rfl, fun _ hb => absurd hb List.not_mem_nil, .inl ⟨rfl, rfl, rfl⟩⟩ ops
  refine ⟨hgood.runs, ?_, ?_, ?_⟩
  · intro b hb
    refine ⟨?_, hgood.room b hb⟩
    rcases hgood.heap with ⟨-, -, hlive⟩ | ⟨as, hheap⟩
    · rw [hlive] at hb
      exact absurd hb List.not_mem_nil
    · have := hheap.aligned b.addr (List.mem_append_right _ (List.mem_map_of_mem hb))
      omega
  · rcases hgood.heap with hnone | ⟨as, hheap⟩
    · exact .inl hnone
    · exact .inr ⟨as, hheap.circle, hheap.sorted, hheap.freep, hheap.merged, hheap.tiles⟩
  · intro n answer hfresh
    obtain ⟨r, s', as', hok, hsizes, -, -, hr⟩ := hgood.malloc_ends (n := n) hfresh
    refine ⟨r, s', hok, ?_⟩
    intro ap hap
    rcases hr with ⟨rfl, -⟩ | ⟨a, rfl, hheap, hsize⟩
    · cases hap
    · obtain rfl := Option.some.inj hap
      have ha : a ∈ as' ++ a :: s.live.map Live.addr := by simp
      rw [Nat.add_sub_cancel, hsize]
      refine ⟨?_, le_nunits n, ?_⟩
      · have := hheap.aligned a ha
        omega
      · intro b hb
        have hbo : b.addr ∈ as' ++ a :: s.live.map Live.addr :=
          List.mem_append_right _ (List.mem_cons_of_mem _ (List.mem_map_of_mem hb))
        have hne : a ≠ b.addr := by
          intro e
          have hnd := (List.nodup_append.1 hheap.nodup).2.1
          exact (List.nodup_cons.1 hnd).1 (e ▸ List.mem_map_of_mem hb)
        have hapart := hheap.apart ha hbo hne
        rw [hsizes b hb] at hapart
        exact hapart

end Sequences

end Xv6Threads.Malloc
