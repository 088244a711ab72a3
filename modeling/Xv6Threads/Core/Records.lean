/-
Records in blocks of bytes, with nothing said about what they are.

A `Codec m α` writes a record as `m` bytes and reads it back. A block of `n` bytes is used as an array of such records
(`Codec.get`, `Codec.set`), as a C program does with a cast, or as an array of bits (`bit`, `setBit`, `clearBit`), or
as plain bytes that part of another array is copied over (`splice`).
- `Codec.get_set_self`, `Codec.get_set_of_ne`: a record is stored in its place and nowhere else.
- `bit_setBit`, `bit_clearBit`: the same for a bit.
- `littleEndian`: the codec of an unsigned integer.
-/
import Xv6Threads.Core.Runs

namespace Xv6Threads.Core

abbrev Byte := BitVec 8

/-- byte `j` of a block; 0 beyond its end -/
def rd {n : ℕ} (b : Fin n → Byte) (j : ℕ) : Byte := if h : j < n then b ⟨j, h⟩ else 0

theorem rd_of_lt {n : ℕ} (b : Fin n → Byte) {j : ℕ} (h : j < n) : rd b j = b ⟨j, h⟩ := dif_pos h

/-- records of `m` bytes -/
structure Codec (m : ℕ) (α : Type*) where
  encode : α → Fin m → Byte
  decode : (Fin m → Byte) → α
  decode_encode : ∀ a, decode (encode a) = a
  pos : 0 < m

/-- an unsigned integer of `m` bytes -/
def littleEndian (m : ℕ) (pos : 0 < m) : Codec m (BitVec (8 * m)) where
  encode w i := w.extractLsb' (8 * i) 8
  decode f := BitVec.ofFnLE fun j : Fin (8 * m) => (f ⟨j / 8, by omega⟩).getLsbD (j % 8)
  decode_encode w := by
    apply BitVec.eq_of_getLsbD_eq
    intro j hj
    have hlt : j % 8 < 8 := Nat.mod_lt _ (by decide)
    rw [BitVec.getLsbD_ofFnLE, dif_pos hj, BitVec.getLsbD_extractLsb']
    simp [hlt, Nat.div_add_mod]
  pos := pos

theorem littleEndian_zero (m : ℕ) (pos : 0 < m) : (littleEndian m pos).decode (fun _ => 0) = 0 := by
  apply BitVec.eq_of_getLsbD_eq
  intro j hj
  simp only [littleEndian]
  rw [BitVec.getLsbD_ofFnLE, dif_pos hj]
  simp

namespace Codec

/-- bytes as they are -/
def raw (m : ℕ) (pos : 0 < m) : Codec m (Fin m → Byte) := ⟨id, id, fun _ => rfl, pos⟩

variable {n m : ℕ} {α β : Type*} (c : Codec m α)

/-- one record after the other -/
def prod (d : Codec n β) : Codec (m + n) (α × β) where
  encode a i := if h : i.val < m then c.encode a.1 ⟨i, h⟩ else d.encode a.2 ⟨i - m, by omega⟩
  decode f := (c.decode fun i => f (i.castAdd n), d.decode fun i => f (i.natAdd m))
  decode_encode a := by
    have h1 : ∀ i : Fin m, (i.castAdd n).val < m := fun i => i.isLt
    have h2 : ∀ i : Fin n, ¬ (i.natAdd m).val < m := fun i => by simp
    simp only [h1, h2, dif_pos, dif_neg, not_false_eq_true]
    refine Prod.ext (c.decode_encode a.1) ?_
    simp only [Fin.val_natAdd, Nat.add_sub_cancel_left]
    exact d.decode_encode a.2
  pos := Nat.add_pos_left c.pos n

/-- the same record under another type -/
def map (f : α → β) (g : β → α) (h : ∀ b, f (g b) = b) : Codec m β where
  encode b := c.encode (g b)
  decode x := f (c.decode x)
  decode_encode b := by rw [c.decode_encode, h]
  pos := c.pos

theorem div_add (k : ℕ) (i : Fin m) : (m * k + i.val) / m = k := by
  have hpos : 0 < m := Nat.zero_lt_of_lt i.isLt
  rw [Nat.mul_add_div hpos, Nat.div_eq_of_lt i.isLt, Nat.add_zero]

theorem mod_add (k : ℕ) (i : Fin m) : (m * k + i.val) % m = i.val :=
  (Nat.mul_add_mod m k i.val).trans (Nat.mod_eq_of_lt i.isLt)

/-- `k` records in a row -/
def array (k : ℕ) (hk : 0 < k) : Codec (m * k) (Fin k → α) where
  encode a i := c.encode (a ⟨i / m, Nat.div_lt_of_lt_mul i.isLt⟩) ⟨i % m, Nat.mod_lt _ c.pos⟩
  decode f j := c.decode fun i => f ⟨m * j + i, by
    have := Nat.mul_le_mul_left m (Nat.succ_le_of_lt j.isLt)
    rw [Nat.mul_succ] at this
    omega⟩
  decode_encode a := by
    funext j
    simp only [div_add, mod_add]
    exact c.decode_encode (a j)
  pos := Nat.mul_pos c.pos hk

/-- record `k` of a block -/
def get (b : Fin n → Byte) (k : ℕ) : α := c.decode fun i => rd b (m * k + i)

/-- the block with record `k` stored -/
def set (b : Fin n → Byte) (k : ℕ) (a : α) : Fin n → Byte :=
  fun j => if j.val / m = k then c.encode a ⟨j.val % m, Nat.mod_lt _ c.pos⟩ else b j

theorem get_set_self (b : Fin n → Byte) {k : ℕ} (a : α) (h : m * (k + 1) ≤ n) : c.get (c.set b k a) k = a := by
  have hread : (fun i : Fin m => rd (c.set b k a) (m * k + i)) = c.encode a := by
    funext i
    have hi : m * k + i.val < n := by
      have := i.isLt
      rw [Nat.mul_add, Nat.mul_one] at h
      omega
    rw [rd_of_lt _ hi]
    simp only [set, div_add k i, if_true, mod_add]
  rw [get, hread, c.decode_encode]

theorem get_set_of_ne (b : Fin n → Byte) {k l : ℕ} (a : α) (h : l ≠ k) : c.get (c.set b k a) l = c.get b l := by
  have hread : (fun i : Fin m => rd (c.set b k a) (m * l + i)) = fun i : Fin m => rd b (m * l + i) := by
    funext i
    by_cases hi : m * l + i.val < n
    · rw [rd_of_lt _ hi, rd_of_lt _ hi]
      simp only [set, div_add l i]
      rw [if_neg h]
    · rw [rd, rd, dif_neg hi, dif_neg hi]
  rw [get, get, hread]

end Codec

/-! ## Bits -/

section Bits

variable {n : ℕ}

/-- `1 << (i % 8)` -/
def mask (i : ℕ) : Byte := 1#8 <<< (i % 8)

/-- bit `i` of a block -/
def bit (b : Fin n → Byte) (i : ℕ) : Bool := rd b (i / 8) &&& mask i != 0

def setBit (b : Fin n → Byte) (i : ℕ) : Fin n → Byte := fun j => if j.val = i / 8 then b j ||| mask i else b j

def clearBit (b : Fin n → Byte) (i : ℕ) : Fin n → Byte := fun j => if j.val = i / 8 then b j &&& ~~~mask i else b j

theorem bit_eq_getLsbD (b : Fin n → Byte) (i : ℕ) : bit b i = (rd b (i / 8)).getLsbD (i % 8) := by
  have hlt : i % 8 < 8 := Nat.mod_lt _ (by decide)
  rw [bit, mask, ← BitVec.twoPow_eq, BitVec.and_twoPow]
  cases (rd b (i / 8)).getLsbD (i % 8) with
  | false => rfl
  | true =>
    have hne : BitVec.twoPow 8 (i % 8) ≠ 0 := by
      intro he
      have hbit := congrArg (fun x : Byte => x.getLsbD (i % 8)) he
      simp [hlt] at hbit
    simpa using hne

theorem getLsbD_mask (i k : ℕ) : (mask i).getLsbD k = decide (i % 8 = k) := by
  have hlt : i % 8 < 8 := Nat.mod_lt _ (by decide)
  rw [mask, ← BitVec.twoPow_eq, BitVec.getLsbD_twoPow]
  simp [hlt]

theorem rd_setBit (b : Fin n → Byte) {i : ℕ} (hi : i / 8 < n) (j : ℕ) :
    rd (setBit b i) j = if j = i / 8 then rd b j ||| mask i else rd b j := by
  by_cases hj : j < n
  · rw [rd_of_lt _ hj, rd_of_lt _ hj]
    rfl
  · have hne : j ≠ i / 8 := by omega
    rw [if_neg hne, rd, rd, dif_neg hj, dif_neg hj]

theorem rd_clearBit (b : Fin n → Byte) {i : ℕ} (hi : i / 8 < n) (j : ℕ) :
    rd (clearBit b i) j = if j = i / 8 then rd b j &&& ~~~mask i else rd b j := by
  by_cases hj : j < n
  · rw [rd_of_lt _ hj, rd_of_lt _ hj]
    rfl
  · have hne : j ≠ i / 8 := by omega
    rw [if_neg hne, rd, rd, dif_neg hj, dif_neg hj]

theorem bit_setBit (b : Fin n → Byte) {i : ℕ} (hi : i / 8 < n) (j : ℕ) :
    bit (setBit b i) j = (decide (j = i) || bit b j) := by
  rw [bit_eq_getLsbD, bit_eq_getLsbD, rd_setBit b hi]
  by_cases hdiv : j / 8 = i / 8
  · have hiff : (i % 8 = j % 8) = (j = i) := by
      apply propext
      omega
    rw [if_pos hdiv, BitVec.getLsbD_or, getLsbD_mask, Bool.or_comm]
    simp only [hiff]
  · have hne : j ≠ i := fun e => hdiv (e ▸ rfl)
    rw [if_neg hdiv, decide_eq_false hne, Bool.false_or]

theorem bit_clearBit (b : Fin n → Byte) {i : ℕ} (hi : i / 8 < n) (j : ℕ) :
    bit (clearBit b i) j = (!decide (j = i) && bit b j) := by
  have hlt : j % 8 < 8 := Nat.mod_lt _ (by decide)
  rw [bit_eq_getLsbD, bit_eq_getLsbD, rd_clearBit b hi]
  by_cases hdiv : j / 8 = i / 8
  · have hiff : (i % 8 = j % 8) = (j = i) := by
      apply propext
      omega
    rw [if_pos hdiv, BitVec.getLsbD_and, BitVec.getLsbD_not, getLsbD_mask, Bool.and_comm]
    simp only [hiff, hlt, decide_true, Bool.true_and]
  · have hne : j ≠ i := fun e => hdiv (e ▸ rfl)
    rw [if_neg hdiv, decide_eq_false hne, Bool.not_false, Bool.true_and]

end Bits

/-! ## Bytes -/

/-- `memmove` of bytes over a block, from `off` on -/
def splice {n : ℕ} (b : Fin n → Byte) (off : ℕ) (src : List Byte) : Fin n → Byte :=
  fun j => if off ≤ j.val ∧ j.val < off + src.length then src.getD (j.val - off) 0 else b j

/-- `memmove` of `m` bytes out of a block -/
def slice {n : ℕ} (b : Fin n → Byte) (off m : ℕ) : List Byte := (List.range m).map fun k => rd b (off + k)

end Xv6Threads.Core
