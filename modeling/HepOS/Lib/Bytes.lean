/-
Byte memories of a fixed size, and the little-endian integers stored in them.

A memory is a function from its addresses to bytes. Two operations are enough
for every record, table and bit map a program keeps in one: read a range of
bytes as a list, and overwrite a range with a list. The two laws that carry all
the later proofs are `read_write_same` (a range reads back what was written to
it) and `read_write_disjoint` (a write is invisible outside its own range).

Integers are little-endian lists of bytes: `leBytes w v` spells `v` in `w` bytes
and `leNat` reads such a list. A record is a list of fields `(width, value)`;
`decodeFields_encodeFields` is the round trip for any such layout.
-/
import Mathlib

set_option autoImplicit false

namespace HepOS.Bytes

open List Nat

variable {i j : ℕ}

/-! ## Memories -/

/-- `n` bytes, addressed from `0`. -/
abbrev Mem (n : ℕ) := Fin n → UInt8

variable {n : ℕ} (m : Mem n) (off : ℕ) (l : List (ℕ × ℕ)) (x : UInt8)

/-- All bytes zero. -/
def Mem.zero : Mem n := fun _ => 0

/-- The byte at address `i`; addresses past the end read as zero. -/
def Mem.byte (i : ℕ) : UInt8 := if h : i < n then m ⟨i, h⟩ else 0

/-- The `len` bytes from address `off` on. -/
def Mem.read (off len : ℕ) : List UInt8 :=
  (List.range len).map (fun i => m.byte (off + i))

/-- The memory with the bytes from `off` on replaced by `bs`; what does not fit
is dropped. -/
def Mem.write (bs : List UInt8) : Mem n :=
  fun j => if off ≤ j.val ∧ j.val < off + bs.length then bs.getD (j.val - off) 0 else m j

/-- The memory with `len` bytes from `off` on set to `b`. -/
def Mem.fill (off len : ℕ) (b : UInt8) : Mem n :=
  fun j => if off ≤ j.val ∧ j.val < off + len then b else m j

theorem Mem.byte_of_lt (h : i < n) : m.byte i = m ⟨i, h⟩ := by
  rw [Mem.byte, dif_pos h]

@[simp] theorem Mem.byte_zero (i : ℕ) : (Mem.zero : Mem n).byte i = 0 := by
  unfold Mem.byte Mem.zero
  split <;> rfl

@[simp] theorem Mem.length_read (off len : ℕ) : (m.read off len).length = len := by
  simp [Mem.read]

/-- What one byte of a written memory is. -/
theorem Mem.byte_write (bs : List UInt8) (hi : i < n) : (m.write off bs).byte i
      = if off ≤ i ∧ i < off + bs.length then bs.getD (i - off) 0 else m.byte i := by
  rw [Mem.byte_of_lt _ hi, Mem.byte_of_lt _ hi, Mem.write]

theorem Mem.byte_write_outside (bs : List UInt8)
    (h : i < off ∨ off + bs.length ≤ i) : (m.write off bs).byte i = m.byte i := by
  by_cases hi : i < n
  · rw [Mem.byte_write _ _ _ hi, if_neg (by omega)]
  · rw [Mem.byte, Mem.byte, dif_neg hi, dif_neg hi]

theorem Mem.byte_fill (off len : ℕ) (b : UInt8) (hi : i < n) :
    (m.fill off len b).byte i = if off ≤ i ∧ i < off + len then b else m.byte i := by
  rw [Mem.byte_of_lt _ hi, Mem.byte_of_lt _ hi, Mem.fill]

theorem Mem.byte_fill_outside (off len : ℕ) (b : UInt8)
    (h : i < off ∨ off + len ≤ i) : (m.fill off len b).byte i = m.byte i := by
  by_cases hi : i < n
  · rw [Mem.byte_fill _ _ _ _ hi, if_neg (by omega)]
  · rw [Mem.byte, Mem.byte, dif_neg hi, dif_neg hi]

/-- Two memories that agree on a range read the same there. -/
theorem Mem.read_congr {m1 m2 : Mem n} {off len : ℕ}
    (h : ∀ i < len, m1.byte (off + i) = m2.byte (off + i)) :
    m1.read off len = m2.read off len :=
  map_congr_left fun i hi => h i (mem_range.mp hi)

/-- A range reads back the bytes written to it. -/
theorem Mem.read_write_same (bs : List UInt8)
    (h : off + bs.length ≤ n) : (m.write off bs).read off bs.length = bs := by
  refine ext_getElem (by simp) ?_
  intro i h1 h2
  simp only [Mem.read, getElem_map, getElem_range]
  rw [Mem.byte_write _ _ _ (by omega), if_pos (by omega), Nat.add_sub_cancel_left,
    getD_eq_getElem _ _ h2]

/-- A write does not show in a range it does not touch. -/
theorem Mem.read_write_disjoint (off off' len : ℕ) (bs : List UInt8)
    (h : off' + len ≤ off ∨ off + bs.length ≤ off') :
    (m.write off bs).read off' len = m.read off' len := by
  refine map_congr_left ?_
  intro i hi
  rw [mem_range] at hi
  exact Mem.byte_write_outside _ _ _ (by omega)

/-- Two memories that agree on every in-range byte are equal. -/
theorem Mem.ext_byte {m1 m2 : Mem n} (h : ∀ i < n, m1.byte i = m2.byte i) : m1 = m2 := by
  funext j
  have hj := h j.val j.isLt
  rwa [Mem.byte_of_lt _ j.isLt, Mem.byte_of_lt _ j.isLt] at hj

theorem Mem.read_zero (off len : ℕ) : (Mem.zero : Mem n).read off len = List.replicate len 0 := by
  simp [Mem.read]

/-- A second write of the same bytes hides the first. -/
theorem Mem.write_write_same (bs bs' : List UInt8)
    (h : bs.length = bs'.length) : (m.write off bs).write off bs' = m.write off bs' := by
  apply Mem.ext_byte
  intro i hi
  rw [Mem.byte_write _ _ _ hi, Mem.byte_write _ _ _ hi, Mem.byte_write _ _ _ hi, h]
  by_cases hin : off ≤ i ∧ i < off + bs'.length
  · rw [if_pos hin, if_pos hin]
  · rw [if_neg hin, if_neg hin, if_neg hin]

/-- A prefix of a list that is written at the start is read back, whatever the
length read, as long as the list covers it. -/
theorem Mem.read_prefix_write (bs : List UInt8) (len : ℕ)
    (hlen : len ≤ bs.length) (hn : bs.length ≤ n) : (m.write 0 bs).read 0 len = bs.take len := by
  refine ext_getElem (by simp [hlen]) ?_
  intro i h1 h2
  have hi : i < len := by simpa using h1
  simp only [Mem.read, getElem_map, getElem_range, getElem_take]
  rw [Mem.byte_write _ _ _ (by omega), if_pos (by omega), getD_eq_getElem _ _ (by omega)]
  simp

theorem Mem.read_succ (off len : ℕ) :
    m.read off (len + 1) = m.read off len ++ [m.byte (off + len)] := by
  simp [Mem.read, range_succ]

/-- One more byte of a copy. -/
theorem Mem.read_write_next (off len : ℕ) (b : UInt8) (h : off + len < n) :
    (m.write (off + len) [b]).read off (len + 1) = m.read off len ++ [b] := by
  rw [Mem.read_succ, Mem.read_write_disjoint _ _ _ _ _ (.inl (le_rfl)),
    Mem.byte_write _ _ _ h, if_pos ⟨le_rfl, by simp⟩, Nat.sub_self]
  rfl

/-! ## Little-endian integers -/

/-- `v` in `w` bytes, least significant byte first. -/
def leBytes : ℕ → ℕ → List UInt8
  | 0, _ => []
  | w + 1, v => UInt8.ofNat v :: leBytes w (v / 256)

/-- The number a list of bytes spells, least significant byte first. -/
def leNat : List UInt8 → ℕ
  | [] => 0
  | b :: bs => b.toNat + 256 * leNat bs

@[simp] theorem length_leBytes (w v : ℕ) : (leBytes w v).length = w := by
  induction w generalizing v with
  | zero => rfl
  | succ w ih => rw [leBytes, length_cons, ih]

theorem leNat_leBytes (w v : ℕ) (h : v < 256 ^ w) : leNat (leBytes w v) = v := by
  induction w generalizing v with
  | zero =>
    have hv : v = 0 := by simpa using h
    rw [leBytes, leNat, hv]
  | succ w ih =>
    have hdiv : v / 256 < 256 ^ w := by
      apply Nat.div_lt_of_lt_mul
      rwa [Nat.pow_succ, Nat.mul_comm] at h
    rw [leBytes, leNat, ih _ hdiv, UInt8.toNat_ofNat']
    omega

theorem leNat_replicate_zero (k : ℕ) : leNat (List.replicate k 0) = 0 := by
  induction k with
  | zero => rfl
  | succ k ih => rw [replicate_succ, leNat, ih]; rfl

/-- A `u32` in four bytes. -/
def u32Bytes (v : UInt32) : List UInt8 := leBytes 4 v.toNat

/-- The `u32` four bytes spell. -/
def u32Of (bs : List UInt8) : UInt32 := UInt32.ofNat (leNat bs)

@[simp] theorem length_u32Bytes (v : UInt32) : (u32Bytes v).length = 4 := by
  rw [u32Bytes, length_leBytes]

theorem u32Of_u32Bytes (v : UInt32) : u32Of (u32Bytes v) = v := by
  have hv : v.toNat < 256 ^ 4 := v.toNat_lt
  rw [u32Of, u32Bytes, leNat_leBytes _ _ hv, UInt32.ofNat_toNat]

theorem u32Of_replicate_zero (k : ℕ) : u32Of (List.replicate k 0) = 0 := by
  rw [u32Of, leNat_replicate_zero]
  rfl

/-! ## Records

A C-layout record is a list of fields, each a width and a value. -/

/-- The bytes of a record. -/
def encodeFields : List UInt8 := l.flatMap (fun f => leBytes f.1 f.2)

/-- The values of a record with the given field widths. -/
def decodeFields : List ℕ → List UInt8 → List ℕ
  | [], _ => []
  | w :: ws, bs => leNat (bs.take w) :: decodeFields ws (bs.drop w)

theorem length_encodeFields : (encodeFields l).length = (l.map Prod.fst).sum := by
  simp [encodeFields, length_flatMap]

/-- A record whose values fit their fields reads back what was stored in it. -/
theorem decodeFields_encodeFields (h : ∀ f ∈ l, f.2 < 256 ^ f.1) :
    decodeFields (l.map Prod.fst) (encodeFields l) = l.map Prod.snd := by
  induction l with
  | nil => rfl
  | cons f l ih =>
    have hlen : (leBytes f.1 f.2).length = f.1 := length_leBytes _ _
    have hf := h f mem_cons_self
    have htail : decodeFields (l.map Prod.fst) (encodeFields l) = l.map Prod.snd :=
      ih (fun g hg => h g (mem_cons_of_mem _ hg))
    rw [map_cons, map_cons, decodeFields]
    rw [show encodeFields (f :: l) = leBytes f.1 f.2 ++ encodeFields l from rfl,
      take_left' hlen, drop_left' hlen, leNat_leBytes _ _ hf, htail]

/-! ## Bits of a byte -/

/-- The mask with one bit set. -/
def bitMask (bit : ℕ) : UInt8 := (1 : UInt8) <<< UInt8.ofNat bit

/-- Bit `bit` of a byte, as the usual mask test. -/
def hasBit (bit : ℕ) : Bool := x &&& bitMask bit != 0

theorem toBitVec_bitMask : ∀ i < 8, (bitMask i).toBitVec = BitVec.twoPow 8 i := by decide

/-- The mask test reads the bit of the byte's bit vector. -/
theorem hasBit_eq_getLsbD (hj : j < 8) : hasBit x j = x.toBitVec.getLsbD j := by
  have hmask : (x &&& bitMask j).toBitVec = x.toBitVec &&& BitVec.twoPow 8 j := by
    rw [UInt8.toBitVec_and, toBitVec_bitMask j hj]
  have hne : BitVec.twoPow 8 j ≠ 0#8 := by
    clear hmask
    revert j
    decide
  rw [BitVec.and_twoPow] at hmask
  rw [hasBit, Bool.eq_iff_iff, bne_iff_ne, ne_eq, ← UInt8.toBitVec_inj, hmask]
  by_cases hx : x.toBitVec.getLsbD j
  · simpa [hx] using hne
  · simp [hx]

theorem hasBit_or_mask (hi : i < 8) (hj : j < 8) :
    hasBit (x ||| bitMask i) j = (hasBit x j || decide (i = j)) := by
  rw [hasBit_eq_getLsbD _ hj, hasBit_eq_getLsbD _ hj, UInt8.toBitVec_or,
    toBitVec_bitMask i hi, BitVec.getLsbD_or, BitVec.getLsbD_twoPow]
  simp [hi]

theorem hasBit_and_not_mask (hi : i < 8) (hj : j < 8) :
    hasBit (x &&& ~~~ bitMask i) j = (hasBit x j && !decide (i = j)) := by
  rw [hasBit_eq_getLsbD _ hj, hasBit_eq_getLsbD _ hj, UInt8.toBitVec_and, UInt8.toBitVec_not,
    toBitVec_bitMask i hi, BitVec.getLsbD_and, BitVec.getLsbD_not, BitVec.getLsbD_twoPow]
  simp [hi, hj]

theorem hasBit_zero (j : ℕ) : hasBit 0 j = false := by
  simp [hasBit]

theorem hasBit_full : ∀ j < 8, hasBit 0xFF j = true := by decide

/-- A mask of high bits rounds down. -/
theorem and_high_mask {w k x : ℕ} (hx : x < 2 ^ w) (hk : k ≤ w) :
    x &&& (2 ^ w - 2 ^ k) = x / 2 ^ k * 2 ^ k := by
  have hmask : 2 ^ w - 2 ^ k = (2 ^ (w - k) - 1) * 2 ^ k := by
    rw [Nat.sub_mul, ← pow_add, Nat.sub_add_cancel hk, Nat.one_mul]
  refine eq_of_testBit_eq fun i => ?_
  rw [hmask, testBit_and, testBit_mul_two_pow, testBit_mul_two_pow, testBit_two_pow_sub_one,
    testBit_div_two_pow]
  by_cases hi : k ≤ i
  · have hsum : i - k + k = i := Nat.sub_add_cancel hi
    by_cases hlt : i < w
    · have hin : i - k < w - k := by omega
      simp [hi, hsum, hin]
    · have hbig : x.testBit i = false :=
        testBit_lt_two_pow (hx.trans_le (Nat.pow_le_pow_right (by decide) (by omega)))
      simp [hi, hsum, hbig]
  · simp [hi]

end HepOS.Bytes
