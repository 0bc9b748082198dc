/-
The two bit maps: `bitmap_alloc` and `bitmap_set`.

Bit `idx` of a bit map that starts at block `bm` is bit `idx % 8` of byte
`idx / 8 % 4096` of block `bm + idx / 32768`. `bitAt` reads it and `setBit` is the
disk with it changed; the two functions of the source are specified by these.

`bitmap_alloc` scans blocks, bytes and bits in ascending order and skips full bytes,
so the index it claims is the least clear one that is not below `skip`. That is
more than a caller needs to know (any clear index would do), but it makes the
result a function of the disk.
-/
import HepOS.HepFS.Device

set_option autoImplicit false

namespace HepOS.HepFS

open Bytes Hoare List Bool Nat

variable {bi byte skip : ℕ} {buf : Block} (D : Disk)

/-! ## Bits of a disk -/

/-- Bit `idx` of the bit map that starts at block `bm`. -/
def bitAt (bm idx : ℕ) : Bool :=
  hasBit ((D (bm + idx / 32768)).byte (idx / 8 % 4096)) (idx % 8)

/-- One byte of a page changed, the way `buf[byte] |= 1 << bit` and
`buf[byte] &= !(1 << bit)` change it. -/
def setBitPage (buf : Block) (byte bit : ℕ) (used : Bool) : Block :=
  buf.write byte [if used then buf.byte byte ||| bitMask bit else buf.byte byte &&& ~~~ bitMask bit]

/-- The disk with bit `idx` changed. -/
def setBit (bm idx : ℕ) (used : Bool) : Disk :=
  D.put (bm + idx / 32768) (setBitPage (D (bm + idx / 32768)) (idx / 8 % 4096) (idx % 8) used)

theorem byte_setBitPage_same (buf : Block) (bit : ℕ) (used : Bool) (h : byte < 4096) :
    (setBitPage buf byte bit used).byte byte
      = if used then buf.byte byte ||| bitMask bit else buf.byte byte &&& ~~~ bitMask bit := by
  rw [setBitPage, Mem.byte_write _ _ _ h, if_pos (by simp)]
  simp

theorem byte_setBitPage_ne (buf : Block) {byte' : ℕ} (bit : ℕ) (used : Bool)
    (h : byte' ≠ byte) : (setBitPage buf byte bit used).byte byte' = buf.byte byte' := by
  rw [setBitPage, Mem.byte_write_outside]
  simp only [length_singleton]
  omega

theorem bitAt_setBit_same (bm idx : ℕ) (used : Bool) :
    bitAt (setBit D bm idx used) bm idx = used := by
  have hbyte : idx / 8 % 4096 < 4096 := mod_lt _ (by norm_num)
  have hbit : idx % 8 < 8 := mod_lt _ (by norm_num)
  rw [bitAt, setBit, Disk.put_same, byte_setBitPage_same _ _ _ hbyte]
  cases used
  · rw [if_neg (by simp), hasBit_and_not_mask _ hbit hbit]
    simp
  · rw [if_pos rfl, hasBit_or_mask _ hbit hbit]
    simp

theorem bitAt_setBit_ne (bm : ℕ) {idx idx' : ℕ} (used : Bool) (h : idx' ≠ idx) :
    bitAt (setBit D bm idx used) bm idx' = bitAt D bm idx' := by
  have hbyte : idx / 8 % 4096 < 4096 := mod_lt _ (by norm_num)
  have hbit : idx % 8 < 8 := mod_lt _ (by norm_num)
  have hbit' : idx' % 8 < 8 := mod_lt _ (by norm_num)
  rw [bitAt, bitAt, setBit]
  by_cases hblk : idx' / 32768 = idx / 32768
  · rw [hblk, Disk.put_same]
    by_cases hb : idx' / 8 % 4096 = idx / 8 % 4096
    · -- the same byte: only the bit inside it differs
      have hne : idx % 8 ≠ idx' % 8 := by omega
      rw [hb, byte_setBitPage_same _ _ _ hbyte]
      cases used
      · rw [if_neg (by simp), hasBit_and_not_mask _ hbit hbit']
        simp [hne]
      · rw [if_pos rfl, hasBit_or_mask _ hbit hbit']
        simp [hne]
    · rw [byte_setBitPage_ne _ _ _ hb]
  · rw [Disk.put_ne _ _ (by omega)]

theorem bitAt_setBit (bm idx idx' : ℕ) (used : Bool) :
    bitAt (setBit D bm idx used) bm idx' = if idx' = idx then used else bitAt D bm idx' := by
  by_cases h : idx' = idx
  · rw [if_pos h, h, bitAt_setBit_same]
  · rw [if_neg h, bitAt_setBit_ne _ _ _ h]

theorem setBit_apply_ne (bm idx : ℕ) (used : Bool) {b : ℕ} (h : b ≠ bm + idx / 32768) :
    setBit D bm idx used b = D b := Disk.put_ne _ _ h

theorem bitAt_congr {D D' : Disk} {bm idx : ℕ}
    (h : D' (bm + idx / 32768) = D (bm + idx / 32768)) : bitAt D' bm idx = bitAt D bm idx := by
  rw [bitAt, bitAt, h]

/-! ## `bitmap_alloc` -/

/-- The bit loop: the first clear bit of a byte whose index is not below `skip`. -/
def scan_bits (buf : Block) (bi byte skip : ℕ) : Option ℕ :=
  (List.range 8).find? (fun bit =>
    !hasBit (buf.byte byte) bit && !decide (bi * BLOCK_SIZE * 8 + byte * 8 + bit < skip))

/-- The byte loop: full bytes are passed over. -/
def scan_page (buf : Block) (bi skip : ℕ) : Option (ℕ × ℕ) :=
  (List.range BLOCK_SIZE).findSome? (fun byte =>
    if buf.byte byte = 0xFF then none
    else (scan_bits buf bi byte skip).map (fun bit => (byte, bit)))

/-- The bit a page holds at a byte and a bit position. -/
theorem bitAt_eq_hasBit (bm bi byte bit : ℕ) (hbyte : byte < 4096) (hbit : bit < 8) :
    bitAt D bm (bi * 32768 + byte * 8 + bit) = hasBit ((D (bm + bi)).byte byte) bit := by
  rw [bitAt, show (bi * 32768 + byte * 8 + bit) / 32768 = bi by omega,
    show (bi * 32768 + byte * 8 + bit) / 8 % 4096 = byte by omega,
    show (bi * 32768 + byte * 8 + bit) % 8 = bit by omega]

theorem scan_bits_some {bit : ℕ} (h : scan_bits buf bi byte skip = some bit) :
    bit < 8 ∧ hasBit (buf.byte byte) bit = false ∧ skip ≤ bi * 32768 + byte * 8 + bit
      ∧ ∀ j < bit, skip ≤ bi * 32768 + byte * 8 + j → hasBit (buf.byte byte) j = true := by
  rw [scan_bits, List.find?_range_eq_some] at h
  obtain ⟨hp, hmem, hmin⟩ := h
  simp only [BLOCK_SIZE, and_eq_true, not_eq_true', decide_eq_false_iff_not, not_lt] at hp
  refine ⟨mem_range.mp hmem, hp.1, by omega, ?_⟩
  intro j hj hskip
  have hj' := hmin j hj
  simp only [BLOCK_SIZE, not_eq_true', and_eq_false_iff, not_eq_false',
    decide_eq_true_eq] at hj'
  rcases hj' with hj' | hj'
  · exact hj'
  · omega

theorem scan_bits_none (h : scan_bits buf bi byte skip = none) :
    ∀ j < 8, skip ≤ bi * 32768 + byte * 8 + j → hasBit (buf.byte byte) j = true := by
  rw [scan_bits, List.find?_range_eq_none] at h
  intro j hj hskip
  have hj' := h j hj
  simp only [BLOCK_SIZE, not_eq_true', and_eq_false_iff, not_eq_false',
    decide_eq_true_eq] at hj'
  rcases hj' with hj' | hj'
  · exact hj'
  · omega

/-- A byte the scan passes over has no clear bit from `skip` on. -/
theorem scan_byte_none (h : (if buf.byte byte = 0xFF then none
      else (scan_bits buf bi byte skip).map (fun bit => (byte, bit))) = none) :
    ∀ j < 8, skip ≤ bi * 32768 + byte * 8 + j → hasBit (buf.byte byte) j = true := by
  intro j hj hskip
  by_cases hfull : buf.byte byte = 0xFF
  · rw [hfull]
    exact hasBit_full j hj
  · rw [if_neg hfull, Option.map_eq_none_iff] at h
    exact scan_bits_none h j hj hskip

theorem scan_page_none (h : scan_page buf bi skip = none) :
    ∀ byte < 4096, ∀ j < 8, skip ≤ bi * 32768 + byte * 8 + j → hasBit (buf.byte byte) j = true := by
  rw [scan_page, List.findSome?_eq_none_iff] at h
  intro byte hbyte
  exact scan_byte_none (h byte (mem_range.mpr hbyte))

theorem scan_page_some {bit : ℕ} (h : scan_page buf bi skip = some (byte, bit)) :
    byte < 4096 ∧ bit < 8 ∧ hasBit (buf.byte byte) bit = false ∧ skip ≤ bi * 32768 + byte * 8 + bit
      ∧ ∀ byte' < 4096, ∀ j < 8, byte' * 8 + j < byte * 8 + bit →
          skip ≤ bi * 32768 + byte' * 8 + j → hasBit (buf.byte byte') j = true := by
  rw [scan_page, List.findSome?_eq_some_iff] at h
  obtain ⟨l1, a, l2, hl, ha, hl1⟩ := h
  by_cases hfull : buf.byte a = 0xFF
  · rw [if_pos hfull] at ha
    simp at ha
  rw [if_neg hfull, Option.map_eq_some_iff] at ha
  obtain ⟨bit', hscan, heq⟩ := ha
  obtain ⟨rfl, rfl⟩ := Prod.mk.inj heq
  obtain ⟨hbit, hclear, hskip, hmin⟩ := scan_bits_some hscan
  have ha4096 : a < 4096 := by
    have hmem : a ∈ List.range BLOCK_SIZE := by rw [hl]; simp
    exact mem_range.mp hmem
  refine ⟨ha4096, hbit, hclear, hskip, ?_⟩
  intro byte' hbyte' j hj hlt hge
  by_cases heq' : byte' = a
  · subst heq'
    exact hmin j (by omega) hge
  · -- an earlier byte stands before `a` in the range, so the scan passed over it
    have hmem : byte' ∈ l1 := by
      rw [range_eq_range'] at hl
      obtain ⟨k, hk, hl1', hr'⟩ := List.range'_eq_append_iff.mp hl
      have hak := (List.range'_eq_cons_iff.mp hr'.symm).1
      rw [hl1', mem_range'_1]
      omega
    exact scan_byte_none (hl1 byte' hmem) j hj hge

-- The scan is a loop over 4096 bytes; nothing below should try to evaluate it.
attribute [irreducible] scan_page

/-- The block loop. -/
def bitmap_alloc.go (bm_start skip : ℕ) : List ℕ → FsM (Option ℕ)
  | [] => pure none
  | bi :: rest => do
    let buf ← read_block (bm_start + bi)
    match scan_page buf bi skip with
    | none => bitmap_alloc.go bm_start skip rest
    | some (byte, bit) => do
      let idx := bi * BLOCK_SIZE * 8 + byte * 8 + bit
      let mbuf ← read_block (bm_start + bi)
      write_block (bm_start + bi) (setBitPage mbuf byte bit true)
      pure (some idx)

def bitmap_alloc (bm_start bm_len skip : ℕ) : FsM (Option ℕ) :=
  bitmap_alloc.go bm_start skip (List.range bm_len)

/-- What `bitmap_alloc` returns: the least clear index from `skip` on, now set, or
nothing when there is none. -/
def AllocResult (s : Fs) (bm_start bm_len skip : ℕ) (r : Option ℕ) (s' : Fs) : Prop :=
  match r with
  | some idx => skip ≤ idx ∧ idx < bm_len * 32768 ∧ bitAt s.blk bm_start idx = false
      ∧ (∀ j, skip ≤ j → j < idx → bitAt s.blk bm_start j = true)
      ∧ s.To s' (setBit s.blk bm_start idx true)
  | none => (∀ j, skip ≤ j → j < bm_len * 32768 → bitAt s.blk bm_start j = true) ∧ s.To s' s.blk

/-- Every index below `i * 32768` splits into block, byte and bit. -/
theorem index_split {j i : ℕ} (h : j < (i + 1) * 32768) (h' : i * 32768 ≤ j) :
    ∃ byte bit, byte < 4096 ∧ bit < 8 ∧ j = i * 32768 + byte * 8 + bit :=
  ⟨(j - i * 32768) / 8, j % 8, by omega, by omega, by omega⟩

/-- The block loop, from block `i` on, when the blocks before it held nothing. -/
theorem bitmap_alloc_go_spec (bm_start bm_len skip : ℕ) (k : ℕ) : ∀ (i : ℕ) (s : Fs),
    i + k = bm_len → (∀ bi < bm_len, s.geom.serves (bm_start + bi)) →
    (∀ j, skip ≤ j → j < i * 32768 → bitAt s.blk bm_start j = true) →
    ∃ r s', bitmap_alloc.go bm_start skip (List.range' i k) s = .ok r s'
      ∧ AllocResult s bm_start bm_len skip r s' := by
  -- on the blocks left to scan; the bits before them are set
  induction k with
  | zero =>
    intro i s hik _ hbefore
    subst hik
    refine ⟨none, s, rfl, ?_⟩
    exact ⟨hbefore, Fs.To.rfl s⟩
  | succ k ih =>
    intro i s hik hdev hbefore
    rw [List.range'_succ, bitmap_alloc.go]
    obtain ⟨s1, hr1, ht1⟩ := read_block_spec s (hdev i (by omega))
    rw [bind_of_ok hr1]
    cases hscan : scan_page (s.blk (bm_start + i)) i skip with
    | none =>
      have hpage := scan_page_none hscan
      obtain ⟨r, s', hgo, hres⟩ := ih (i + 1) s1 (by omega)
        (by rw [ht1.geom]; exact hdev) (by
          intro j hskip hj
          rw [ht1.blk]
          by_cases hji : j < i * 32768
          · exact hbefore j hskip hji
          · obtain ⟨byte, bit, hbyte, hbit, rfl⟩ := index_split hj (by omega)
            rw [bitAt_eq_hasBit _ _ _ _ _ hbyte hbit]
            exact hpage byte hbyte bit hbit hskip)
      refine ⟨r, s', hgo, ?_⟩
      cases r with
      | none =>
        obtain ⟨hfull, hto⟩ := hres
        rw [ht1.blk] at hfull hto
        exact ⟨hfull, ht1.trans hto⟩
      | some idx =>
        obtain ⟨h1, h2, h3, h4, hto⟩ := hres
        rw [ht1.blk] at h3 h4 hto
        exact ⟨h1, h2, h3, h4, ht1.trans hto⟩
    | some pos =>
      obtain ⟨byte, bit⟩ := pos
      obtain ⟨hbyte, hbit, hclear, hskip, hmin⟩ := scan_page_some hscan
      have hdev1 : s1.geom.serves (bm_start + i) := by rw [ht1.geom]; exact hdev i (by omega)
      obtain ⟨s2, hr2, ht2⟩ := read_block_spec s1 hdev1
      obtain ⟨s3, hw3, ht3⟩ := write_block_spec s2
        (setBitPage (s1.blk (bm_start + i)) byte bit true) (by rw [ht2.geom]; exact hdev1)
      dsimp only
      rw [bind_of_ok hr2, bind_of_ok hw3]
      refine ⟨_, _, rfl, ?_⟩
      -- the index the source returns is the one whose bit was written
      rw [show i * 4096 * 8 + byte * 8 + bit = i * 32768 + byte * 8 + bit by omega]
      have hset : setBit s.blk bm_start (i * 32768 + byte * 8 + bit) true
          = s2.blk.put (bm_start + i) (setBitPage (s1.blk (bm_start + i)) byte bit true) := by
        rw [setBit, show (i * 32768 + byte * 8 + bit) / 32768 = i by omega,
          show (i * 32768 + byte * 8 + bit) / 8 % 4096 = byte by omega,
          show (i * 32768 + byte * 8 + bit) % 8 = bit by omega, ht2.blk, ht1.blk]
      refine ⟨hskip, by nlinarith, ?_, ?_, ?_⟩
      · rw [bitAt_eq_hasBit _ _ _ _ _ hbyte hbit]
        exact hclear
      · intro j hj hlt
        by_cases hji : j < i * 32768
        · exact hbefore j hj hji
        · obtain ⟨byte', bit', hbyte', hbit', rfl⟩ :=
            index_split (i := i) (j := j) (by omega) (by omega)
          rw [bitAt_eq_hasBit _ _ _ _ _ hbyte' hbit']
          exact hmin byte' hbyte' bit' hbit' (by omega) hj
      · rw [hset]
        exact ht1.trans (ht2.trans ht3)

/-- `bitmap_alloc` returns, and claims the least clear index from `skip` on. -/
theorem bitmap_alloc_spec (s : Fs) (bm_start bm_len skip : ℕ)
    (hdev : ∀ bi < bm_len, s.geom.serves (bm_start + bi)) :
    ∃ r s', bitmap_alloc bm_start bm_len skip s = .ok r s'
      ∧ AllocResult s bm_start bm_len skip r s' := by
  rw [bitmap_alloc, range_eq_range']
  exact bitmap_alloc_go_spec bm_start bm_len skip bm_len 0 s (by omega) hdev
    (by intro j _ hj; omega)

/-! ## `bitmap_set` -/

def bitmap_set (bm_start idx : ℕ) (used : Bool) : FsM Unit := do
  let block := bm_start + idx / (BLOCK_SIZE * 8)
  let byte := idx / 8 % BLOCK_SIZE
  let bit := idx % 8
  let buf ← read_block block
  write_block block (setBitPage buf byte bit used)

theorem bitmap_set_spec (s : Fs) (bm_start idx : ℕ) (used : Bool)
    (hdev : s.geom.serves (bm_start + idx / 32768)) :
    ∃ s', bitmap_set bm_start idx used s = .ok () s'
      ∧ s.To s' (setBit s.blk bm_start idx used) := by
  obtain ⟨s1, hr, ht1⟩ := read_block_spec s hdev
  obtain ⟨s2, hw, ht2⟩ := write_block_spec s1
    (setBitPage (s.blk (bm_start + idx / 32768)) (idx / 8 % 4096) (idx % 8) used)
    (by rw [ht1.geom]; exact hdev)
  refine ⟨s2, ?_, ?_⟩
  · rw [bitmap_set]
    exact (bind_of_ok hr).trans hw
  · rw [setBit, ← ht1.blk]
    rw [← ht1.blk] at ht2
    exact ht1.trans ht2

end HepOS.HepFS
