/-
The content of a file, and that `read_file` returns it.

`content D n` is the content an inode stands for: the bytes of its data blocks in order,
cut to `size`. The reader gathers it with loops that stop for different reasons (no bytes
left, end of a pointer level, a zero pointer), and `Rd` is the invariant they share: the
first `idx` blocks are in `out`, and `left` is what `size` still asks for. Because the
occupied slots form a prefix, each loop ends with `left = 0` or with `idx` at the smaller
of the number of blocks and the end of its level.
-/
import HepOS.HepFS.WriteFile

set_option autoImplicit false

namespace HepOS.HepFS

open Bytes Hoare Ledger List

variable {D : Disk} {n : Inode} {m t : ℕ}

/-! ## Content -/

/-- The bytes of the first `k` data blocks. -/
def blockBytes (D : Disk) (n : Inode) (k : ℕ) : List UInt8 :=
  (List.range k).flatMap fun j => (D (slotOf D n (.data j))).read 0 4096

theorem length_blockBytes (D : Disk) (n : Inode) (k : ℕ) :
    (blockBytes D n k).length = 4096 * k := by
  rw [blockBytes, length_flatMap]
  simp [Nat.mul_comm]

theorem blockBytes_succ (D : Disk) (n : Inode) (k : ℕ) : blockBytes D n (k + 1)
    = blockBytes D n k ++ (D (slotOf D n (.data k))).read 0 4096 := by
  rw [blockBytes, range_succ, flatMap_append]
  simp [blockBytes]

/-- Blocks past what is asked for do not matter. -/
theorem take_blockBytes (D : Disk) (n : Inode) {k k' len : ℕ} (hk : k ≤ k')
    (hlen : len ≤ 4096 * k) :
    (blockBytes D n k').take len = (blockBytes D n k).take len := by
  induction k', hk using Nat.le_induction with
  | base => rfl
  | succ k' hk ih =>
    rw [blockBytes_succ, take_append_of_le_length (by rw [length_blockBytes]; omega), ih]

/-- The number of data blocks of an inode. -/
def dataCount (D : Disk) (n : Inode) : ℕ :=
  (List.range MAX_BLOCKS).countP fun j => slotOf D n (.data j) ≠ 0

theorem countP_range_lt (k m : ℕ) : (List.range k).countP (fun j => j < m) = min k m := by
  induction k with
  | zero => simp
  | succ k ih =>
    rw [range_succ, countP_append, ih]
    by_cases hk : k < m
    · simp [hk]
      omega
    · simp [hk]
      omega

theorem dataCount_eq (h : Shape (slotOf D n) m t) : dataCount D n = m := by
  have hle : m ≤ 1049612 := by
    by_contra hlt
    have hmem := mem_allSlots_of_ne_zero ((h.data 1049612).mpr (by omega))
    have := mem_allSlots_data_iff.mp hmem
    omega
  rw [dataCount, countP_congr, countP_range_lt]
  · exact Nat.min_eq_right hle
  · intro j _
    simp [h.data j]

attribute [irreducible] dataCount

/-- The content an inode stands for. -/
def content (D : Disk) (n : Inode) : List UInt8 :=
  (blockBytes D n (dataCount D n)).take n.size.toNat

theorem content_congr {D' : Disk} {n' : Inode} (hsh : Shape (slotOf D n) m t)
    (hslots : slotOf D' n' = slotOf D n) (hsize : n'.size = n.size)
    (hblk : ∀ j < m, D' (slotOf D n (.data j)) = D (slotOf D n (.data j))) :
    content D' n' = content D n := by
  have hsh' : Shape (slotOf D' n') m t := by rwa [hslots]
  have hbytes : blockBytes D' n' m = blockBytes D n m := by
    have hmap : (List.range m).map (fun j => (D' (slotOf D n (.data j))).read 0 4096)
        = (List.range m).map (fun j => (D (slotOf D n (.data j))).read 0 4096) := by
      refine map_congr_left ?_
      intro j hj
      rw [hblk j (mem_range.mp hj)]
    unfold blockBytes
    rw [hslots, flatMap_def, flatMap_def, hmap]
  rw [content, content, dataCount_eq hsh, dataCount_eq hsh', hbytes, hsize]

/-! ## What was written is the content -/

theorem take_read (p : Block) (a b : ℕ) (h : b ≤ a) : (p.read 0 a).take b = p.read 0 b := by
  rw [Mem.read, Mem.read, ← map_take, take_range, Nat.min_eq_left h]

/-- The bytes of `data` that block `j` holds. -/
theorem read_chunkOf (data : List UInt8) (j : ℕ) :
    ((chunkOf data j).read 0 4096).take (data.length - 4096 * j)
      = (data.drop (4096 * j)).take 4096 := by
  have hlen : ((data.drop (4096 * j)).take 4096).length = min 4096 (data.length - 4096 * j) := by
    rw [length_take, length_drop]
  have hmin : ((chunkOf data j).read 0 4096).take (data.length - 4096 * j)
      = (chunkOf data j).read 0 (min 4096 (data.length - 4096 * j)) := by
    rw [← take_read _ 4096 _ (Nat.min_le_left _ _), Nat.min_comm, ← take_take,
      take_of_length_le (i := 4096) (by simp)]
  rw [hmin, chunkOf, Mem.read_prefix_write _ _ _ (by rw [hlen]) (by
      rw [hlen]
      exact Nat.min_le_left _ _),
    take_of_length_le (by rw [hlen])]

theorem take_blockBytes_written {data : List UInt8} {k : ℕ}
    (h : ∀ j < k, D (slotOf D n (.data j)) = chunkOf data j) :
    (blockBytes D n k).take data.length = data.take (4096 * k) := by
  induction k with
  | zero => simp [blockBytes]
  | succ k ih =>
    rw [blockBytes_succ, take_append, length_blockBytes, ih (fun j hj => h j (by omega)),
      h k (by omega), read_chunkOf, Nat.mul_add, Nat.mul_one, take_add]

theorem Wrote.size_toNat {D0 : Disk} {f : ℕ} {data : List UInt8} (h : Wrote D0 f data D)
    (hmax : blocksFor data.length ≤ 1049612) : (inodeAt D f).size.toNat = data.length := by
  rw [h.size, UInt64.toNat_ofNat']
  rw [blocksFor] at hmax
  omega

/-- **Round trip, content side.** After a write the content is what was written. -/
theorem Wrote.content {D0 : Disk} {f : ℕ} {data : List UInt8} (h : Wrote D0 f data D)
    (hf : Live (inodeAt D) f) (hmax : blocksFor data.length ≤ 1049612) :
    content D (inodeAt D f) = data := by
  obtain ⟨m, t, hsh⟩ := h.acc.shape f hf
  have hsize := h.size_toNat hmax
  have hlast : data.length ≤ 4096 * blocksFor data.length := by
    rw [blocksFor]
    omega
  have hle : blocksFor data.length ≤ m := by
    by_contra hlt
    have := (h.data m (by omega)).1
    exact absurd ((hsh.data m).mp this) (by omega)
  rw [HepFS.content, dataCount_eq hsh, hsize, take_blockBytes _ _ hle hlast,
    take_blockBytes_written (fun j hj => (h.data j hj).2), take_of_length_le hlast]

/-! ## The reader -/

/-- After `idx` of the `m` blocks, `out` is what was read and `left` what is missing. -/
structure Rd (D : Disk) (n : Inode) (m idx : ℕ) (out : List UInt8) (left : ℕ) : Prop where
  le : idx ≤ m
  out_eq : out = (blockBytes D n idx).take n.size.toNat
  left_eq : left = n.size.toNat - 4096 * idx

section

variable {D : Disk} {n : Inode} {m t idx left : ℕ} {out : List UInt8} {s : Fs}

theorem Rd.start : Rd D n m 0 [] n.size.toNat := ⟨Nat.zero_le _, by simp [blockBytes], by simp⟩

theorem Rd.chunk (h : Rd D n m idx out left) (hlt : idx < m) {b : UInt32}
    (hD : s.blk = D) (hb : slotOf D n (.data idx) = b.toNat) (hholds : s.geom.serves b.toNat) :
    ∃ bytes left' s', read_chunk b left s = .ok (bytes, left') s' ∧ s.To s' s.blk
      ∧ Rd D n m (idx + 1) (out ++ bytes) left' := by
  obtain ⟨s', hr, ht⟩ := read_block_spec s hholds
  refine ⟨(s.blk b.toNat).read 0 (min left 4096), left - min left 4096, s', ?_, ht, ?_⟩
  · rw [read_chunk, bind_of_ok hr]
    rfl
  · have hmin : (s.blk b.toNat).read 0 (min left 4096)
        = ((s.blk b.toNat).read 0 4096).take left := by
      rw [← take_read _ 4096 _ (Nat.min_le_right _ _), ← take_take,
        take_of_length_le (l := (s.blk b.toNat).read 0 4096) (by simp)]
    refine ⟨hlt, ?_, ?_⟩
    · rw [hmin, h.out_eq, blockBytes_succ, take_append, length_blockBytes, h.left_eq, hb, hD]
    · rw [h.left_eq]
      omega

/-- When a level has been read to its end, or nothing is left to read, the content is
complete once the last level ends. -/
theorem Rd.finish (h : Rd D n m idx out left) (hsh : Shape (slotOf D n) m t)
    (hend : left = 0 ∨ idx = m) : out = content D n := by
  rw [content, dataCount_eq hsh, h.out_eq]
  rcases hend with h0 | rfl
  · have hleft := h.left_eq
    rw [take_blockBytes _ _ h.le (by omega)]
  · rfl

/-! ### Phase 1 -/

/-- The direct loop over the pointers from block `idx` on. -/
theorem read_direct_spec (hsh : Shape (slotOf D n) m t)
    (hholds : ∀ sl, slotOf D n sl ≠ 0 → s.geom.serves (slotOf D n sl)) (blks : List UInt32) :
    ∀ (idx left : ℕ) (out : List UInt8) (s' : Fs), s.To s' D →
    blks.map UInt32.toNat = (List.range' idx blks.length).map (fun j => slotOf D n (.data j)) →
    idx + blks.length ≤ m → Rd D n m idx out left →
    ∃ idx' out' left' s'', read_direct blks out left s' = .ok (out', left') s'' ∧ s.To s'' D
      ∧ Rd D n m idx' out' left' ∧ (left' = 0 ∨ idx' = idx + blks.length) := by
  induction blks with
  | nil =>
    intro idx left out s' ht _ _ h
    exact ⟨idx, out, left, s', rfl, ht, h, .inr rfl⟩
  | cons b rest ih =>
    intro idx left out s' ht hblks hm h
    rw [length_cons] at hblks hm ⊢
    rw [List.range'_succ, map_cons, map_cons, List.cons.injEq] at hblks
    rw [read_direct]
    split_ifs with h0
    · exact ⟨idx, out, left, s', rfl, ht, h, .inl h0⟩
    · have hne : slotOf D n (.data idx) ≠ 0 := (hsh.data idx).mpr (by omega)
      have hb : s'.geom.serves b.toNat := by
        rw [ht.geom, hblks.1]
        exact hholds _ hne
      obtain ⟨bytes, left', s'', hr, ht', h'⟩ :=
        h.chunk (by omega) ht.blk hblks.1.symm hb
      rw [bind_of_ok hr]
      rw [ht.blk] at ht'
      obtain ⟨idx', out', left'', s''', hrest, hto, hrd, hend⟩ :=
        ih (idx + 1) left' (out ++ bytes) s'' (ht.trans ht') hblks.2 (by omega) h'
      exact ⟨idx', out', left'', s''', hrest, hto, hrd, by omega⟩

/-! ### The tables -/

section

variable (hsh : Shape (slotOf D n) m t)
    (hholds : ∀ sl, slotOf D n sl ≠ 0 → s.geom.serves (slotOf D n sl))

include hsh hholds

/-- The loop over a table whose entries are the blocks from `base` on. -/
theorem read_table_spec {buf : Block} {base : ℕ}
    (hbuf : ∀ i < 1024, slotOf D n (.data (base + i)) = (buf.ptr i).toNat) (k : ℕ) :
    ∀ (i idx left : ℕ) (out : List UInt8) (s' : Fs), i + k = 1024 → s.To s' D →
    Rd D n m idx out left → (left = 0 ∨ idx = min m (base + i)) →
    ∃ idx' out' left' s'', read_table buf (List.range' i k) out left s' = .ok (out', left') s''
      ∧ s.To s'' D ∧ Rd D n m idx' out' left' ∧ (left' = 0 ∨ idx' = min m (base + 1024)) := by
  induction k with
  | zero =>
    intro i idx left out s' hi ht h hidx
    obtain rfl : i = 1024 := by omega
    exact ⟨idx, out, left, s', rfl, ht, h, hidx⟩
  | succ k ih =>
    intro i idx left out s' hi ht h hidx
    rw [List.range'_succ, read_table]
    by_cases h0 : left = 0
    · rw [if_pos h0]
      exact ⟨idx, out, left, s', rfl, ht, h, .inl h0⟩
    rw [if_neg h0]
    have hslot := hbuf i (by omega)
    by_cases hptr : buf.ptr i = 0
    · -- the first zero pointer is the end of the prefix
      rw [if_pos hptr]
      have hge : m ≤ base + i := hsh.data_end (by rw [hslot, hptr]; rfl)
      exact ⟨idx, out, left, s', rfl, ht, h, .inr (by omega)⟩
    · rw [if_neg hptr]
      have hne : slotOf D n (.data (base + i)) ≠ 0 := by
        rw [hslot]
        exact toNat_ne_zero.mpr hptr
      have hlt := (hsh.data _).mp hne
      obtain rfl : idx = base + i := by omega
      have hb : s'.geom.serves (buf.ptr i).toNat := by
        rw [ht.geom, ← hslot]
        exact hholds _ hne
      obtain ⟨bytes, left', s'', hr, ht', h'⟩ := h.chunk hlt ht.blk hslot hb
      rw [bind_of_ok hr]
      rw [ht.blk] at ht'
      exact ih (i + 1) (base + i + 1) left' (out ++ bytes) s'' (by omega) (ht.trans ht') h'
        (.inr (by omega))

theorem read_indirect_spec {s' : Fs}
    (ht : s.To s' D) (h : Rd D n m idx out left) (hidx : left = 0 ∨ idx = min m 12) :
    ∃ idx' out' left' s'', read_indirect n out left s' = .ok (out', left') s''
      ∧ s.To s'' D ∧ Rd D n m idx' out' left' ∧ (left' = 0 ∨ idx' = min m 1036) := by
  rw [read_indirect]
  split_ifs with hc
  · have hb : s'.geom.serves n.indirect.toNat := by
      rw [ht.geom]
      exact hholds .ind (toNat_ne_zero.mpr hc.2)
    obtain ⟨s'', hr, ht'⟩ := read_block_spec s' hb
    rw [bind_of_ok hr]
    rw [ht.blk] at ht' ⊢
    rw [range_table]
    exact read_table_spec hsh hholds (fun i hi => slotOf_indirect_entry D hc.2 hi) 1024 0 idx left
      out s'' rfl (ht.trans ht') h hidx
  · refine ⟨idx, out, left, s', rfl, ht, h, ?_⟩
    by_cases h0 : left = 0
    · exact .inl h0
    · -- no indirect table, so no block behind it
      have hind : n.indirect = 0 := by
        by_contra hne
        exact hc ⟨by omega, hne⟩
      have hle : ¬ 12 < m := by
        intro hlt
        exact ind_ne_zero_of_data (by omega) (by omega) ((hsh.data 12).mpr hlt) hind
      exact .inr (by omega)

theorem read_l1_tables_spec (hdind : n.dindirect ≠ 0) (k : ℕ) :
    ∀ (i idx left : ℕ) (out : List UInt8) (s' : Fs), i + k = 1024 → s.To s' D →
    Rd D n m idx out left → (left = 0 ∨ idx = min m (1036 + 1024 * i)) → ∃ idx' out' left' s'',
      read_l1_tables (D n.dindirect.toNat) (List.range' i k) out left s' = .ok (out', left') s''
      ∧ s.To s'' D ∧ Rd D n m idx' out' left' ∧ (left' = 0 ∨ idx' = min m 1049612) := by
  induction k with
  | zero =>
    intro i idx left out s' hi ht h hidx
    obtain rfl : i = 1024 := by omega
    exact ⟨idx, out, left, s', rfl, ht, h, hidx⟩
  | succ k ih =>
    intro i idx left out s' hi ht h hidx
    rw [List.range'_succ, read_l1_tables]
    by_cases h0 : left = 0
    · rw [if_pos h0]
      exact ⟨idx, out, left, s', rfl, ht, h, .inl h0⟩
    have hl1 := slotOf_l1_table D hdind (i := i) (by omega)
    have hbuf := fun e => slotOf_l1_entry D hdind (i := i) (j := e) (by omega)
    split_ifs with hptr
    · have hge : m ≤ 1036 + 1024 * i + 0 := hsh.data_end (by rw [hbuf 0 (by omega), hptr]; rfl)
      exact ⟨idx, out, left, s', rfl, ht, h, .inr (by omega)⟩
    · have hne := toNat_ne_zero.mpr hptr
      have hb : s'.geom.serves ((D n.dindirect.toNat).ptr i).toNat := by
        rw [ht.geom, ← hl1]
        refine hholds _ ?_
        rw [hl1]
        exact hne
      obtain ⟨s'', hr, ht'⟩ := read_block_spec s' hb
      rw [bind_of_ok hr]
      rw [ht.blk] at ht' ⊢
      obtain ⟨idx', out', left', s''', htab, hto, hrd, hend⟩ :=
        read_table_spec hsh hholds (fun e he => (hbuf e he).trans (if_neg hne))
          1024 0 idx left out s'' rfl (ht.trans ht') h hidx
      rw [range_table,
        bind_of_ok htab]
      refine ih (i + 1) idx' left' out' s''' (by omega) hto hrd ?_
      rw [Nat.mul_add, ← Nat.add_assoc]
      exact hend

theorem read_dindirect_spec {s' : Fs}
    (ht : s.To s' D) (h : Rd D n m idx out left) (hidx : left = 0 ∨ idx = min m 1036) :
    ∃ idx' out' left' s'', read_dindirect n out left s' = .ok (out', left') s''
      ∧ s.To s'' D ∧ Rd D n m idx' out' left' ∧ (left' = 0 ∨ idx' = m) := by
  rw [read_dindirect]
  split_ifs with hc
  · have hb : s'.geom.serves n.dindirect.toNat := by
      rw [ht.geom]
      exact hholds .dind (toNat_ne_zero.mpr hc.2)
    obtain ⟨s'', hr, ht'⟩ := read_block_spec s' hb
    rw [bind_of_ok hr]
    rw [ht.blk] at ht' ⊢
    rw [range_table]
    obtain ⟨idx', out', left', s''', hrun, hto, hrd, hend⟩ :=
      read_l1_tables_spec hsh hholds hc.2 1024 0 idx left out s'' rfl (ht.trans ht') h hidx
    have hle : m ≤ 1049612 := by
      by_contra hlt
      have hmem := mem_allSlots_of_ne_zero ((hsh.data 1049612).mpr (by omega))
      have := mem_allSlots_data_iff.mp hmem
      omega
    exact ⟨idx', out', left', s''', hrun, hto, hrd, by omega⟩
  · refine ⟨idx, out, left, s', rfl, ht, h, ?_⟩
    by_cases h0 : left = 0
    · exact .inl h0
    · have hdind : n.dindirect = 0 := by
        by_contra hne
        exact hc ⟨by omega, hne⟩
      have hle : ¬ 1036 < m := by
        intro hlt
        have hl1 := l1_ne_zero_of_data (by omega) ((hsh.data 1036).mpr hlt)
        exact (dind_ne_zero_of_l1 hl1).1 hdind
      exact .inr (by omega)

end

end

theorem filter_eq_take {α : Type} (p : α → Bool) : ∀ (l : List α) (m : ℕ),
    (∀ j (hj : j < l.length), p l[j] = true ↔ j < m) → l.filter p = l.take m
  | [], m, _ => by simp
  | a :: l, 0, h => by
    rw [take_zero, filter_eq_nil_iff]
    intro x hx hp
    obtain ⟨j, hj, rfl⟩ := getElem_of_mem hx
    exact absurd ((h j hj).mp hp) (Nat.not_lt_zero j)
  | a :: l, m + 1, h => by
    have ha : p a = true := (h 0 (by simp)).mpr (by omega)
    rw [take_succ_cons, filter_cons_of_pos ha, filter_eq_take p l m (fun j hj => ?_)]
    have hnext := h (j + 1) (by simpa using hj)
    rw [getElem_cons_succ] at hnext
    rw [hnext]
    omega

/-- The non-zero direct pointers are the first ones. -/
theorem filter_direct (hsh : Shape (slotOf D n) m t) :
    n.direct.toList.filter (· ≠ 0) = n.direct.toList.take m := by
  refine filter_eq_take _ _ _ ?_
  intro j hj
  have hj12 : j < 12 := by simpa using hj
  rw [← hsh.data j, slotOf_data_direct _ _ hj12, toNat_ne_zero]
  simp

/-- The pointers the direct loop goes through are the blocks from `0` on. -/
theorem map_take_direct (D : Disk) (n : Inode) (m : ℕ) : (n.direct.toList.take m).map UInt32.toNat
      = (List.range' 0 (min m 12)).map (fun j => slotOf D n (.data j)) := by
  refine ext_getElem (by simp) ?_
  intro j h1 h2
  have hj12 : j < 12 := by
    rw [length_map, length_range'] at h2
    omega
  simp only [getElem_map, getElem_take, getElem_range', Nat.zero_add, Nat.one_mul,
    slotOf_data_direct _ _ hj12, Vector.getElem_toList]

/-- **`read_file`.** It returns the content of a live file and changes nothing. -/
theorem read_file_spec (s : Fs) (hc : s.geom.covers) (ino : UInt32)
    (T : Target s (inodeAt s.blk) ino.toNat) :
    ∃ s', read_file ino s = .ok (content s.blk (inodeAt s.blk ino.toNat)) s' ∧ s.To s' s.blk := by
  obtain ⟨m, t, hsh⟩ := T.acc.shape _ T.live
  obtain ⟨s1, hr, ht1⟩ := read_inode_spec s ino (hc.holds_inode T.live.1)
  have hholds : ∀ sl, slotOf s.blk (inodeAt s.blk ino.toNat) sl ≠ 0 →
      s.geom.serves (slotOf s.blk (inodeAt s.blk ino.toNat) sl) :=
    fun sl hsl => hc.holds (T.acc.range T.live hsl).2
  have hlen : ((inodeAt s.blk ino.toNat).direct.toList.take m).length = min m 12 := by simp
  obtain ⟨i2, out2, l2, s2, h2, ht2, hrd2, hend2⟩ := read_direct_spec hsh hholds
    ((inodeAt s.blk ino.toNat).direct.toList.take m) 0 _ [] s1 ht1
    (by rw [hlen]; exact map_take_direct _ _ _) (by rw [hlen]; omega) Rd.start
  rw [hlen, Nat.zero_add] at hend2
  obtain ⟨i3, out3, l3, s3, h3, ht3, hrd3, hend3⟩ :=
    read_indirect_spec hsh hholds ht2 hrd2 hend2
  obtain ⟨i4, out4, l4, s4, h4, ht4, hrd4, hend4⟩ :=
    read_dindirect_spec hsh hholds ht3 hrd3 hend3
  refine ⟨s4, ?_, ht4⟩
  rw [read_file, bind_of_ok hr, if_neg (not_not.mpr T.file), filter_direct hsh, bind_of_ok h2]
  dsimp only
  rw [bind_of_ok h3]
  rw [bind_of_ok h4]
  rw [pure_run, hrd4.finish hsh hend4]

end HepOS.HepFS
