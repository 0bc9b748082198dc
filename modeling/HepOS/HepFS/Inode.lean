/-
Inode I/O and the two allocators: `read_inode`, `write_inode`, `alloc_block` and
`alloc_inode`.

`inodeAt` is the inode the table holds and `putInode` the disk with one inode
replaced. `grab` is what `alloc_block` does to the disk: one bit of the block bit map
set, and the block zeroed. The specifications are stated for a device with at least as
many blocks as the block bit map has bits (`Geometry.covers`), where no transfer can
fail; on a smaller one the zeroing of a block past the end panics.
-/
import HepOS.HepFS.Bitmap

set_option autoImplicit false

namespace HepOS.HepFS

open Bytes Hoare Finset

variable {b i : ℕ} {D D' : Disk} (s : Fs)

/-! ## The inode table -/

/-- Inode `i` of the table. -/
def inodeAt (D : Disk) (i : ℕ) : Inode := (D (6 + i / 32)).inode (i % 32)

/-- The disk with inode `i` replaced. -/
def putInode (D : Disk) (i : ℕ) (n : Inode) : Disk :=
  D.put (6 + i / 32) ((D (6 + i / 32)).setInode (i % 32) n)

@[simp] theorem inodeAt_putInode_same (D : Disk) (i : ℕ) (n : Inode) :
    inodeAt (putInode D i n) i = n := by
  rw [inodeAt, putInode, Disk.put_same, Block.inode_setInode_same _ _ (by omega)]

theorem inodeAt_putInode_ne (D : Disk) {j : ℕ} (n : Inode) (h : j ≠ i) :
    inodeAt (putInode D i n) j = inodeAt D j := by
  rw [inodeAt, inodeAt, putInode]
  by_cases hb : j / 32 = i / 32
  · rw [hb, Disk.put_same, Block.inode_setInode_ne _ _ (by omega)]
  · rw [Disk.put_ne _ _ (by omega)]

theorem putInode_apply_ne (D : Disk) (i : ℕ) (n : Inode) (h : b ≠ 6 + i / 32) :
    putInode D i n b = D b := Disk.put_ne _ _ h

theorem putInode_putInode (D : Disk) (i : ℕ) (n n' : Inode) :
    putInode (putInode D i n) i n' = putInode D i n' := by
  rw [putInode, putInode, putInode, Disk.put_same, Disk.put_put_same, Block.setInode,
    Block.setInode, Block.setInode,
    Mem.write_write_same _ _ _ _ (n.length_bytes.trans n'.length_bytes.symm)]

theorem inodeAt_congr (h : D' (6 + i / 32) = D (6 + i / 32)) : inodeAt D' i = inodeAt D i := by
  rw [inodeAt, inodeAt, h]

def read_inode (ino : UInt32) : FsM Inode := do
  let blk := INODE_TBL_BLOCK + ino.toNat / INODES_PER_BLK
  let page ← read_block blk
  pure (page.inode (ino.toNat % INODES_PER_BLK))

def write_inode (ino : UInt32) (inode : Inode) : FsM Unit := do
  let blk := INODE_TBL_BLOCK + ino.toNat / INODES_PER_BLK
  let page ← read_block blk
  write_block blk (page.setInode (ino.toNat % INODES_PER_BLK) inode)

theorem read_inode_spec (ino : UInt32) (h : s.geom.serves (6 + ino.toNat / 32)) :
    ∃ s', read_inode ino s = .ok (inodeAt s.blk ino.toNat) s' ∧ s.To s' s.blk := by
  obtain ⟨s1, hr, ht⟩ := read_block_spec s h
  exact ⟨s1, (bind_of_ok hr).trans rfl, ht⟩

theorem write_inode_spec (ino : UInt32) (n : Inode) (h : s.geom.serves (6 + ino.toNat / 32)) :
    ∃ s', write_inode ino n s = .ok () s' ∧ s.To s' (putInode s.blk ino.toNat n) := by
  obtain ⟨s1, hr, ht1⟩ := read_block_spec s h
  obtain ⟨s2, hw, ht2⟩ := write_block_spec s1
    ((s.blk (6 + ino.toNat / 32)).setInode (ino.toNat % 32) n) (by rw [ht1.geom]; exact h)
  refine ⟨s2, (bind_of_ok hr).trans hw, ?_⟩
  rw [ht1.blk] at ht2
  exact ht1.trans ht2

attribute [irreducible] inodeAt

/-! ## Devices the bit map fits on -/

/-- The device has at least as many blocks as the block bit map has bits, and the memory does
not run out. -/
def Geometry.covers (g : Geometry) : Prop := 131072 ≤ g.total_blocks ∧ g.memory = none

theorem Geometry.covers.of_eq {g g' : Geometry} (h : g.covers) (heq : g' = g) : g'.covers := by
  rw [heq]
  exact h

theorem Geometry.covers.holds {g : Geometry} (h : g.covers) (hb : b < 131072) : g.serves b := by
  refine ⟨?_, h.2⟩
  rw [Geometry.holds_iff]
  exact lt_of_lt_of_le hb h.1

theorem Geometry.covers.holds_inode {g : Geometry} (h : g.covers) (hi : i < 1024) :
    g.serves (6 + i / 32) := h.holds (by omega)

/-! ## Free blocks -/

/-- The data blocks whose bit is clear. -/
def freeBlocks (D : Disk) : Finset ℕ :=
  (Finset.Ico 38 131072).filter (fun b => bitAt D 2 b = false)

theorem mem_freeBlocks : b ∈ freeBlocks D ↔ 38 ≤ b ∧ b < 131072 ∧ bitAt D 2 b = false := by
  rw [freeBlocks, mem_filter, mem_Ico, and_assoc]

attribute [irreducible] freeBlocks

/-- The number of data blocks left. -/
def freeCount (D : Disk) : ℕ := (freeBlocks D).card

theorem freeCount_le (D : Disk) : freeCount D ≤ 131034 := by
  have hsub : freeBlocks D ⊆ Finset.Ico 38 131072 := by
    intro b hb
    obtain ⟨hge, hlt, -⟩ := mem_freeBlocks.mp hb
    exact mem_Ico.mpr ⟨hge, hlt⟩
  have hcard := card_le_card hsub
  rw [Nat.card_Ico] at hcard
  exact hcard

theorem freeCount_congr (h : ∀ b < 131072, bitAt D' 2 b = bitAt D 2 b) :
    freeCount D' = freeCount D := by
  rw [freeCount, freeCount]
  congr 1
  ext b
  rw [mem_freeBlocks, mem_freeBlocks]
  by_cases hb : b < 131072
  · rw [h b hb]
  · simp [hb]

theorem freeCount_of_set (hb : b ∈ freeBlocks D)
    (h : ∀ c < 131072, bitAt D' 2 c = if c = b then true else bitAt D 2 c) :
    freeCount D' + 1 = freeCount D := by
  have herase : freeBlocks D' = (freeBlocks D).erase b := by
    ext c
    rw [mem_erase, mem_freeBlocks, mem_freeBlocks]
    by_cases hc : c < 131072
    · rw [h c hc]
      by_cases hcb : c = b
      · simp [hcb]
      · simp [hcb]
    · simp [hc]
  rw [freeCount, freeCount, herase, card_erase_add_one hb]

/-! ## `alloc_block` -/

/-- What `alloc_block` does to the disk: the bit of the block is set and the block is
zeroed. -/
def grab (D : Disk) (b : ℕ) : Disk := (setBit D 2 b true).put b Mem.zero

def alloc_block : FsM UInt32 := do
  match ← bitmap_alloc BLOCK_BM_BLOCK BLOCK_BM_LEN DATA_BLOCK_START with
  | none => throw .disk_full
  | some blk => do
    let page ← page_alloc
    write_block blk page
    pure (UInt32.ofNat blk)

/-- The block `alloc_block` hands out: the least free one. -/
structure Fresh (D : Disk) (b : ℕ) : Prop where
  ge : 38 ≤ b
  lt : b < 131072
  clear : bitAt D 2 b = false
  least : ∀ j, 38 ≤ j → j < b → bitAt D 2 j = true

theorem Fresh.mem (h : Fresh D b) : b ∈ freeBlocks D :=
  mem_freeBlocks.mpr ⟨h.ge, h.lt, h.clear⟩

theorem Fresh.toNat_ofNat (h : Fresh D b) : (UInt32.ofNat b).toNat = b := by
  rw [UInt32.toNat_ofNat']
  have := h.lt
  omega

/-- `alloc_block` on any device that has the bit map: it hands out the least free block if the
device has it, and stops if it does not. -/
theorem alloc_block_on (hbm : ∀ b < 38, s.geom.serves b) : Post alloc_block s
      (fun b s' => Fresh s.blk b.toNat ∧ s.geom.holds b.toNat ∧ s.To s' (grab s.blk b.toNat))
      (fun e s' => (e = .disk_full ∧ freeCount s.blk = 0 ∧ s.To s' s.blk)
        ∨ (e = .nvme_write ∧ ∃ b, Fresh s.blk b ∧ ¬ s.geom.holds b)) := by
  obtain ⟨r, s1, hr, hres⟩ := bitmap_alloc_spec s 2 4 38 (fun bi hbi => hbm _ (by omega))
  refine Post.step hr ?_
  cases r with
  | none =>
    obtain ⟨hfull, hto⟩ := hres
    refine Post.throw (.inl ⟨rfl, ?_, hto⟩)
    rw [freeCount, card_eq_zero, eq_empty_iff_forall_notMem]
    intro b hb
    obtain ⟨h1, h2, h3⟩ := mem_freeBlocks.mp hb
    rw [hfull b h1 (by omega)] at h3
    simp at h3
  | some idx =>
    obtain ⟨h1, h2, h3, h4, hto⟩ := hres
    have hfresh : Fresh s.blk idx := ⟨h1, by omega, h3, h4⟩
    have hmem : s.geom.memory = none := (hbm 0 (by omega)).2
    obtain ⟨s2, hp, ht2⟩ := page_alloc_spec s1 (by rw [hto.geom]; exact hmem)
    have hgeom : s2.geom = s.geom := ht2.geom.trans hto.geom
    refine Post.step hp ?_
    by_cases hdev : s.geom.holds idx
    · obtain ⟨s3, hw, ht3⟩ := write_block_spec s2 Mem.zero
        (show s2.geom.serves idx by rw [hgeom]; exact ⟨hdev, hmem⟩)
      refine Post.step hw (Post.pure ?_)
      rw [hfresh.toNat_ofNat]
      refine ⟨hfresh, hdev, ?_⟩
      rw [grab, ← hto.blk, ← ht2.blk]
      exact hto.trans (ht2.trans ht3)
    · have hw := write_block_refused s2 Mem.zero
        (show ¬ s2.geom.holds idx by rw [hgeom]; exact hdev)
      exact Post.of_eq_error (bind_of_error hw) (.inr ⟨rfl, idx, hfresh, hdev⟩)

theorem alloc_block_spec (hc : s.geom.covers) : Post alloc_block s
      (fun b s' => Fresh s.blk b.toNat ∧ s.To s' (grab s.blk b.toNat))
      (fun e s' => e = .disk_full ∧ freeCount s.blk = 0 ∧ s.To s' s.blk) := by
  refine (alloc_block_on s fun b hb => hc.holds (by omega)).mono ?_ ?_
  · rintro b s' ⟨hfresh, -, hto⟩
    exact ⟨hfresh, hto⟩
  · rintro e s' (hfull | ⟨-, b, hfresh, hno⟩)
    · exact hfull
    · exact absurd (hc.holds hfresh.lt).1 hno

theorem bitAt_grab (D : Disk) (hb : 38 ≤ b) (c : ℕ) (hc : c < 131072) :
    bitAt (grab D b) 2 c = if c = b then true else bitAt D 2 c := by
  rw [← bitAt_setBit D 2 b c true]
  exact bitAt_congr (Disk.put_ne _ _ (by omega))

/-- Claiming a data block does not interfere with the inode table. -/
theorem grab_putInode (D : Disk) (n : Inode) (hb : 38 ≤ b) (hlt : b < 131072)
    (hi : i < 1024) : grab (putInode D i n) b = putInode (grab D b) i n := by
  have hbm : 6 + i / 32 ≠ 2 + b / 32768 := by omega
  have hblk : 6 + i / 32 ≠ b := by omega
  rw [putInode, putInode, grab, grab, setBit, setBit, Disk.put_ne _ _ (Ne.symm hbm),
    Disk.put_ne _ _ hblk, Disk.put_ne _ _ hbm, Disk.put_comm _ _ _ hbm, Disk.put_comm _ _ _ hblk]

theorem grab_apply_ne (D : Disk) {c : ℕ} (hcb : c ≠ b) (hc : c ≠ 2 + b / 32768) :
    grab D b c = D c := by
  rw [grab, Disk.put_ne _ _ hcb, setBit_apply_ne _ _ _ _ hc]

@[simp] theorem grab_apply_same (D : Disk) (b : ℕ) : grab D b b = Mem.zero := by
  rw [grab, Disk.put_same]

/-! ## `alloc_inode` -/

def alloc_inode : FsM UInt32 := do
  match ← bitmap_alloc INODE_BM_BLOCK 1 0 with
  | none => throw .inode_table_full
  | some idx => do
    let ino := UInt32.ofNat idx
    if ino.toNat < MAX_INODES then pure ino else throw .too_many_inodes

/-- The inode number `alloc_inode` hands out: the least free one. -/
structure FreshInode (D : Disk) (i : ℕ) : Prop where
  lt : i < 1024
  clear : bitAt D 1 i = false
  least : ∀ j < i, bitAt D 1 j = true

theorem alloc_inode_on (hbm : ∀ b < 38, s.geom.serves b) : Post alloc_inode s
      (fun ino s' => FreshInode s.blk ino.toNat ∧ s.To s' (setBit s.blk 1 ino.toNat true))
      (fun e _ => e.off_device = false ∧ ∀ j < 1024, bitAt s.blk 1 j = true) := by
  obtain ⟨r, s1, hr, hres⟩ := bitmap_alloc_spec s 1 1 0 (fun bi hbi => hbm _ (by omega))
  refine Post.step hr ?_
  cases r with
  | none =>
    obtain ⟨hfull, -⟩ := hres
    exact Post.throw ⟨rfl, fun j hj => hfull j (by omega) (by omega)⟩
  | some idx =>
    obtain ⟨-, h2, h3, h4, hto⟩ := hres
    have hidx : (UInt32.ofNat idx).toNat = idx := by
      rw [UInt32.toNat_ofNat']
      omega
    dsimp only
    split_ifs with hlt
    · refine Post.pure ?_
      rw [hidx] at hlt ⊢
      exact ⟨⟨hlt, h3, fun j hj => h4 j (by omega) hj⟩, hto⟩
    · rw [hidx] at hlt
      exact Post.throw ⟨rfl, fun j hj => h4 j (by omega) (by simp at hlt; omega)⟩

theorem alloc_inode_spec (hc : s.geom.covers) : Post alloc_inode s
      (fun ino s' => FreshInode s.blk ino.toNat ∧ s.To s' (setBit s.blk 1 ino.toNat true))
      (fun e _ => e.off_device = false ∧ ∀ j < 1024, bitAt s.blk 1 j = true) :=
  alloc_inode_on s fun b hb => hc.holds (by omega)

end HepOS.HepFS
