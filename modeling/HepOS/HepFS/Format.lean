/-
`format`: from an arbitrary disk to an empty file system.

What the disk held before does not matter, with one exception the invariant has to step
around: the blocks from 38 on are not cleared. They are free, so nothing reads them before
`alloc_block` zeroes them.

The blank disk, all bits clear but those of the metadata blocks and no inode in use, has
the accounting invariant already. The root directory is then created on it as any other
directory is: an inode without blocks, and a first block for it.
-/
import HepOS.HepFS.Copy

set_option autoImplicit false

namespace HepOS.HepFS

open Bytes Hoare Ledger List

/-! ## The empty file system -/

/-- A root directory and nothing else. -/
def View.root : View where
  flags := Function.update (fun _ => F_FREE) 0 F_DIR
  entry _ _ := none
  bytes _ := []

theorem View.flags_root (i : ℕ) : View.root.flags i = if i = 0 then F_DIR else F_FREE := by
  unfold View.root
  dsimp only
  rw [Function.update_apply]

theorem kindAt_of_root {D : Disk} (h : view D = View.root) (i : ℕ) :
    kindAt D i = if i = 0 then F_DIR else F_FREE := by
  rw [← view_flags, h, View.flags_root]

theorem View.linked_root : View.root.Linked := by
  have hheld : ∀ d q, View.root.held d q = 0 := fun _ _ => rfl
  refine ⟨View.flags_root 0, ?_, ?_, ?_⟩
  · intro i
    rw [View.flags_root]
    constructor
    · intro hi
      by_cases hi0 : i = 0
      · exact .inl hi0
      · rw [if_neg hi0] at hi
        exact absurd rfl hi
    · rintro (hi0 | ⟨d, -, q, hq, hne⟩)
      · rw [if_pos hi0]
        decide
      · exact absurd (hq.symm.trans (hheld d q)) hne
  · intro d _ _ _ q _ hne
    exact absurd (hheld d q) hne
  · intro d _ q hne
    exact absurd (hheld d q) hne

/-! ## The blank disk -/

/-- No inode is in use and no block but the metadata. -/
structure Blank (E : Disk) : Prop where
  blocks : ∀ c < 131072, bitAt E 2 c = decide (c < 38)
  inodes : ∀ j < 32768, bitAt E 1 j = false
  table : ∀ c, 6 ≤ c → c < 38 → E c = Mem.zero

section

variable {E : Disk}

section

variable (h : Blank E)

include h

theorem Blank.inodeAt {i : ℕ} (hi : i < 1024) : HepFS.inodeAt E i = default := by
  rw [HepFS.inodeAt, h.table _ (by omega) (by omega), Block.inode_zero]

theorem Blank.kindAt (i : ℕ) : HepFS.kindAt E i = F_FREE := by
  unfold HepFS.kindAt
  by_cases hi : i < 1024
  · rw [if_pos hi, h.inodeAt hi]
    rfl
  · rw [if_neg hi]

theorem Blank.not_live (i : ℕ) : ¬ Live (HepFS.inodeAt E) i := by
  rw [live_iff_kindAt, h.kindAt]
  exact not_not.mpr rfl

theorem Blank.acc : Acc E (HepFS.inodeAt E) := by
  refine ⟨⟨?_, ?_, ?_⟩, ?_, ?_, ?_⟩
  · intro c
    constructor
    · rintro ⟨hc, hbit⟩
      rw [h.blocks c hc] at hbit
      exact .inl (of_decide_eq_true hbit)
    · rintro (hc | ⟨i, hi, -⟩)
      · have hlt : c < 131072 := by omega
        exact ⟨hlt, by rw [h.blocks c hlt]; exact decide_eq_true hc⟩
      · exact absurd hi (h.not_live i)
  · exact fun i _ hi => absurd hi (h.not_live i)
  · exact fun i hi => absurd hi (h.not_live i)
  · exact fun i hi => absurd hi (h.not_live i)
  · exact fun i hi => absurd hi (h.not_live i)
  · exact fun i hi => absurd hi (h.not_live i)

theorem Blank.view :
    view E = { flags := fun _ => F_FREE, entry := fun _ _ => none, bytes := fun _ => [] } := by
  refine View.ext ?_ ?_ ?_
  · funext i
    exact h.kindAt i
  · funext d q
    exact view_entry_of_not_dir (by rw [h.kindAt]; decide) q
  · funext i
    exact view_bytes_of_not_file (by rw [h.kindAt]; decide)

theorem Blank.freeCount : freeCount E = 131034 := by
  have hfree : freeBlocks E = Finset.Ico 38 131072 := by
    ext c
    rw [mem_freeBlocks, Finset.mem_Ico]
    constructor
    · exact fun hc => ⟨hc.1, hc.2.1⟩
    · intro hc
      refine ⟨hc.1, hc.2, ?_⟩
      rw [h.blocks c hc.2]
      exact decide_eq_false (by omega)
  rw [HepFS.freeCount, hfree, Nat.card_Ico]

theorem Blank.root {b : UInt32} (hb : Fresh (setBit E 1 0 true) b.toNat) :
    Inv (putInode (grab (setBit E 1 0 true) b.toNat) 0 (dir_inode b))
      ∧ HepFS.view (putInode (grab (setBit E 1 0 true) b.toNat) 0 (dir_inode b)) = View.root
      ∧ HepFS.freeCount (putInode (grab (setBit E 1 0 true) b.toNat) 0 (dir_inode b)) = 131033 := by
  have hflags : (HepFS.inodeAt E 0).flags = F_FREE := by
    rw [h.inodeAt (by omega)]
    rfl
  have A1 := h.acc.newInode (by omega) hflags bare_dir (.inr rfl)
  have hview1 := view_newInode h.acc (by omega) hflags bare_dir rfl
  have hself1 : HepFS.inodeAt (newInode E 0 { (default : Inode) with flags := F_DIR }) 0
      = { (default : Inode) with flags := F_DIR } := inodeAt_newInode_same
  have hdir1 : HepFS.kindAt (newInode E 0 { (default : Inode) with flags := F_DIR }) 0 = F_DIR := by
    rw [kindAt_of_lt _ (by omega), hself1]
  have hb' : Fresh (newInode E 0 { (default : Inode) with flags := F_DIR }) b.toNat := by
    refine hb.congr ?_
    intro c hc
    exact bitAt_congr (putInode_apply_ne _ _ _ (by omega))
  have h0 : (HepFS.inodeAt (newInode E 0 { (default : Inode) with flags := F_DIR }) 0).direct[0]
      = 0 := by
    simp only [hself1]
    rfl
  have hgrow := growDir_newInode (D := E) (i := 0) (by omega) hb.ge hb.lt
  have A := A1.growDir (live_of_dir hdir1) (by omega) hb'
    (next_direct (by omega) h0 (fun i hi => absurd hi (Nat.not_lt_zero i)))
  have hview := view_growDir A1 hdir1 (by omega) hb' h0
  have hcount := freeCount_of_set hb'.mem
    (fun c hc => bitAt_growDir (d := 0) (j := 0) (by omega) (by omega) hb' hc)
  rw [hgrow] at A hview hcount
  have hroot : HepFS.view (putInode (grab (setBit E 1 0 true) b.toNat) 0 (dir_inode b))
      = View.root := by
    rw [hview, hview1, h.view]
    rfl
  refine ⟨⟨A, ?_, ?_⟩, hroot, ?_⟩
  · intro j hj
    have hge := hb.ge
    rw [← view_flags, hroot, View.flags_root, bitAt_congr (putInode_apply_ne _ _ _ (by omega)),
      bitAt_congr (grab_apply_ne _ (by omega) (by omega)), bitAt_setBit]
    by_cases hj0 : j = 0
    · rw [if_pos hj0, if_pos hj0]
      decide
    · rw [if_neg hj0, if_neg hj0, h.inodes j hj]
      simp
  · rw [hroot]
    exact View.linked_root
  · rw [freeCount_congr (fun c hc => bitAt_block_newInode (by omega) hc), h.freeCount] at hcount
    omega

end

end

/-! ## The loops -/

/-- A loop that clears the `n` blocks from `start` on. -/
theorem clear_blocks_spec (s : Fs) (start n : ℕ) (hdev : ∀ i < n, s.geom.serves (start + i)) :
    ∃ s', each (fun i => write_block (start + i) Mem.zero) (List.range n) s = .ok () s'
      ∧ s.To s' s'.blk ∧ (∀ i < n, s'.blk (start + i) = Mem.zero)
      ∧ ∀ c, c < start ∨ start + n ≤ c → s'.blk c = s.blk c := by
  obtain ⟨s', hrun, ht, hzero, hkeep⟩ := each_ok (List.range n)
    (I := fun k s' => s.To s' s'.blk ∧ (∀ i < k, s'.blk (start + i) = Mem.zero)
      ∧ ∀ c, c < start ∨ start + n ≤ c → s'.blk c = s.blk c)
    ⟨Fs.To.rfl s, by simp, fun _ _ => rfl⟩ (by
      rintro k hk s1 ⟨ht, hzero, hkeep⟩
      rw [getElem_range]
      rw [length_range] at hk
      obtain ⟨s2, hw, ht2⟩ := write_block_spec s1 Mem.zero (by rw [ht.geom]; exact hdev k hk)
      refine ⟨s2, hw, ?_, ?_, ?_⟩
      · rw [ht2.blk]
        exact ht.trans ht2
      · intro i hi
        rw [ht2.blk]
        by_cases hik : i = k
        · rw [hik, Disk.put_same]
        · rw [Disk.put_ne _ _ (by omega)]
          exact hzero i (by omega)
      · intro c hc
        rw [ht2.blk, Disk.put_ne _ _ (by omega), hkeep c hc])
  rw [length_range] at hzero
  exact ⟨s', hrun, ht, hzero, hkeep⟩

/-- The loop that marks the first `n` blocks as used. -/
theorem mark_blocks_spec (s : Fs) (hbm : ∀ b < 38, s.geom.serves b) (n : ℕ) (hn : n ≤ 131072) :
    ∃ s', each (fun b => bitmap_set 2 b true) (List.range n) s = .ok () s' ∧ s.To s' s'.blk
      ∧ (∀ c, bitAt s'.blk 2 c = if c < n then true else bitAt s.blk 2 c)
      ∧ ∀ c, c < 2 ∨ 6 ≤ c → s'.blk c = s.blk c := by
  obtain ⟨s', hrun, ht, hbits, hkeep⟩ := each_ok (List.range n)
    (I := fun k s' => s.To s' s'.blk
      ∧ (∀ c, bitAt s'.blk 2 c = if c < k then true else bitAt s.blk 2 c)
      ∧ ∀ c, c < 2 ∨ 6 ≤ c → s'.blk c = s.blk c)
    ⟨Fs.To.rfl s, fun c => (if_neg (Nat.not_lt_zero c)).symm, fun _ _ => rfl⟩ (by
      rintro k hk s1 ⟨ht, hbits, hkeep⟩
      rw [getElem_range]
      rw [length_range] at hk
      obtain ⟨s2, hw, ht2⟩ := bitmap_set_spec s1 2 k true (by rw [ht.geom]; exact hbm _ (by omega))
      refine ⟨s2, hw, ?_, ?_, ?_⟩
      · rw [ht2.blk]
        exact ht.trans ht2
      · intro c
        rw [ht2.blk, bitAt_setBit, hbits c]
        simp only [Nat.lt_succ_iff_lt_or_eq]
        by_cases hck : c = k
        · simp [hck]
        · simp [hck]
      · intro c hc
        rw [ht2.blk, setBit_apply_ne _ _ _ _ (by omega), hkeep c hc])
  rw [length_range] at hbits
  exact ⟨s', hrun, ht, hbits, hkeep⟩

/-! ## `format` -/

theorem bitAt_of_zero {D : Disk} {bm idx : ℕ} (h : D (bm + idx / 32768) = Mem.zero) :
    bitAt D bm idx = false := by
  rw [bitAt, h, Mem.byte_zero, hasBit_zero]

/-- **`format`.** On a device with the metadata blocks and one more it returns, and leaves an
empty file system. Blocks the device does not have are free in the bit map. -/
theorem format_on (s : Fs) (hdev : 39 ≤ s.geom.total_blocks) (hmem : s.geom.memory = none) :
    ∃ s', format s = .ok () s' ∧ s'.geom = s.geom ∧ Inv s'.blk ∧ view s'.blk = View.root
      ∧ freeCount s'.blk = 131033 ∧ ∀ c < 131072, bitAt s'.blk 2 c = decide (c < 39) := by
  have hall : ∀ {t : Fs}, t.geom = s.geom → ∀ b < 39, t.geom.serves b := by
    intro t ht b hb
    rw [ht]
    exact ⟨(s.geom.holds_iff b).mpr (by omega), hmem⟩
  obtain ⟨s1, hpage, ht1⟩ := page_alloc_spec s hmem
  have hg1 := ht1.geom
  obtain ⟨s2, hsuper, ht2⟩ := write_block_spec s1 ((Mem.zero : Block).write 0
    (encodeFields (superblock_fields (UInt64.ofNat s.geom.total_blocks))))
    (hall hg1 0 (by omega))
  have hg2 := ht2.geom.trans hg1
  obtain ⟨s3, hempty, ht3⟩ := page_alloc_spec s2 (by rw [hg2]; exact hmem)
  have hg3 := ht3.geom.trans hg2
  obtain ⟨s4, hclear, ht4, hzero4, -⟩ := clear_blocks_spec s3 1 5
    (fun i hi => hall hg3 _ (by omega))
  have hg4 := ht4.geom.trans hg3
  obtain ⟨s5, hmark, ht5, hbits5, hkeep5⟩ := mark_blocks_spec s4
    (fun b hb => hall hg4 b (by omega)) 38 (by omega)
  have hg5 := ht5.geom.trans hg4
  obtain ⟨s6, hroot, ht6⟩ := bitmap_set_spec s5 1 0 true (hall hg5 _ (by omega))
  have hg6 := ht6.geom.trans hg5
  obtain ⟨s7, htable, ht7, hzero7, hkeep7⟩ := clear_blocks_spec s6 6 32
    (fun i hi => hall hg6 _ (by omega))
  have hg7 := ht7.geom.trans hg6
  -- the disk before the root's bit is set, with the inode table cleared
  let E : Disk := fun c => if 6 ≤ c ∧ c < 38 then Mem.zero else s5.blk c
  have hE : ∀ c, c < 6 → E c = s5.blk c := fun c hlt => if_neg (by omega)
  have hblank : Blank E := by
    refine ⟨?_, ?_, fun c h1 h2 => if_pos ⟨h1, h2⟩⟩
    · intro c hlt
      rw [bitAt_congr (hE _ (by omega)), hbits5 c,
        bitAt_of_zero (by rw [show 2 + c / 32768 = 1 + (1 + c / 32768) by omega];
                          exact hzero4 _ (by omega))]
      by_cases hlow : c < 38
      · rw [if_pos hlow, decide_eq_true hlow]
      · rw [if_neg hlow, decide_eq_false hlow]
    · intro j hj
      rw [bitAt_congr (hE _ (by omega)), bitAt_congr (hkeep5 _ (by omega))]
      refine bitAt_of_zero ?_
      rw [show 1 + j / 32768 = 1 + 0 by omega]
      exact hzero4 0 (by omega)
  have hblk7 : s7.blk = setBit E 1 0 true := by
    funext c
    by_cases hc1 : c = 1
    · rw [hkeep7 c (by omega), ht6.blk, hc1, setBit, setBit]
      simp only [Nat.zero_div, Nat.add_zero, Disk.put_same]
      rw [hE 1 (by omega)]
    · rw [setBit_apply_ne E _ _ _ (by omega)]
      by_cases htab : 6 ≤ c ∧ c < 38
      · rw [show E c = Mem.zero from if_pos htab]
        have := hzero7 (c - 6) (by omega)
        rwa [show 6 + (c - 6) = c by omega] at this
      · rw [hkeep7 c (by omega), ht6.blk, setBit_apply_ne _ _ _ _ (by omega)]
        exact (if_neg htab).symm
  have hfree7 : freeCount s7.blk = 131034 := by
    rw [hblk7, ← hblank.freeCount]
    exact freeCount_congr (fun c hlt => bitAt_congr (setBit_apply_ne _ _ _ _ (by omega)))
  -- the least free block is the one behind the metadata
  have hleast : ∀ c, Fresh s7.blk c → c = 38 := by
    intro c hc
    have hge := hc.ge
    by_contra hne
    have hset := hc.least 38 (by omega) (by omega)
    rw [hblk7, bitAt_congr (setBit_apply_ne _ _ _ _ (by omega)),
      hblank.blocks 38 (by omega)] at hset
    exact absurd hset (by decide)
  obtain ⟨b, s8, halloc, hb, -, ht8⟩ :=
    (alloc_block_on s7 fun b hb => hall hg7 b (by omega)).exists_ok (by
    rintro e s' (⟨-, h0, -⟩ | ⟨-, c, hc, hno⟩)
    · omega
    · rw [hleast c hc] at hno
      exact hno (hall hg7 38 (by omega)).1)
  have hb38 : b.toNat = 38 := hleast b.toNat hb
  rw [hblk7] at hb ht8
  have hg8 := ht8.geom.trans hg7
  obtain ⟨s9, hinode, ht9⟩ := write_inode_spec s8 0 (dir_inode b)
    (hall hg8 6 (by omega))
  rw [ht8.blk] at ht9
  have hg9 := ht9.geom.trans hg8
  obtain ⟨s', hlast, ht'⟩ := write_block_spec s9 Mem.zero
    (show s9.geom.serves b.toNat by rw [hb38]; exact hall hg9 38 (by omega))
  -- the block is zero already
  have hsame : s9.blk b.toNat = Mem.zero := by
    rw [ht9.blk, putInode_apply_ne _ _ _ (by show b.toNat ≠ 6 + 0 / 32; omega)]
    exact grab_apply_same _ _
  rw [← hsame, Disk.put_self, ht9.blk] at ht'
  have hfinal := hblank.root hb
  refine ⟨s', ?_, ?_, ?_, ?_, ?_, ?_⟩
  · unfold format
    rw [bind_of_ok (show (get : FsM Fs) s = .ok s s from rfl), bind_of_ok hpage, bind_of_ok hsuper,
      bind_of_ok hempty, bind_of_ok hclear, bind_of_ok hmark, bind_of_ok hroot, bind_of_ok htable,
      bind_of_ok halloc,
      bind_of_ok (show write_inode ROOT_INO (root_inode b) s8 = .ok () s9 from hinode)]
    exact hlast
  · exact ht'.geom.trans hg9
  · rw [ht'.blk]
    exact hfinal.1
  · rw [ht'.blk]
    exact hfinal.2.1
  · rw [ht'.blk]
    exact hfinal.2.2
  · intro c hc
    rw [ht'.blk, bitAt_congr (putInode_apply_ne _ _ _ (by omega)), bitAt_grab _ hb.ge c hc,
      bitAt_congr (setBit_apply_ne _ _ _ _ (by omega)), hblank.blocks c hc, hb38]
    by_cases hc38 : c = 38
    · rw [if_pos hc38, hc38]
      rfl
    · rw [if_neg hc38]
      exact decide_eq_decide.mpr (by omega)

/-- The same, on a device with all the blocks the bit map describes. -/
theorem format_spec (s : Fs) (hc : s.geom.covers) :
    ∃ s', format s = .ok () s' ∧ s'.geom = s.geom ∧ Inv s'.blk ∧ view s'.blk = View.root
      ∧ freeCount s'.blk = 131033 := by
  obtain ⟨s', hrun, hgeom, hinv, hview, hcount, -⟩ := format_on s (by
    have := hc.1
    omega) hc.2
  exact ⟨s', hrun, hgeom, hinv, hview, hcount⟩

end HepOS.HepFS
