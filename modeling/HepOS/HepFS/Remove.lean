/-
`remove`: giving back the blocks of an inode, the inode and its entry.

The free loops walk the pointer levels like the reader does and stop a table at its first
zero pointer; since the occupied slots form a prefix, they reach every block the inode
owns. `Freed D₀ n P D` says that `D` is `D₀` with the bits of the blocks in the slots `P`
cleared. After the loops `P` is every slot, and the ledger of blocks loses the owner with
all it holds.
-/
import HepOS.HepFS.Create
import HepOS.HepFS.Pages

set_option autoImplicit false

namespace HepOS.HepFS

open Bytes Hoare Ledger

/-! ## Clearing bits -/

/-- The disk `D₀` with the bits of the blocks in the slots `P` of `n` cleared. -/
structure Freed (D₀ : Disk) (n : Inode) (P : Slot → Prop) (D : Disk) : Prop where
  frame : ∀ c, c < 2 ∨ 6 ≤ c → D c = D₀ c
  bits : ∀ c < 131072, bitAt D 2 c = true
    ↔ bitAt D₀ 2 c = true ∧ ¬ ∃ s, P s ∧ slotOf D₀ n s = c ∧ c ≠ 0

section

variable {D₀ D : Disk} {n : Inode} {P : Slot → Prop}

theorem Freed.start : Freed D₀ n (fun _ => False) D₀ where
  frame := fun _ _ => rfl
  bits := by
    intro c _
    refine ⟨fun h => ⟨h, ?_⟩, fun h => h.1⟩
    rintro ⟨s, hs, -⟩
    exact hs

theorem Freed.congr (h : Freed D₀ n P D) {P' : Slot → Prop}
    (hP : ∀ s, slotOf D₀ n s ≠ 0 → (P' s ↔ P s)) : Freed D₀ n P' D where
  frame := h.frame
  bits := by
    intro c hc
    rw [h.bits c hc]
    refine and_congr_right fun _ => not_congr (exists_congr fun s => ?_)
    constructor
    · rintro ⟨hs, hslot, hc0⟩
      exact ⟨(hP s (by rw [hslot]; exact hc0)).mpr hs, hslot, hc0⟩
    · rintro ⟨hs, hslot, hc0⟩
      exact ⟨(hP s (by rw [hslot]; exact hc0)).mp hs, hslot, hc0⟩

theorem Freed.step (h : Freed D₀ n P D) {sl : Slot} (hlt : slotOf D₀ n sl < 131072)
    (h0 : slotOf D₀ n sl ≠ 0) :
    Freed D₀ n (fun s => P s ∨ s = sl) (setBit D 2 (slotOf D₀ n sl) false) where
  frame := by
    intro c hc
    rw [setBit_apply_ne _ _ _ _ (by omega)]
    exact h.frame c hc
  bits := by
    intro c hc
    rw [bitAt_setBit]
    by_cases hcs : c = slotOf D₀ n sl
    · rw [if_pos hcs]
      refine iff_of_false (by simp) ?_
      rintro ⟨-, hnot⟩
      exact hnot ⟨sl, .inr rfl, hcs.symm, by rw [hcs]; exact h0⟩
    · rw [if_neg hcs, h.bits c hc]
      refine and_congr_right fun _ => not_congr ⟨?_, ?_⟩
      · rintro ⟨s, hs, hslot, hc0⟩
        exact ⟨s, .inl hs, hslot, hc0⟩
      · rintro ⟨s, hs | rfl, hslot, hc0⟩
        · exact ⟨s, hs, hslot, hc0⟩
        · exact absurd hslot.symm hcs

end

/-! ## The free loops -/

/-- The free loops, started in `s₀`, have cleared the slots `P` and taken at most `c` pages. -/
structure FreeRun (s₀ : Fs) (n : Inode) (P : Slot → Prop) (c : ℕ) (s : Fs) : Prop where
  since : s₀.To s s.blk
  freed : Freed s₀.blk n P s.blk
  taken : s.pages ≤ s₀.pages + c

/-- The inodes `remove` is specified for: their blocks are on the device and form a
prefix. -/
structure Freeable (s₀ : Fs) (n : Inode) (m t : ℕ) : Prop where
  covers : s₀.geom.covers
  range : ∀ s, slotOf s₀.blk n s ≠ 0 → 38 ≤ slotOf s₀.blk n s ∧ slotOf s₀.blk n s < 131072
  shape : Shape (slotOf s₀.blk n) m t

variable {b d : ℕ} {D : Disk} {name : String}

section

variable {s₀ s : Fs} {n : Inode} {m t c : ℕ} {P : Slot → Prop}

section

variable (h : FreeRun s₀ n P c s)

include h

theorem FreeRun.covers (F : Freeable s₀ n m t) : s.geom.covers := by
  rw [h.since.geom]
  exact F.covers

theorem FreeRun.congr {P' : Slot → Prop} (hP : ∀ s, slotOf s₀.blk n s ≠ 0 → (P' s ↔ P s)) :
    FreeRun s₀ n P' c s :=
  ⟨h.since, h.freed.congr hP, h.taken⟩

theorem FreeRun.lax {c' : ℕ} (hle : c ≤ c') : FreeRun s₀ n P c' s :=
  ⟨h.since, h.freed, h.taken.trans (Nat.add_le_add_left hle _)⟩

theorem FreeRun.free (F : Freeable s₀ n m t) {sl : Slot} (hb : slotOf s₀.blk n sl = b)
    (hb0 : b ≠ 0) :
    ∃ s', bitmap_set 2 b false s = .ok () s' ∧ FreeRun s₀ n (fun s => P s ∨ s = sl) (c + 1) s' := by
  subst hb
  have hr := F.range sl hb0
  obtain ⟨s', hset, ht⟩ := bitmap_set_spec s 2 (slotOf s₀.blk n sl) false
    ((h.covers F).holds (by omega))
  have htaken := (spends_bitmap_set (k := 0) _ _ _).high hset
  refine ⟨s', hset, ?_, ?_, by have := h.taken; omega⟩
  · rw [ht.blk]
    exact h.since.trans ht
  · rw [ht.blk]
    exact h.freed.step hr.2 hb0

/-- Table blocks are read as they were: only bit map blocks have changed. -/
theorem FreeRun.read (F : Freeable s₀ n m t) (hr : 38 ≤ b ∧ b < 131072) :
    ∃ s', read_block b s = .ok (s₀.blk b) s' ∧ FreeRun s₀ n P (c + 1) s' := by
  obtain ⟨s', hread, ht⟩ := read_block_spec s ((h.covers F).holds hr.2)
  have htaken := (spends_read_block (k := 0) _).high hread
  rw [h.freed.frame b (by omega)] at hread
  refine ⟨s', hread, ?_, ?_, by have := h.taken; omega⟩
  · rw [ht.blk]
    exact h.since.trans ht
  · rw [ht.blk]
    exact h.freed

end

/-- The slots the free loops are through with: the data slots before `j`, the level-1 tables
before `k`, and the indirect block once its turn was. -/
def Slot.Passed (j : ℕ) (ind : Prop) (k : ℕ) : Slot → Prop
  | .data i => i < j
  | .ind => ind
  | .dind => False
  | .l1 i => i < k

section

variable {p p' : Prop} {j j' k k' : ℕ}

theorem FreeRun.pass_data (h : FreeRun s₀ n (Slot.Passed j p k) c s) (F : Freeable s₀ n m t)
    (hb : slotOf s₀.blk n (.data j) = b) (hb0 : b ≠ 0) :
    ∃ s', bitmap_set 2 b false s = .ok () s'
      ∧ FreeRun s₀ n (Slot.Passed (j + 1) p k) (c + 1) s' := by
  obtain ⟨s', hset, h'⟩ := h.free F hb hb0
  refine ⟨s', hset, h'.congr fun sl _ => ?_⟩
  cases sl with
  | data i =>
    simp only [Slot.Passed, Slot.data.injEq]
    omega
  | ind | dind | l1 i => simp [Slot.Passed]

/-- Behind the last occupied slot there is nothing to give back. -/
theorem FreeRun.skip (h : FreeRun s₀ n (Slot.Passed j p k) c s) (F : Freeable s₀ n m t)
    (hj : min j m = min j' m) (hp : slotOf s₀.blk n .ind ≠ 0 → (p' ↔ p)) (hk : min k t = min k' t) :
    FreeRun s₀ n (Slot.Passed j' p' k') c s := by
  refine h.congr fun sl hne => ?_
  cases sl with
  | data i =>
    have := (F.shape.data i).mp hne
    simp only [Slot.Passed]
    omega
  | ind => exact hp hne
  | dind => exact Iff.rfl
  | l1 i =>
    have := (F.shape.l1 i).mp hne
    simp only [Slot.Passed]
    omega

end

theorem free_direct_spec (h : FreeRun s₀ n (fun _ => False) 0 s) (F : Freeable s₀ n m t) :
    ∃ s', each (fun blk : UInt32 => bitmap_set BLOCK_BM_BLOCK blk.toNat false) n.blocks s
      = .ok () s'
      ∧ FreeRun s₀ n (Slot.Passed 12 False 0) (min 12 m) s' := by
  have hblocks : n.blocks = n.direct.toList.take m := filter_direct F.shape
  have hlen : n.blocks.length = min m 12 := by
    rw [hblocks]
    simp
  obtain ⟨s', hrun, hI⟩ :=
    each_ok (g := fun blk : UInt32 => bitmap_set BLOCK_BM_BLOCK blk.toNat false)
    (I := fun k s => FreeRun s₀ n (Slot.Passed k False 0) k s) n.blocks
    (h.congr (fun sl _ => by cases sl <;> simp [Slot.Passed])) (by
      intro k hk s1 hI
      -- the pointer at this position is the data slot of the same number
      have hslot : slotOf s₀.blk n (.data k) = n.blocks[k].toNat := by
        rw [slotOf_data_direct _ _ (by omega)]
        simp only [hblocks, List.getElem_take, Vector.getElem_toList]
      have hne : n.blocks[k].toNat ≠ 0 := by
        rw [← hslot]
        exact (F.shape.data _).mpr (by omega)
      exact hI.pass_data F hslot hne)
  rw [hlen] at hI
  exact ⟨s', hrun, (hI.skip F (by omega) (fun _ => Iff.rfl) rfl).lax (by omega)⟩

section

variable (F : Freeable s₀ n m t)

include F

/-- A table whose entries are the blocks from `base` on: a page for each of them. -/
theorem free_table_spec {buf : Block} {base k : ℕ} {p : Prop}
    (hbuf : ∀ i < 1024, slotOf s₀.blk n (.data (base + i)) = (buf.ptr i).toNat) (l : ℕ) :
    ∀ (i c : ℕ) (s : Fs), i + l = 1024 →
      FreeRun s₀ n (Slot.Passed (base + i) p k) (c + min (base + i) m) s →
    ∃ s', free_table buf (List.range' i l) s = .ok () s'
      ∧ FreeRun s₀ n (Slot.Passed (base + 1024) p k) (c + min (base + 1024) m) s' := by
  induction l with
  | zero =>
    intro i c s hi h
    obtain rfl : i = 1024 := by omega
    exact ⟨s, rfl, h⟩
  | succ l ih =>
    intro i c s hi h
    have hslot := hbuf i (by omega)
    rw [List.range'_succ, free_table]
    by_cases hptr : buf.ptr i = 0
    · -- the first zero pointer is the end of the prefix, so nothing is left out
      rw [if_pos hptr]
      have hge : m ≤ base + i := F.shape.data_end (by rw [hslot, hptr]; rfl)
      exact ⟨s, rfl, (h.skip F (by omega) (fun _ => Iff.rfl) rfl).lax (by omega)⟩
    · rw [if_neg hptr]
      have hlt := (F.shape.data (base + i)).mp (by rw [hslot]; exact toNat_ne_zero.mpr hptr)
      obtain ⟨s', hset, h'⟩ := h.pass_data F hslot (toNat_ne_zero.mpr hptr)
      rw [bind_of_ok hset]
      exact ih (i + 1) c s' (by omega) (h'.lax (by omega))

theorem free_indirect_spec (h : FreeRun s₀ n (Slot.Passed 12 False 0) (min 12 m) s) :
    ∃ s', free_indirect n s = .ok () s'
      ∧ FreeRun s₀ n (Slot.Passed 1036 True 0) (2 + min 1036 m) s' := by
  rw [free_indirect]
  by_cases hind : n.indirect = 0
  · rw [if_neg (not_not.mpr hind)]
    have hm : ¬ 12 < m := fun hlt =>
      ind_ne_zero_of_data (by omega) (by omega) ((F.shape.data 12).mpr hlt) hind
    exact ⟨s, rfl, (h.skip F (by omega) (fun hne => absurd hind (toNat_ne_zero.mp hne)) rfl).lax
      (by omega)⟩
  · rw [if_pos hind]
    have hne : slotOf s₀.blk n .ind ≠ 0 := toNat_ne_zero.mpr hind
    have hr : 38 ≤ n.indirect.toNat ∧ n.indirect.toNat < 131072 := F.range .ind hne
    obtain ⟨s1, hread, h1⟩ := h.read F hr
    obtain ⟨s2, htab, h2⟩ :=
      free_table_spec F (fun i hi => slotOf_indirect_entry _ hind hi) 1024 0 1 s1 rfl
      (h1.lax (by omega))
    obtain ⟨s3, hset, h3⟩ := h2.free F (slotOf_ind _ _) hne
    refine ⟨s3, ?_, (h3.congr fun sl _ => by cases sl <;> simp [Slot.Passed]).lax (by omega)⟩
    rw [bind_of_ok hread, range_table, bind_of_ok htab]
    exact hset

/-- The level-1 tables, each after its entries: two more pages for each table. -/
theorem free_l1_tables_spec (hdind : n.dindirect ≠ 0) (l : ℕ) :
    ∀ (i : ℕ) (s : Fs), i + l = 1024 →
    FreeRun s₀ n (Slot.Passed (1036 + 1024 * i) True i)
      (3 + 2 * min i t + min (1036 + 1024 * i) m) s →
    ∃ s', free_l1_tables (s₀.blk n.dindirect.toNat) (List.range' i l) s = .ok () s'
      ∧ FreeRun s₀ n (Slot.Passed 1049612 True 1024) (3 + 2 * t + m) s' := by
  induction l with
  | zero =>
    intro i s hi h
    obtain rfl : i = 1024 := by omega
    exact ⟨s, rfl, h.lax (by omega)⟩
  | succ l ih =>
    intro i s hi h
    have hl1 := slotOf_l1_table s₀.blk hdind (i := i) (by omega)
    have hbuf := fun e => slotOf_l1_entry s₀.blk hdind (i := i) (j := e) (by omega)
    rw [List.range'_succ, free_l1_tables]
    split_ifs with hptr
    · -- no table from here on, and no data block behind one
      have hm : m ≤ 1036 + 1024 * i + 0 := F.shape.data_end (by rw [hbuf 0 (by omega), hptr]; rfl)
      have ht : t ≤ i := F.shape.l1_end (by rw [hl1, hptr]; rfl)
      exact ⟨s, rfl, (h.skip F (by omega) (fun _ => Iff.rfl) (by omega)).lax (by omega)⟩
    · have hb0 := toNat_ne_zero.mpr hptr
      have hr := F.range (.l1 i) (by rw [hl1]; exact hb0)
      rw [hl1] at hr
      obtain ⟨s1, hread, h1⟩ := h.read F hr
      have hlt := (F.shape.l1 i).mp (by rw [hl1]; exact hb0)
      obtain ⟨s2, htab, h2⟩ := free_table_spec F (fun e he => (hbuf e he).trans (if_neg hb0)) 1024 0
        (4 + 2 * min i t) s1 rfl (h1.lax (by omega))
      obtain ⟨s3, hset, h3⟩ := h2.free F hl1 hb0
      rw [bind_of_ok hread, range_table, bind_of_ok htab,
        bind_of_ok (show bitmap_set BLOCK_BM_BLOCK _ false s2 = _ from hset)]
      refine ih (i + 1) s3 (by omega) ((h3.congr fun sl _ => ?_).lax (by omega))
      cases sl with
      | data j => simp [Slot.Passed, Nat.mul_succ, Nat.add_assoc]
      | ind | dind => simp [Slot.Passed]
      | l1 x =>
        simp only [Slot.Passed, Slot.l1.injEq]
        omega

theorem free_dindirect_spec (h : FreeRun s₀ n (Slot.Passed 1036 True 0) (2 + min 1036 m) s) :
    ∃ s', free_dindirect n s = .ok () s' ∧ FreeRun s₀ n (fun _ => True) (4 + 2 * t + m) s' := by
  rw [free_dindirect]
  by_cases hdind : n.dindirect = 0
  · rw [if_neg (not_not.mpr hdind)]
    refine ⟨s, rfl, (h.congr ?_).lax (by omega)⟩
    intro sl hne
    refine iff_of_true trivial ?_
    cases sl with
    | data j =>
      by_contra hj
      have hl1 := l1_ne_zero_of_data (Nat.not_lt.mp hj) hne
      exact (dind_ne_zero_of_l1 hl1).1 hdind
    | ind => exact trivial
    | dind => exact absurd hdind (toNat_ne_zero.mp hne)
    | l1 x => exact absurd hdind (dind_ne_zero_of_l1 hne).1
  · rw [if_pos hdind]
    have hne : slotOf s₀.blk n .dind ≠ 0 := toNat_ne_zero.mpr hdind
    have hr : 38 ≤ n.dindirect.toNat ∧ n.dindirect.toNat < 131072 := F.range .dind hne
    obtain ⟨s1, hread, h1⟩ := h.read F hr
    obtain ⟨s2, htab, h2⟩ := free_l1_tables_spec F hdind 1024 0 s1 rfl (h1.lax (by omega))
    obtain ⟨s3, hset, h3⟩ := h2.free F (slotOf_dind _ _) hne
    refine ⟨s3, ?_, (h3.congr ?_).lax (by omega)⟩
    · rw [bind_of_ok hread, range_table, bind_of_ok htab]
      exact hset
    · intro sl hne
      have hmem := mem_allSlots_of_ne_zero hne
      refine iff_of_true trivial ?_
      cases sl with
      | data j => exact .inl (mem_allSlots_data_iff.mp hmem)
      | ind => exact .inl trivial
      | dind => exact .inr rfl
      | l1 x => exact .inl (mem_allSlots_l1_iff.mp hmem)

/-- `free_blocks` clears the bit of every block the inode owns. -/
theorem free_blocks_spec :
    ∃ s', free_blocks n s₀ = .ok () s' ∧ FreeRun s₀ n (fun _ => True) (4 + 2 * t + m) s' := by
  have h0 : FreeRun s₀ n (fun _ => False) 0 s₀ := ⟨Fs.To.rfl s₀, Freed.start, le_rfl⟩
  obtain ⟨s1, hdir, h1⟩ := free_direct_spec h0 F
  obtain ⟨s2, hind, h2⟩ := free_indirect_spec F h1
  obtain ⟨s3, hdind, h3⟩ := free_dindirect_spec F h2
  refine ⟨s3, ?_, h3⟩
  rw [free_blocks, bind_of_ok hdir, bind_of_ok hind]
  exact hdind

end

end

/-- The slots of the prefix are among those an inode owns. -/
theorem Shape.count_le {n : Inode} {m t : ℕ} (h : Shape (slotOf D n) m t) :
    m + t ≤ (owned D n).length := by
  have hnd : ((List.range m).map Slot.data ++ (List.range t).map Slot.l1).Nodup := by
    refine List.Nodup.append (List.nodup_range.map fun _ _ => Slot.data.inj)
      (List.nodup_range.map fun _ _ => Slot.l1.inj) ?_
    intro s hdata hl1
    obtain ⟨j, -, rfl⟩ := List.mem_map.mp hdata
    simp at hl1
  have hsub : ((List.range m).map Slot.data ++ (List.range t).map Slot.l1)
      ⊆ allSlots.filter (fun s => slotOf D n s ≠ 0) := by
    intro s hs
    have hne : slotOf D n s ≠ 0 := by
      rcases List.mem_append.mp hs with hs | hs
      · obtain ⟨j, hj, rfl⟩ := List.mem_map.mp hs
        exact (h.data j).mpr (List.mem_range.mp hj)
      · obtain ⟨i, hi, rfl⟩ := List.mem_map.mp hs
        exact (h.l1 i).mpr (List.mem_range.mp hi)
    exact List.mem_filter.mpr ⟨mem_allSlots_of_ne_zero hne, by simpa using hne⟩
  have hle := (hnd.subperm hsub).length_le
  rw [List.length_append, List.length_map, List.length_map, List.length_range,
    List.length_range] at hle
  rwa [length_owned, heldCount, List.countP_eq_length_filter]

/-! ## Freeing the inode -/

/-- The disk `D₀` after inode `i` and its blocks were given back. -/
structure Released (D₀ : Disk) (i : ℕ) (D : Disk) : Prop where
  data : ∀ c, c = 0 ∨ 38 ≤ c → D c = D₀ c
  self : (inodeAt D i).flags = F_FREE
  other : ∀ j < 1024, j ≠ i → inodeAt D j = inodeAt D₀ j
  bits : ∀ c < 131072, bitAt D 2 c = true ↔ bitAt D₀ 2 c = true ∧ c ∉ owned D₀ (inodeAt D₀ i)
  inode_bits : ∀ j < 32768, bitAt D 1 j = if j = i then false else bitAt D₀ 1 j

/-- The free loops, then the two writes that free the inode. -/
theorem Freed.released {D₀ : Disk} {i : ℕ} (h : Freed D₀ (inodeAt D₀ i) (fun _ => True) D)
    (hi : i < 1024) :
    Released D₀ i (putInode (setBit D 1 i false) i { (default : Inode) with flags := F_FREE }) where
  data := by
    intro c hc
    rw [putInode_apply_ne _ _ _ (by omega), setBit_apply_ne _ _ _ _ (by omega)]
    exact h.frame c (by omega)
  self := by rw [inodeAt_putInode_same]
  other := by
    intro j hj hji
    rw [inodeAt_putInode_ne _ _ hji]
    refine inodeAt_congr ?_
    rw [setBit_apply_ne _ _ _ _ (by omega)]
    exact h.frame _ (by omega)
  bits := by
    intro c hc
    rw [bitAt_congr (putInode_apply_ne _ _ _ (by omega)),
      bitAt_congr (setBit_apply_ne _ _ _ _ (by omega)), h.bits c hc, mem_owned]
    simp only [true_and]
  inode_bits := by
    intro j hj
    rw [bitAt_congr (putInode_apply_ne _ _ _ (by omega)), bitAt_setBit]
    by_cases hji : j = i
    · rw [if_pos hji, if_pos hji]
    · rw [if_neg hji, if_neg hji]
      exact bitAt_congr (h.frame _ (by omega))

section

variable {D₀ D : Disk} {i : ℕ}

theorem Released.live (h : Released D₀ i D) (j : ℕ) : Live (inodeAt D) j
    ↔ Live (inodeAt D₀) j ∧ j ≠ i := by
  by_cases hji : j = i
  · subst hji
    exact iff_of_false (fun hl => hl.2 h.self) (fun hc => hc.2 rfl)
  · constructor
    · intro hl
      refine ⟨⟨hl.1, ?_⟩, hji⟩
      rw [← h.other j hl.1 hji]
      exact hl.2
    · rintro ⟨hl, -⟩
      refine ⟨hl.1, ?_⟩
      rw [h.other j hl.1 hji]
      exact hl.2

/-- **Release.** The accounting holds without the inode. -/
theorem Released.acc (h : Released D₀ i D) (A : Acc D₀ (inodeAt D₀)) (hi : Live (inodeAt D₀) i) :
    Acc D (inodeAt D) := by
  have hslots : ∀ j, Live (inodeAt D₀) j → j ≠ i →
      slotOf D (inodeAt D j) = slotOf D₀ (inodeAt D₀ j) := by
    intro j hj hji
    rw [h.other j hj.1 hji]
    exact slotOf_frame (fun c hc => h.data c (.inr (A.owned_range hj hc).1))
  refine ⟨?_, ?_, ?_, ?_⟩
  · refine A.ledger.release hi h.live (fun j hj hji t => by rw [hslots j hj hji]) ?_
    intro c
    rw [UsedBlock, UsedBlock, and_assoc]
    refine and_congr_right fun hc => ?_
    rw [h.bits c hc, mem_owned]
  · intro j hj
    obtain ⟨hj, hji⟩ := (h.live j).mp hj
    rw [hslots j hj hji]
    exact A.shape j hj
  · intro j hj
    obtain ⟨hj, hji⟩ := (h.live j).mp hj
    rw [hslots j hj hji, h.other j hj.1 hji]
    exact A.nblocks j hj
  · intro j hj
    obtain ⟨hj, hji⟩ := (h.live j).mp hj
    rw [h.other j hj.1 hji]
    exact A.kind j hj

theorem Released.view (h : Released D₀ i D) (A : Acc D₀ (inodeAt D₀)) (hi : i < 1024)
    (hnone : ∀ q, (view D₀).entry i q = none) :
    view D = { (view D₀).setFlags i F_FREE with
      bytes := Function.update (view D₀).bytes i [] } := by
  have hkind : kindAt D i = F_FREE := by
    rw [kindAt_of_lt _ hi]
    exact h.self
  have hentry : (HepFS.view D).entry i = (HepFS.view D₀).entry i := by
    funext q
    rw [hnone, view_entry_of_not_dir (by rw [hkind]; decide)]
  have hbytes : (HepFS.view D).bytes i = [] := view_bytes_of_not_file (by rw [hkind]; decide)
  rw [view_update A h.other
    (fun j hj _ c hc => h.data c (.inr (A.owned_range hj hc).1)), hkind, hentry, hbytes]
  refine View.ext rfl ?_ rfl
  exact Function.update_eq_self i _

end

/-! ## Clearing an entry -/

@[simp] theorem DirEntry.meaning_default : (default : DirEntry).meaning = none := rfl

/-- `clear_entry` overwrites an entry for `ino`, if there is one. -/
theorem clear_entry_spec (s : Fs) (hc : s.geom.covers) (A : Acc s.blk (inodeAt s.blk))
    (hd : Live (inodeAt s.blk) d) (ino : UInt32) :
    (∃ q s', clear_entry (inodeAt s.blk d) ino s = .ok true s' ∧ q ∈ places (inodeAt s.blk d)
      ∧ (entryAt s.blk q).inode = ino ∧ s.To s' (putEntry s.blk q default))
    ∨ (∃ s', clear_entry (inodeAt s.blk d) ino s = .ok false s' ∧ s.To s' s.blk
      ∧ ∀ q ∈ places (inodeAt s.blk d), (entryAt s.blk q).inode ≠ ino) := by
  obtain ⟨r, s1, hscan, ht1, hres⟩ := scan_inode_spec s hc A hd (fun e => e.inode = ino)
  rw [clear_entry, bind_of_ok hscan]
  cases r with
  | none =>
    refine .inr ⟨s1, rfl, ht1, ?_⟩
    intro q hq
    simpa using hres q hq
  | some r =>
    obtain ⟨blk, buf, x⟩ := r
    obtain ⟨hq, rfl, htest⟩ := hres
    have hr := A.place_range hd hq
    obtain ⟨s2, hw, ht2⟩ := write_block_spec s1 ((s.blk blk.toNat).setEntry x default)
      (show s1.geom.serves blk.toNat by rw [ht1.geom]; exact hc.holds hr.2)
    refine .inl ⟨(blk.toNat, x), s2, ?_, hq, by simpa using htest, ?_⟩
    · dsimp only
      rw [bind_of_ok hw]
      rfl
    · rw [putEntry]
      rw [ht1.blk] at ht2
      exact ht1.trans ht2

/-! ## `remove` -/

theorem has_entries_spec (s : Fs) (hc : s.geom.covers) (A : Acc s.blk (inodeAt s.blk))
    (ino : UInt32) (hlive : Live (inodeAt s.blk) ino.toNat) :
    ∃ r s', has_entries ino (inodeAt s.blk ino.toNat) s = .ok r s' ∧ s.To s' s.blk
      ∧ (r = true ↔ kindAt s.blk ino.toNat = F_DIR ∧ ∃ q x,
        (view s.blk).entry ino.toNat q = some x) := by
  have hkind := kindAt_of_lt s.blk hlive.1
  rw [has_entries]
  split_ifs with hdir
  · have hd : kindAt s.blk ino.toNat = F_DIR := by rw [hkind, hdir]
    obtain ⟨s1, hlist, ht1⟩ := list_dir_spec s hc A ino hd
    refine ⟨_, s1, by rw [bind_of_ok hlist]; rfl, ht1, ?_⟩
    rw [Bool.not_eq_true', ← Bool.not_eq_true, List.isEmpty_iff, and_iff_right hd]
    constructor
    · intro hne
      obtain ⟨⟨j, name⟩, hmem⟩ := List.exists_mem_of_ne_nil _ hne
      obtain ⟨q, hq⟩ := (mem_listing hd).mp hmem
      exact ⟨q, _, hq⟩
    · rintro ⟨q, ⟨j, name⟩, hq⟩ hnil
      have hj : (entryAt s.blk q).inode.toNat = j := (view_entry_some.mp hq).2.2.2.1
      have hmem : ((entryAt s.blk q).inode, name) ∈ listing s.blk (inodeAt s.blk ino.toNat) :=
        (mem_listing hd).mpr ⟨q, by rw [hj]; exact hq⟩
      rw [hnil] at hmem
      simp at hmem
  · refine ⟨false, s, rfl, Fs.To.rfl s, iff_of_false (by simp) ?_⟩
    rintro ⟨hd, -⟩
    rw [hkind] at hd
    exact hdir hd

/-- What `remove` has done when it returns `r`. -/
def RemoveResult (D₀ : Disk) (d : ℕ) (name : String) (D : Disk) : Bool → Prop
  | false => D = D₀ ∧ ((∀ q i, (view D₀).entry d q ≠ some (i, name))
      ∨ ∃ q i, (view D₀).entry d q = some (i, name) ∧ kindAt D₀ i = F_DIR
        ∧ ∃ q' x, (view D₀).entry i q' = some x)
  | true => ∃ q i, (view D₀).entry d q = some (i, name) ∧ i ≠ 0
      ∧ (kindAt D₀ i = F_DIR → ∀ t, (view D₀).entry i t = none)
      ∧ Inv D ∧ view D = (view D₀).remove i d q

theorem entry_of_named {q : ℕ × ℕ} (hd : kindAt D d = F_DIR)
    (hq : q ∈ places (inodeAt D d)) (h : (entryAt D q).named name = true) : (entryAt D q).inode ≠ 0
      ∧ (view D).entry d q = some ((entryAt D q).inode.toNat, name) := by
  simp only [DirEntry.named, decide_eq_true_eq] at h
  exact ⟨h.1, view_entry_some.mpr ⟨hd, hq, h.1, rfl, h.2⟩⟩

theorem no_entry_of_named
    (h : ∀ q ∈ places (inodeAt D d), (entryAt D q).named name = false) (q : ℕ × ℕ) (i : ℕ) :
    (view D).entry d q ≠ some (i, name) := by
  intro he
  obtain ⟨-, hq, hne, -, hname⟩ := view_entry_some.mp he
  have := h q hq
  rw [DirEntry.named, decide_eq_false_iff_not] at this
  exact this ⟨hne, hname⟩

/-- Giving back an inode that is linked at `q` and clearing its entry. -/
theorem Inv.unlink {D₀ : Disk} {i : ℕ} {q : ℕ × ℕ} (I : Inv D₀)
    (R : Released D₀ i D) (hi0 : i ≠ 0) (hd : kindAt D₀ d = F_DIR)
    (hq : (view D₀).entry d q = some (i, name))
    (hempty : kindAt D₀ i = F_DIR → ∀ t, (view D₀).entry i t = none) :
    Inv (putEntry D q default) ∧ view (putEntry D q default) = (view D₀).remove i d q := by
  have hlive := I.live_of_entry hq
  have hpar := live_of_dir hd
  have hnone : ∀ t, (view D₀).entry i t = none := by
    intro t
    by_cases hdir : kindAt D₀ i = F_DIR
    · exact hempty hdir t
    · exact view_entry_of_not_dir hdir t
  have hne : d ≠ i := by
    rintro rfl
    rw [hnone] at hq
    simp at hq
  have A := R.acc I.acc hlive
  have hsame : inodeAt D d = inodeAt D₀ d := R.other _ hpar.1 hne
  have hlive' : Live (inodeAt D) d := (R.live _).mpr ⟨hpar, hne⟩
  have hd' : kindAt D d = F_DIR := by
    rw [kindAt_of_lt _ hpar.1, hsame, ← kindAt_of_lt _ hpar.1]
    exact hd
  have hq' : q ∈ places (inodeAt D d) := by
    rw [hsame]
    exact (view_entry_some.mp hq).2.1
  have hview : view (putEntry D q default) = (view D₀).remove i d q := by
    rw [view_putEntry A hd' hq', R.view I.acc hlive.1 hnone, DirEntry.meaning_default]
    rfl
  refine ⟨⟨A.putEntry hlive' hq', ?_, ?_⟩, hview⟩
  · intro j hj
    have hr := A.place_range hlive' hq'
    rw [bitAt_congr (putEntry_apply_ne (by omega)), R.inode_bits j hj, ← view_flags, hview,
      View.flags_remove]
    by_cases hji : j = i
    · rw [if_pos hji, if_pos hji]
      exact iff_of_false (by simp) (by simp)
    · rw [if_neg hji, if_neg hji]
      exact I.inode_bits j hj
  · rw [hview]
    exact I.linked.remove hi0 hd hq hempty

/-- The part of `remove` after its checks. -/
theorem remove_inode_frees (s : Fs) (hc : s.geom.covers) (I : Inv s.blk) (parent_ino ino : UInt32)
    (q : ℕ × ℕ) (name : String) (hd : kindAt s.blk parent_ino.toNat = F_DIR) (hi0 : ino.toNat ≠ 0)
    (hq : (view s.blk).entry parent_ino.toNat q = some (ino.toNat, name))
    (hempty : kindAt s.blk ino.toNat = F_DIR → ∀ t, (view s.blk).entry ino.toNat t = none) :
    ∃ s' D, (do
        free_blocks (inodeAt s.blk ino.toNat)
        bitmap_set INODE_BM_BLOCK ino.toNat false
        write_inode ino { (default : Inode) with flags := F_FREE }
        let parent ← read_inode parent_ino
        let _removed ← clear_entry parent ino
        pure true : FsM Bool) s = .ok true s'
      ∧ Released s.blk ino.toNat D ∧ s.To s' (putEntry D q default)
      ∧ s'.pages ≤ s.pages + 19 + 2 * (owned s.blk (inodeAt s.blk ino.toNat)).length := by
  have hlive := I.live_of_entry hq
  have hlt := hlive.1
  have hpar := live_of_dir hd
  -- the parent has an entry and the inode has none
  have hne : parent_ino.toNat ≠ ino.toNat := by
    intro h
    rw [h] at hd hq
    rw [hempty hd] at hq
    simp at hq
  obtain ⟨m, t, hsh⟩ := I.acc.shape _ hlive
  obtain ⟨s1, hfree, h1⟩ := free_blocks_spec
    ⟨hc, fun sl hsl => I.acc.range hlive hsl, hsh⟩
  have hc1 := hc.of_eq h1.since.geom
  obtain ⟨s2, hbit, ht2⟩ := bitmap_set_spec s1 1 ino.toNat false (hc1.holds (by omega))
  have hc2 := hc1.of_eq ht2.geom
  obtain ⟨s3, hwrite, ht3⟩ := write_inode_spec s2 ino { (default : Inode) with flags := F_FREE }
    (hc2.holds_inode hlt)
  have hc3 := hc2.of_eq ht3.geom
  have hto3 : s.To s3 s3.blk := by
    rw [ht3.blk]
    exact h1.since.trans (ht2.trans ht3)
  have R : Released s.blk ino.toNat s3.blk := by
    rw [ht3.blk, ht2.blk]
    exact h1.freed.released hlt
  have A3 := R.acc I.acc hlive
  obtain ⟨s4, hread, ht4⟩ := read_inode_spec s3 parent_ino (hc3.holds_inode hpar.1)
  have hc4 := hc3.of_eq ht4.geom
  -- freeing the inode leaves the record and the entries of its parent
  have hpar3 : inodeAt s3.blk parent_ino.toNat = inodeAt s.blk parent_ino.toNat :=
    R.other _ hpar.1 hne
  have hlive3 : Live (inodeAt s3.blk) parent_ino.toNat := (R.live _).mpr ⟨hpar, hne⟩
  have hentry3 : ∀ q ∈ places (inodeAt s.blk parent_ino.toNat),
      entryAt s3.blk q = entryAt s.blk q := by
    intro q hq
    rw [entryAt, entryAt, R.data _ (.inr (I.acc.place_range hpar hq).1)]
  obtain ⟨-, hmem, hne0, hino, -⟩ := view_entry_some.mp hq
  have hclear := clear_entry_spec s4 hc4 (by rw [ht4.blk]; exact A3)
    (by rw [ht4.blk]; exact hlive3) ino
  rw [ht4.blk] at hclear
  rcases hclear with ⟨q', s5, hrun, hq', hino', ht5⟩ | ⟨s5, -, -, hno⟩
  · -- the entry that is cleared is the one that was found: an inode is linked once
    have hsame : q' = q := by
      rw [hpar3] at hq'
      rw [hentry3 q' hq'] at hino'
      have he' : (view s.blk).entry parent_ino.toNat q'
          = some (ino.toNat, (entryAt s.blk q').name_str) := by
        refine view_entry_some.mpr ⟨hd, hq', ?_, by rw [hino'], rfl⟩
        rw [hino']
        exact toNat_ne_zero.mp hi0
      have hheld := View.held_of_entry he'
      refine (I.linked.ledger.inj parent_ino.toNat parent_ino.toNat hd hd q' q ?_ ?_).2
      · rw [hheld]
        exact hi0
      · rw [hheld, View.held_of_entry hq]
    subst hsame
    have hpages : s5.pages ≤ s.pages + 19 + 2 * (owned s.blk (inodeAt s.blk ino.toNat)).length := by
      have := h1.taken
      have := hsh.count_le
      have := (spends_bitmap_set (k := 0) _ _ _).high hbit
      have := (spends_write_inode (k := 0) _ _).high hwrite
      have := (spends_read_inode (k := 0) _).high hread
      have := (spends_clear_entry (k := 0) _ _).high hrun
      omega
    refine ⟨s5, s3.blk, ?_, R, hto3.trans (ht4.trans ht5), hpages⟩
    rw [bind_of_ok hfree, bind_of_ok (show bitmap_set INODE_BM_BLOCK _ false s1 = _ from hbit),
      bind_of_ok hwrite, bind_of_ok hread, bind_of_ok hrun]
    rfl
  · -- it cannot be missing
    refine absurd ?_ (hno q (by rw [hpar3]; exact hmem))
    rw [hentry3 q hmem]
    exact UInt32.toNat_inj.mp hino

/-- What `remove` has done to the disk when it returns `r`, and the pages it took. -/
def RemoveDisk (D₀ : Disk) (d : ℕ) (name : String) (D : Disk) (pages : ℕ) : Bool → Prop
  | false => RemoveResult D₀ d name D false
  | true => ∃ q i D₁, (view D₀).entry d q = some (i, name) ∧ i ≠ 0
      ∧ (kindAt D₀ i = F_DIR → ∀ t, (view D₀).entry i t = none)
      ∧ Released D₀ i D₁ ∧ D = putEntry D₁ q default
      ∧ pages ≤ 46 + 2 * (owned D₀ (inodeAt D₀ i)).length

/-- `remove`, down to the blocks. -/
theorem remove_frees (s : Fs) (hc : s.geom.covers) (I : Inv s.blk) (parent_ino : UInt32)
    (name : String) (hd : kindAt s.blk parent_ino.toNat = F_DIR) :
    ∃ r s', remove parent_ino name s = .ok r s' ∧ s.Bumped s'
      ∧ RemoveDisk s.blk parent_ino.toNat name s'.blk (s'.pages - s.pages) r := by
  obtain ⟨s1, hbump, hb1, hblk1⟩ := bump_generation_spec s
  have hc1 := hc.of_eq hb1.geom
  have hpar := live_of_dir hd
  obtain ⟨r, s2, hfind, ht2, hres⟩ := find_in_dir_spec s1 hc1 (by rw [hblk1]; exact I.acc)
    parent_ino (by rw [hblk1]; exact hpar) name
  rw [hblk1] at ht2 hres
  rw [remove, bind_of_ok hbump, bind_of_ok hfind]
  cases r with
  | none =>
    exact ⟨false, s2, rfl, hb1.to ht2, ht2.blk, .inl (no_entry_of_named hres)⟩
  | some ino =>
    obtain ⟨q, hq, hnamed, rfl⟩ := hres
    obtain ⟨hne0, hentry⟩ := entry_of_named hd hq hnamed
    have hlive := I.live_of_entry hentry
    have hc2 := hc1.of_eq ht2.geom
    obtain ⟨s3, hread, ht3⟩ := read_inode_spec s2 (entryAt s.blk q).inode
      (hc2.holds_inode hlive.1)
    rw [ht2.blk] at hread ht3
    have hc3 := hc2.of_eq ht3.geom
    obtain ⟨r, s4, hhas, ht4, hiff⟩ := has_entries_spec s3 hc3 (by rw [ht3.blk]; exact I.acc)
      (entryAt s.blk q).inode (by rw [ht3.blk]; exact hlive)
    rw [ht3.blk] at hhas ht4 hiff
    dsimp only
    rw [bind_of_ok hread, if_neg hne0, bind_of_ok hhas]
    have hb4 := ((hb1.to ht2).to ht3).to ht4
    cases r with
    | true =>
      obtain ⟨hdir, q', x, hx⟩ := hiff.mp rfl
      exact ⟨false, s4, rfl, hb4, ht4.blk, .inr ⟨q, _, hentry, hdir, q', x, hx⟩⟩
    | false =>
      -- `has_entries` has said no: the inode is a file or an empty directory
      have hempty : kindAt s.blk (entryAt s.blk q).inode.toNat = F_DIR →
          ∀ t, (view s.blk).entry (entryAt s.blk q).inode.toNat t = none := by
        intro hdir t
        by_contra hsome
        obtain ⟨x, hx⟩ := Option.ne_none_iff_exists'.mp hsome
        exact absurd (hiff.mpr ⟨hdir, t, x, hx⟩) (by simp)
      have hc4 := hc3.of_eq ht4.geom
      have hrest := remove_inode_frees s4 hc4 (by rw [ht4.blk]; exact I) parent_ino
        (entryAt s.blk q).inode q name
      rw [ht4.blk] at hrest
      obtain ⟨s5, D, hrun, R, ht5, hpages⟩ := hrest hd (toNat_ne_zero.mpr hne0) hentry hempty
      have hpages5 : s5.pages - s.pages
          ≤ 46 + 2 * (owned s.blk (inodeAt s.blk (entryAt s.blk q).inode.toNat)).length := by
        have := (spends_bump_generation (k := 0)).high hbump
        have := (spends_find_in_dir (k := 0) _ _).high hfind
        have := (spends_read_inode (k := 0) _).high hread
        have := (spends_has_entries (k := 0) _ _).high hhas
        omega
      refine ⟨true, s5, ?_, hb4.to ht5, q, _, D, hentry, toNat_ne_zero.mpr hne0, hempty, R,
        ht5.blk, hpages5⟩
      exact hrun

/-- **`remove`.** It always returns: `false` with nothing changed if there is no such
entry or it is a directory with entries, `true` with the inode and its entry gone. -/
theorem remove_spec (s : Fs) (hc : s.geom.covers) (I : Inv s.blk) (parent_ino : UInt32)
    (name : String) (hd : kindAt s.blk parent_ino.toNat = F_DIR) :
    ∃ r s', remove parent_ino name s = .ok r s' ∧ s.Bumped s'
      ∧ RemoveResult s.blk parent_ino.toNat name s'.blk r := by
  obtain ⟨r, s', hrun, hb, hres⟩ := remove_frees s hc I parent_ino name hd
  refine ⟨r, s', hrun, hb, ?_⟩
  cases r with
  | false => exact hres
  | true =>
    obtain ⟨q, i, D, hentry, hi0, hempty, R, hblk, -⟩ := hres
    obtain ⟨I', hview⟩ := I.unlink R hi0 hd hentry hempty
    exact ⟨q, i, hentry, hi0, hempty, by rw [hblk]; exact I', by rw [hblk]; exact hview⟩

end HepOS.HepFS
