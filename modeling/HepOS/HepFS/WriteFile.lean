/-
The specification of `write_file`.

Each helper of `write_file` gets one specification over `Run`, the progress relation `Wr`
together with the machine state. The loops are inductions on what is left of their
counter; a loop either returns with the blocks it was responsible for written, or stops
with a panic that `WriteFails` accounts for. Chained, they give `write_file_spec`, whose
error side says exactly when the write cannot be done, so that a write that fits does
return (`write_file_returns`).
-/
import HepOS.HepFS.WriteStep

set_option autoImplicit false

namespace HepOS.HepFS

open Bytes Hoare Ledger Function List

variable {sl : Slot} {b : UInt32} {i : ℕ}

/-- A run of `write_file` that started in `s₀` is in state `s`, and has made the progress
`Wr` on the disk `D`. `D` is `s.blk` except in the loop of phase 2, where it is `s.blk`
with the table in memory already written back. -/
structure Run (s₀ : Fs) (V : ℕ → Inode) (f : ℕ) (data : List UInt8) (s : Fs) (D : Disk)
    (n : Inode) (idx : ℕ) : Prop where
  covers : s.geom.covers
  since : s₀.To s s.blk
  wr : Wr s₀.blk V f data D n idx

/-- The files `write_file` is specified for. -/
structure Target (s₀ : Fs) (V : ℕ → Inode) (f : ℕ) : Prop where
  acc : Acc s₀.blk V
  live : Live V f
  file : (V f).flags = F_FILE

section

variable {s₀ s : Fs} {V : ℕ → Inode} {f : ℕ} {data : List UInt8} {D : Disk} {n : Inode}
  {idx : ℕ}

theorem Run.to_of (h : Run s₀ V f data s D n idx) {s' : Fs} {D' : Disk} (ht : s.To s' D') :
    s'.geom.covers ∧ s₀.To s' s'.blk := by
  refine ⟨?_, ?_⟩
  · rw [ht.geom]
    exact h.covers
  · rw [ht.blk]
    exact h.since.trans ht

theorem Run.holds (h : Run s₀ V f data s D n idx) (T : Target s₀ V f)
    (hs : slotOf D n sl ≠ 0) : s.geom.serves (slotOf D n sl) :=
  h.covers.holds (h.wr.range T.live hs).2

/-! ## One chunk -/

/-- `write_chunk` writes block `idx` of the data and goes on to the next. -/
theorem write_chunk_spec (data : List UInt8) (idx : ℕ) (b : UInt32) (s : Fs)
    (hb : s.geom.serves b.toNat) :
    ∃ s', write_chunk b (data.drop (4096 * idx)) s = .ok (data.drop (4096 * (idx + 1))) s'
      ∧ s.To s' (s.blk.put b.toNat (chunkOf data idx)) := by
  obtain ⟨s1, hp, ht1⟩ := page_alloc_spec s hb.2
  have hchunk : Mem.zero.write 0 ((data.drop (4096 * idx)).take
      (min (data.drop (4096 * idx)).length 4096)) = chunkOf data idx := by
    rw [chunkOf, Nat.min_comm, ← take_take, take_length]
  have hrest : (data.drop (4096 * idx)).drop (min (data.drop (4096 * idx)).length 4096)
      = data.drop (4096 * (idx + 1)) := by
    rw [drop_drop, length_drop, Nat.mul_add, Nat.mul_one]
    by_cases hlen : data.length - 4096 * idx ≤ 4096
    · rw [Nat.min_eq_left hlen, drop_eq_nil_of_le (by omega),
        drop_eq_nil_of_le (by omega)]
    · rw [Nat.min_eq_right (by omega)]
  obtain ⟨s2, hw, ht2⟩ := write_block_spec s1 (chunkOf data idx)
    (show s1.geom.serves b.toNat by rw [ht1.geom]; exact hb)
  refine ⟨s2, ?_, ?_⟩
  · rw [write_chunk]
    rw [bind_of_ok hp, hchunk, bind_of_ok hw, hrest]
    rfl
  · rw [ht1.blk] at ht2
    exact ht1.trans ht2

/-- The progress a chunk makes when the disk is the one in the state. -/
theorem Run.chunk (h : Run s₀ V f data s s.blk n idx) (T : Target s₀ V f)
    (hb : slotOf s.blk n (.data idx) = b.toNat) (hb0 : b ≠ 0) :
    ∃ s', write_chunk b (data.drop (4096 * idx)) s = .ok (data.drop (4096 * (idx + 1))) s'
      ∧ Run s₀ V f data s' s'.blk n (idx + 1) := by
  have hne : slotOf s.blk n (.data idx) ≠ 0 := by
    rw [hb]
    exact toNat_ne_zero.mpr hb0
  have hholds := h.holds T hne
  rw [hb] at hholds
  obtain ⟨s', hw, ht⟩ := write_chunk_spec data idx b s hholds
  obtain ⟨hcov, hto⟩ := h.to_of ht
  have hwr := (h.wr.put T.acc T.live hne).1
  rw [hb, ← ht.blk] at hwr
  exact ⟨s', hw, hcov, hto, hwr⟩

/-! ## One allocation -/

/-- `alloc_block` for a slot that is to be filled: a fresh block, or the panic that
`WriteFails` allows. -/
theorem Run.alloc (h : Run s₀ V f data s s.blk n idx)
    (hempty : slotOf s.blk n sl = 0) (hneed : sl ∈ slotsFor (blocksFor data.length)) :
    Post alloc_block s
      (fun b s' => Fresh s.blk b.toNat ∧ s.To s' (grab s.blk b.toNat))
      (fun e _ => WriteFails s₀.blk (V f) data e) := by
  refine (alloc_block_spec s h.covers).mono (fun _ _ hq => hq) ?_
  rintro e s' ⟨rfl, hfree, -⟩
  exact h.wr.full hfree hempty hneed

/-- The progress an allocation makes when the code keeps the new pointer in the inode
it holds in memory. -/
theorem Run.grow (h : Run s₀ V f data s s.blk n idx) (T : Target s₀ V f)
    {s' : Fs} (hb : Fresh s.blk b.toNat) (hs : NextSlot s.blk n sl)
    (hneed : sl ∈ slotsFor (blocksFor data.length)) (ht : s.To s' (grown s.blk n sl b).1) :
    Run s₀ V f data s' s'.blk (grown s.blk n sl b).2 idx
      ∧ slotOf s'.blk (grown s.blk n sl b).2 sl = b.toNat ∧ b ≠ 0 := by
  obtain ⟨hcov, hto⟩ := h.to_of ht
  obtain ⟨hwr, hslots⟩ := h.wr.grow T.acc T.live T.file hb hs hneed
  rw [← ht.blk] at hwr hslots
  refine ⟨⟨hcov, hto, hwr⟩, ?_, ?_⟩
  · rw [hslots, update_self]
  · have hge := hb.ge
    rw [← toNat_ne_zero]
    omega

/-! ## Phase 1 -/

theorem ensure_direct_spec (h : Run s₀ V f data s s.blk n idx) (T : Target s₀ V f)
    (hidx : idx < 12) (hk : idx < blocksFor data.length) : Post (ensure_direct n idx hidx) s
      (fun n' s' => Run s₀ V f data s' s'.blk n' idx
        ∧ slotOf s'.blk n' (.data idx) = n'.direct[idx].toNat ∧ n'.direct[idx] ≠ 0)
      (fun e _ => WriteFails s₀.blk (V f) data e) := by
  have hslot := slotOf_data_direct s.blk n hidx
  rw [ensure_direct]
  split_ifs with h0
  · have hempty : slotOf s.blk n (.data idx) = 0 := by rw [hslot, h0]; rfl
    have hnext := h.wr.next_data hempty (by omega)
      (fun p hp => absurd hp (by simp [Slot.parent, hidx]))
    refine (h.alloc hempty (mem_slotsFor_data hk)).seq ?_
    rintro b s' ⟨hb, ht⟩
    refine Post.pure ?_
    have hgrown := grown_direct (D := s.blk) (n := n) (b := b) hidx
    have hrun := h.grow T hb hnext (mem_slotsFor_data hk)
      (show s.To s' (grown s.blk n (.data idx) b).1 by rw [hgrown]; exact ht)
    rw [hgrown] at hrun
    refine ⟨hrun.1, ?_, ?_⟩
    · rw [hrun.2.1, Vector.getElem_set_self]
    · rw [Vector.getElem_set_self]
      exact hrun.2.2
  · exact Post.pure ⟨h, hslot, h0⟩

/-- Phase 1 writes blocks until the data or the direct pointers end. -/
theorem write_direct_spec (T : Target s₀ V f) (k : ℕ) : ∀ (idx : ℕ) (s : Fs) (n : Inode),
    12 - idx = k → idx ≤ 12 → Run s₀ V f data s s.blk n idx →
    Post (write_direct n (data.drop (4096 * idx)) idx) s
      (fun r s' => ∃ idx', Run s₀ V f data s' s'.blk r.1 idx' ∧ r.2 = data.drop (4096 * idx')
        ∧ (blocksFor data.length ≤ idx' ∨ idx' = 12))
          (fun e _ => WriteFails s₀.blk (V f) data e) := by
  induction k with
  | zero =>
    intro idx s n hk hle h
    rw [write_direct, dif_neg (by rintro ⟨-, hlt⟩; simp only [DIRECT_PTRS] at hlt; omega)]
    exact Post.pure ⟨idx, h, rfl, .inr (by omega)⟩
  | succ k ih =>
    intro idx s n hk hle h
    rw [write_direct]
    by_cases hnil : data.drop (4096 * idx) = []
    · rw [dif_neg (fun hc => hc.1 hnil)]
      exact Post.pure ⟨idx, h, rfl, .inl ((drop_eq_nil_iff_blocksFor data idx).mp hnil)⟩
    · have hidx : idx < 12 := by omega
      have hlt : idx < blocksFor data.length := by
        rw [← Nat.not_le, ← drop_eq_nil_iff_blocksFor]
        exact hnil
      rw [dif_pos ⟨hnil, hidx⟩]
      refine (ensure_direct_spec h T hidx hlt).seq ?_
      rintro n' s' ⟨h', hslot, hne⟩
      obtain ⟨s'', hw, h''⟩ := h'.chunk T hslot hne
      exact Post.step hw (ih (idx + 1) s'' n' (by omega) (by omega) h'')

/-! ## Phase 2

The loop works on the table in memory, so its invariant is about the disk with that table
written back, `s.blk.put n.indirect.toNat buf`. -/

theorem Fresh.put {b t : ℕ} {p : Block} (h : Fresh D b) (ht : 38 ≤ t) : Fresh (D.put t p) b where
  ge := h.ge
  lt := h.lt
  clear := by rw [bitAt_put ht h.lt, h.clear]
  least := by
    intro j hj hjb
    have hlt := h.lt
    rw [bitAt_put ht (by omega), h.least j hj hjb]

/-- Claiming a block and writing another data block can be exchanged. -/
theorem grab_put {b t : ℕ} {p : Block} (htb : t ≠ b) (ht : 38 ≤ t) (hb : b < 131072) :
    grab (D.put t p) b = (grab D b).put t p := by
  have hbm : t ≠ 2 + b / 32768 := by omega
  rw [grab, grab, setBit, setBit, Disk.put_ne D p (Ne.symm hbm), Disk.put_comm _ _ _ hbm,
    Disk.put_comm _ _ _ htb]

theorem ensure_indirect_spec (h : Run s₀ V f data s s.blk n idx) (T : Target s₀ V f)
    (hk : 12 < blocksFor data.length) : Post (ensure_indirect n) s
      (fun n' s' => Run s₀ V f data s' s'.blk n' idx ∧ n'.indirect ≠ 0)
      (fun e _ => WriteFails s₀.blk (V f) data e) := by
  rw [ensure_indirect]
  split_ifs with h0
  · have hempty : slotOf s.blk n .ind = 0 := by rw [slotOf_ind, h0]; rfl
    refine (h.alloc hempty (mem_slotsFor_ind hk)).seq ?_
    rintro b s' ⟨hb, ht⟩
    refine Post.pure ?_
    have hrun := h.grow T hb (next_ind hempty) (mem_slotsFor_ind hk) ht
    exact ⟨hrun.1, hrun.2.2⟩
  · exact Post.pure ⟨h, h0⟩

/-- The entry of the table in memory that belongs to block `12 + i`. -/
theorem slotOf_put_indirect (buf : Block) (hind : n.indirect ≠ 0) (hi : i < 1024) :
    slotOf (D.put n.indirect.toNat buf) n (.data (12 + i)) = (buf.ptr i).toNat := by
  rw [slotOf_indirect_entry _ hind hi, Disk.put_same]

theorem ensure_entry_spec {buf : Block} (T : Target s₀ V f)
    (h : Run s₀ V f data s (s.blk.put n.indirect.toNat buf) n (12 + i))
    (hind : n.indirect ≠ 0) (hi : i < 1024) (hk : 12 + i < blocksFor data.length) :
    Post (ensure_entry n buf i) s
      (fun r s' => Run s₀ V f data s' (s'.blk.put r.1.indirect.toNat r.2.1) r.1 (12 + i)
        ∧ r.1.indirect ≠ 0 ∧ r.2.1.ptr i = r.2.2 ∧ r.2.2 ≠ 0)
          (fun e _ => WriteFails s₀.blk (V f) data e) := by
  have hslot := slotOf_put_indirect (D := s.blk) buf hind hi
  rw [ensure_entry]
  by_cases h0 : buf.ptr i = 0
  · rw [if_neg (not_not.mpr h0)]
    have htab : 38 ≤ n.indirect.toNat := (h.wr.range T.live (s := .ind) (toNat_ne_zero.mpr hind)).1
    have hempty : slotOf (s.blk.put n.indirect.toNat buf) n (.data (12 + i)) = 0 := by
      rw [hslot, h0]
      rfl
    have hnext := h.wr.next_data hempty (by omega) (by
      intro p hp
      rw [Slot.parent, if_neg (by omega), if_pos (by omega)] at hp
      cases hp
      exact toNat_ne_zero.mpr hind)
    have hneed := mem_slotsFor_data hk
    -- the allocation sees the disk without the table, whose bits are the same
    refine Post.andThen (alloc_block_spec s h.covers) ?_ ?_
    · rintro e s' ⟨rfl, hfree, -⟩
      refine h.wr.full ?_ hempty hneed
      rw [freeCount_congr (fun c hc => bitAt_put htab hc)]
      exact hfree
    · rintro b s' ⟨hb, ht⟩
      have hb' : Fresh (s.blk.put n.indirect.toNat buf) b.toNat := hb.put htab
      have hne : n.indirect.toNat ≠ b.toNat := by
        have := h.wr.acc.slot_ne_fresh hb' (h.wr.live T.live) .ind
        rwa [h.wr.self] at this
      have hgrown : grown (s.blk.put n.indirect.toNat buf) n (.data (12 + i)) b
          = ((grab s.blk b.toNat).put n.indirect.toNat (buf.setPtr i b),
            { n with nblocks := n.nblocks + 1 }) := by
        rw [grown_indirect (by omega) (by omega), grab_put hne htab hb.lt, Disk.put_same,
          Disk.put_put_same, Nat.add_sub_cancel_left]
      obtain ⟨hwr, -⟩ := h.wr.grow T.acc T.live T.file hb' hnext hneed
      rw [hgrown, ← ht.blk] at hwr
      obtain ⟨hcov, hto⟩ := h.to_of ht
      have hge := hb.ge
      have hb0 : b ≠ 0 := by
        rw [← toNat_ne_zero]
        omega
      exact Post.pure ⟨⟨hcov, hto, hwr⟩, hind, Block.ptr_setPtr_same _ _ hi, hb0⟩
  · rw [if_pos h0]
    exact Post.pure ⟨h, hind, rfl, h0⟩

/-- One chunk of the loop of phase 2: the table in memory stays as it is. -/
theorem Run.chunk_indirect {buf : Block} (T : Target s₀ V f)
    (h : Run s₀ V f data s (s.blk.put n.indirect.toNat buf) n (12 + i))
    (hind : n.indirect ≠ 0) (hi : i < 1024) (hb : buf.ptr i = b) (hb0 : b ≠ 0) :
    ∃ s', write_chunk b (data.drop (4096 * (12 + i))) s = .ok (data.drop (4096 * (12 + i + 1))) s'
      ∧ Run s₀ V f data s' (s'.blk.put n.indirect.toNat buf) n (12 + i + 1) := by
  have hslot := slotOf_put_indirect (D := s.blk) buf hind hi
  rw [hb] at hslot
  have hne : slotOf (s.blk.put n.indirect.toNat buf) n (.data (12 + i)) ≠ 0 := by
    rw [hslot]
    exact toNat_ne_zero.mpr hb0
  have hholds := h.holds T hne
  rw [hslot] at hholds
  obtain ⟨s', hw, ht⟩ := write_chunk_spec data (12 + i) b s hholds
  obtain ⟨hcov, hto⟩ := h.to_of ht
  have htab : n.indirect.toNat ≠ b.toNat := by
    intro heq
    rw [← hslot] at heq
    have := h.wr.slotInj T.live .ind (.data (12 + i)) (toNat_ne_zero.mpr hind) heq
    simp at this
  have hwr := (h.wr.put T.acc T.live hne).1
  rw [hslot, Disk.put_comm _ _ _ htab, ← ht.blk] at hwr
  exact ⟨s', hw, hcov, hto, hwr⟩

theorem write_indirect_loop_spec (T : Target s₀ V f) (k : ℕ) :
    ∀ (i : ℕ) (s : Fs) (n : Inode) (buf : Block), 1024 - i = k → i ≤ 1024 → n.indirect ≠ 0 →
    Run s₀ V f data s (s.blk.put n.indirect.toNat buf) n (12 + i) →
    Post (write_indirect_loop n buf (data.drop (4096 * (12 + i))) i) s
      (fun r s' => ∃ idx', Run s₀ V f data s' (s'.blk.put r.1.indirect.toNat r.2.1) r.1 idx'
        ∧ r.1.indirect ≠ 0 ∧ r.2.2 = data.drop (4096 * idx')
        ∧ (blocksFor data.length ≤ idx' ∨ idx' = 1036))
      (fun e _ => WriteFails s₀.blk (V f) data e) := by
  induction k with
  | zero =>
    intro i s n buf hk hle hind h
    rw [write_indirect_loop, dif_neg (by
      rintro ⟨-, hlt⟩
      simp only [PTRS_PER_INDIRECT, BLOCK_SIZE] at hlt
      omega)]
    exact Post.pure ⟨12 + i, h, hind, rfl, .inr (by omega)⟩
  | succ k ih =>
    intro i s n buf hk hle hind h
    rw [write_indirect_loop]
    by_cases hnil : data.drop (4096 * (12 + i)) = []
    · rw [dif_neg (fun hc => hc.1 hnil)]
      exact Post.pure ⟨12 + i, h, hind, rfl,
        .inl ((drop_eq_nil_iff_blocksFor data _).mp hnil)⟩
    · have hi : i < 1024 := by omega
      have hlt : 12 + i < blocksFor data.length := by
        rw [← Nat.not_le, ← drop_eq_nil_iff_blocksFor]
        exact hnil
      rw [dif_pos ⟨hnil, by simp only [PTRS_PER_INDIRECT, BLOCK_SIZE]; omega⟩]
      refine (ensure_entry_spec T h hind hi hlt).seq ?_
      rintro ⟨n', buf', b⟩ s' ⟨h', hind', hptr, hne⟩
      obtain ⟨s'', hw, h''⟩ := h'.chunk_indirect T hind' hi hptr hne
      exact Post.step hw (ih (i + 1) s'' n' buf' (by omega) (by omega) hind' h'')

/-- Phase 2 writes blocks until the data or the indirect table end. -/
theorem write_indirect_spec (T : Target s₀ V f) (h : Run s₀ V f data s s.blk n idx)
    (hidx : blocksFor data.length ≤ idx ∨ idx = 12) :
    Post (write_indirect n (data.drop (4096 * idx))) s
      (fun r s' => ∃ idx', Run s₀ V f data s' s'.blk r.1 idx' ∧ r.2 = data.drop (4096 * idx')
        ∧ (blocksFor data.length ≤ idx' ∨ idx' = 1036))
          (fun e _ => WriteFails s₀.blk (V f) data e) := by
  rw [write_indirect]
  by_cases hle : blocksFor data.length ≤ idx
  · rw [if_pos ((drop_eq_nil_iff_blocksFor data idx).mpr hle)]
    exact Post.pure ⟨idx, h, rfl, .inl hle⟩
  · obtain rfl : idx = 12 := hidx.resolve_left hle
    rw [if_neg (fun hnil => hle ((drop_eq_nil_iff_blocksFor data 12).mp hnil))]
    refine (ensure_indirect_spec h T (by omega)).seq ?_
    rintro n1 s1 ⟨h1, hind⟩
    have hholds : s1.geom.serves n1.indirect.toNat :=
      h1.holds T (show slotOf s1.blk n1 .ind ≠ 0 from toNat_ne_zero.mpr hind)
    obtain ⟨s2, hr, ht2⟩ := read_block_spec s1 hholds
    obtain ⟨hcov, hto⟩ := h1.to_of ht2
    have h2 : Run s₀ V f data s2 (s2.blk.put n1.indirect.toNat (s1.blk n1.indirect.toNat)) n1
        (12 + 0) := by
      refine ⟨hcov, hto, ?_⟩
      rw [ht2.blk, Disk.put_self]
      exact h1.wr
    refine Post.step hr ((write_indirect_loop_spec T 1024 0 s2 n1 _ rfl (by omega) hind h2).seq ?_)
    rintro ⟨n3, buf, rest⟩ s3 ⟨idx', h3, hind3, rfl, hend⟩
    have hholds3 : s3.geom.serves n3.indirect.toNat :=
      h3.holds T (show slotOf _ n3 .ind ≠ 0 from toNat_ne_zero.mpr hind3)
    obtain ⟨s4, hw, ht4⟩ := write_block_spec s3 buf hholds3
    obtain ⟨hcov4, hto4⟩ := h3.to_of ht4
    have hwr := h3.wr
    rw [← ht4.blk] at hwr
    exact Post.step hw (Post.pure ⟨idx', ⟨hcov4, hto4, hwr⟩, rfl, hend⟩)

/-! ## Phase 3 -/

theorem ensure_dindirect_spec (h : Run s₀ V f data s s.blk n idx) (T : Target s₀ V f)
    (hk : 1036 < blocksFor data.length) : Post (ensure_dindirect n) s
      (fun n' s' => Run s₀ V f data s' s'.blk n' idx ∧ n'.dindirect ≠ 0)
      (fun e _ => WriteFails s₀.blk (V f) data e) := by
  rw [ensure_dindirect]
  split_ifs with h0
  · have hempty : slotOf s.blk n .dind = 0 := by rw [slotOf_dind, h0]; rfl
    refine (h.alloc hempty (mem_slotsFor_dind hk)).seq ?_
    rintro b s' ⟨hb, ht⟩
    refine Post.pure ?_
    have hrun := h.grow T hb (next_dind hempty) (mem_slotsFor_dind hk) ht
    exact ⟨hrun.1, hrun.2.2⟩
  · exact Post.pure ⟨h, h0⟩

section

variable (T : Target s₀ V f) (h : Run s₀ V f data s s.blk n idx)

include T h

/-- `ensure_ptr` for any slot that is kept in a table block. Both levels of phase 3 are
instances: a level-1 table in the double-indirect table, a data block in a level-1 table. -/
theorem ensure_ptr_spec {p : Slot} {table : UInt32} (hneed : sl ∈ slotsFor (blocksFor data.length))
    (htab : slotOf s.blk n p = table.toNat) (htab0 : table ≠ 0)
    (hptr : slotOf s.blk n sl = ((s.blk table.toNat).ptr i).toNat)
    (hnext : slotOf s.blk n sl = 0 → NextSlot s.blk n sl)
    (hgrown : ∀ b : UInt32, slotOf (grab s.blk b.toNat) n = slotOf s.blk n →
      grown s.blk n sl b = ((grab s.blk b.toNat).put table.toNat
        ((grab s.blk b.toNat table.toNat).setPtr i b), { n with nblocks := n.nblocks + 1 })) :
    Post (ensure_ptr n table i) s
      (fun r s' => Run s₀ V f data s' s'.blk r.1 idx ∧ slotOf s'.blk r.1 sl = r.2.toNat
        ∧ r.2 ≠ 0 ∧ r.1.dindirect = n.dindirect)
      (fun e _ => WriteFails s₀.blk (V f) data e) := by
  have hp0 : slotOf s.blk n p ≠ 0 := by
    rw [htab]
    exact toNat_ne_zero.mpr htab0
  have hholds := h.holds T hp0
  have hge := (h.wr.range T.live hp0).1
  rw [htab] at hholds hge
  obtain ⟨s1, hr, ht1⟩ := read_block_spec s hholds
  obtain ⟨hcov1, hto1⟩ := h.to_of ht1
  have h1 : Run s₀ V f data s1 s1.blk n idx := ⟨hcov1, hto1, by rw [ht1.blk]; exact h.wr⟩
  refine Post.step hr ?_
  by_cases h0 : (s.blk table.toNat).ptr i = 0
  · rw [if_neg (not_not.mpr h0)]
    have hempty : slotOf s.blk n sl = 0 := by
      rw [hptr, h0]
      rfl
    refine (h1.alloc (show slotOf s1.blk n sl = 0 by rw [ht1.blk]; exact hempty) hneed).seq ?_
    rintro b s2 ⟨hb, ht2⟩
    rw [ht1.blk] at hb ht2
    have hlive := h.wr.live T.live
    have hself := h.wr.self
    have hne : table.toNat ≠ b.toNat := by
      have := h.wr.acc.slot_ne_fresh hb hlive p
      rwa [hself, htab] at this
    have hsame : slotOf (grab s.blk b.toNat) n = slotOf s.blk n := by
      have := h.wr.acc.slotOf_grab hb hlive
      rwa [hself] at this
    -- the table was read before the allocation, which does not touch it
    have hbuf : grab s.blk b.toNat table.toNat = s.blk table.toNat := by
      have hlt := hb.lt
      exact grab_apply_ne _ hne (by omega)
    have hgeom2 : s2.geom = s.geom := ht2.geom.trans ht1.geom
    obtain ⟨s3, hw, ht3⟩ := write_block_spec s2 ((s.blk table.toNat).setPtr i b)
      (show s2.geom.serves table.toNat by rw [hgeom2]; exact hholds)
    refine Post.step hw (Post.pure ?_)
    have hg := hgrown b hsame
    rw [hbuf] at hg
    have ht : s.To s3 (grown s.blk n sl b).1 := by
      rw [hg, ← ht2.blk]
      exact ht1.trans (ht2.trans ht3)
    obtain ⟨hrun, hslot, hb0⟩ := h.grow T hb (hnext hempty) hneed ht
    rw [hg] at hrun hslot
    exact ⟨hrun, hslot, hb0, rfl⟩
  · rw [if_pos h0]
    refine Post.pure ⟨h1, ?_, h0, rfl⟩
    rw [ht1.blk]
    exact hptr

theorem ensure_l1_spec
    (hdind : n.dindirect ≠ 0) (hge : 1036 ≤ idx) (hlt : idx < 1049612)
    (hk : idx < blocksFor data.length) :
    Post (ensure_ptr n n.dindirect ((idx - 1036) / 1024)) s
      (fun r s' => Run s₀ V f data s' s'.blk r.1 idx
        ∧ slotOf s'.blk r.1 (.l1 ((idx - 1036) / 1024)) = r.2.toNat ∧ r.2 ≠ 0
        ∧ r.1.dindirect = n.dindirect)
      (fun e _ => WriteFails s₀.blk (V f) data e) := by
  refine ensure_ptr_spec T h (mem_slotsFor_l1 (by omega)) (slotOf_dind _ _) hdind ?_ ?_ ?_
  · exact slotOf_l1_table s.blk hdind (by omega)
  · intro hempty
    exact h.wr.next_l1 hge hlt hempty hdind
  · intro b _
    exact grown_l1 _

theorem ensure_data_spec {l1_blk : UInt32}
    (hl1 : slotOf s.blk n (.l1 ((idx - 1036) / 1024)) = l1_blk.toNat)
    (hl1_ne : l1_blk ≠ 0) (hge : 1036 ≤ idx) (hlt : idx < 1049612)
    (hk : idx < blocksFor data.length) :
    Post (ensure_ptr n l1_blk ((idx - 1036) % 1024)) s
      (fun r s' => Run s₀ V f data s' s'.blk r.1 idx
        ∧ slotOf s'.blk r.1 (.data idx) = r.2.toNat ∧ r.2 ≠ 0 ∧ r.1.dindirect = n.dindirect)
      (fun e _ => WriteFails s₀.blk (V f) data e) := by
  have hne : slotOf s.blk n (.l1 ((idx - 1036) / 1024)) ≠ 0 := by
    rw [hl1]
    exact toNat_ne_zero.mpr hl1_ne
  refine ensure_ptr_spec T h (mem_slotsFor_data hk) hl1 hl1_ne ?_ ?_ ?_
  · rw [slotOf_l1] at hl1 hne
    rw [slotOf_data_dindirect _ _ hge, if_neg hne, hl1]
  · intro hempty
    refine h.wr.next_data hempty hlt ?_
    intro p hp
    rw [Slot.parent, if_neg (by omega), if_neg (by omega)] at hp
    cases hp
    exact hne
  · intro b hsame
    have hl1' := congrFun hsame (.l1 ((idx - 1036) / 1024))
    rw [hl1, slotOf_l1] at hl1'
    rw [grown_dindirect hge, hl1']

end

theorem write_dindirect_loop_spec (T : Target s₀ V f) (k : ℕ) :
    ∀ (c : ℕ) (s : Fs) (n : Inode), 1048576 - c = k → c ≤ 1048576 → n.dindirect ≠ 0 →
    Run s₀ V f data s s.blk n (1036 + c) →
      Post (write_dindirect_loop n (data.drop (4096 * (1036 + c))) c) s
      (fun n' s' => ∃ idx', Run s₀ V f data s' s'.blk n' idx' ∧ blocksFor data.length ≤ idx')
      (fun e _ => WriteFails s₀.blk (V f) data e) := by
  -- on the blocks that the double indirect table could still take
  induction k with
  | zero =>
    intro c s n hk hle hdind h
    rw [write_dindirect_loop]
    by_cases hnil : data.drop (4096 * (1036 + c)) = []
    · rw [if_pos hnil]
      exact Post.pure ⟨_, h, (drop_eq_nil_iff_blocksFor data _).mp hnil⟩
    · rw [if_neg hnil, dif_neg (by
        simp only [DINDIRECT_MAX_BLOCKS, PTRS_PER_INDIRECT, BLOCK_SIZE]
        omega)]
      have hlt : ¬ blocksFor data.length ≤ 1036 + c := by
        rwa [← drop_eq_nil_iff_blocksFor]
      exact Post.throw (.inr ⟨rfl, by omega⟩)
  | succ k ih =>
    intro c s n hk hle hdind h
    rw [write_dindirect_loop]
    by_cases hnil : data.drop (4096 * (1036 + c)) = []
    · rw [if_pos hnil]
      exact Post.pure ⟨_, h, (drop_eq_nil_iff_blocksFor data _).mp hnil⟩
    · have hlt : 1036 + c < blocksFor data.length := by
        rw [← Nat.not_le, ← drop_eq_nil_iff_blocksFor]
        exact hnil
      rw [if_neg hnil, dif_pos (by
        simp only [DINDIRECT_MAX_BLOCKS, PTRS_PER_INDIRECT, BLOCK_SIZE]
        omega)]
      -- one turn: the first level table, the block, then the chunk
      have hl1 := ensure_l1_spec T h hdind (by omega) (by omega) hlt
      rw [Nat.add_sub_cancel_left] at hl1
      refine hl1.seq ?_
      rintro ⟨n1, l1_blk⟩ s1 ⟨h1, hslot1, hl1_ne, hd1⟩
      have hdata := ensure_data_spec T h1 (by rw [Nat.add_sub_cancel_left]; exact hslot1)
        hl1_ne (by omega) (by omega) hlt
      rw [Nat.add_sub_cancel_left] at hdata
      refine hdata.seq ?_
      rintro ⟨n2, b⟩ s2 ⟨h2, hslot2, hb_ne, hd2⟩
      obtain ⟨s3, hw, h3⟩ := h2.chunk T hslot2 hb_ne
      have hdind2 : n2.dindirect ≠ 0 := by
        rw [hd2, hd1]
        exact hdind
      exact Post.step hw (ih (c + 1) s3 n2 (by omega) (by omega) hdind2 h3)

/-- Phase 3 writes the rest, or finds that it does not fit. -/
theorem write_dindirect_spec (T : Target s₀ V f) (h : Run s₀ V f data s s.blk n idx)
    (hidx : blocksFor data.length ≤ idx ∨ idx = 1036) :
    Post (write_dindirect n (data.drop (4096 * idx))) s
      (fun n' s' => ∃ idx', Run s₀ V f data s' s'.blk n' idx' ∧ blocksFor data.length ≤ idx')
      (fun e _ => WriteFails s₀.blk (V f) data e) := by
  rw [write_dindirect]
  by_cases hle : blocksFor data.length ≤ idx
  · rw [if_pos ((drop_eq_nil_iff_blocksFor data idx).mpr hle)]
    exact Post.pure ⟨idx, h, hle⟩
  · obtain rfl : idx = 1036 := hidx.resolve_left hle
    rw [if_neg (fun hnil => hle ((drop_eq_nil_iff_blocksFor data 1036).mp hnil))]
    refine (ensure_dindirect_spec h T (by omega)).seq ?_
    rintro n1 s1 ⟨h1, hdind⟩
    exact write_dindirect_loop_spec T 1048576 0 s1 n1 rfl (by omega) hdind h1

end

/-! ## The whole function -/

/-- What a `write_file` that returns has done to the disk. -/
structure Wrote (D₀ : Disk) (f : ℕ) (data : List UInt8) (D : Disk) : Prop where
  acc : Acc D (inodeAt D)
  other : ∀ i < 1024, i ≠ f → inodeAt D i = inodeAt D₀ i
  flags : (inodeAt D f).flags = (inodeAt D₀ f).flags
  size : (inodeAt D f).size = UInt64.ofNat data.length
  count : freeCount D₀ ≤ freeCount D + need D₀ (inodeAt D₀ f) (blocksFor data.length)
  data : ∀ j < blocksFor data.length, slotOf D (inodeAt D f) (.data j) ≠ 0
    ∧ D (slotOf D (inodeAt D f) (.data j)) = chunkOf data j
  low : ∀ c < 2, D c = D₀ c
  frame : ∀ c, 38 ≤ c → UsedBlock D₀ c → c ∉ owned D₀ (inodeAt D₀ f) → D c = D₀ c

/-- Writing the inode back ends the run: the size is the only field that is new. -/
theorem Wr.finish {D0 D : Disk} {f : ℕ} {data : List UInt8} {n : Inode} {idx : ℕ}
    (h : Wr D0 (inodeAt D0) f data D n idx) (h0 : Acc D0 (inodeAt D0)) (hf : Live (inodeAt D0) f)
    (hidx : blocksFor data.length ≤ idx) :
    Wrote D0 f data (putInode D f { n with size := UInt64.ofNat data.length }) := by
  have hlt := hf.1
  have hput : ∀ c, c < 6 ∨ 38 ≤ c →
      putInode D f { n with size := UInt64.ofNat data.length } c = D c :=
    fun c hc => putInode_apply_ne _ _ _ (by omega)
  -- the metadata blocks other than the block bit map are reserved, so the run kept them
  have hmeta : ∀ c, c < 2 ∨ (6 ≤ c ∧ c < 38) → D c = D0 c := by
    intro c hc
    refine h.frame c (by omega) ((h0.ledger.used_iff c).mpr (.inl (by omega))) ?_
    intro hown
    obtain ⟨s, heq, hc0⟩ := mem_owned.mp hown
    have hr := h0.range hf (by rw [heq]; exact hc0)
    omega
  have hother : ∀ i < 1024, i ≠ f →
      inodeAt (putInode D f { n with size := UInt64.ofNat data.length }) i = inodeAt D0 i := by
    intro i hi hif
    rw [inodeAt_putInode_ne _ _ hif]
    exact inodeAt_congr (hmeta _ (by omega))
  have hself : inodeAt (putInode D f { n with size := UInt64.ofNat data.length }) f
      = { n with size := UInt64.ofNat data.length } := inodeAt_putInode_same _ _ _
  have hsame : SameBlocks { n with size := UInt64.ofNat data.length } n :=
    ⟨rfl, rfl, rfl, rfl, rfl⟩
  have hslots : slotOf (putInode D f { n with size := UInt64.ofNat data.length })
      { n with size := UInt64.ofNat data.length } = slotOf D n := by
    refine slotOf_congr ?_
    intro t _ ht
    exact hput _ (.inr (h.range hf ht).1)
  refine ⟨?_, hother, ?_, ?_, ?_, ?_, ?_, ?_⟩
  · refine h.acc.congr (fun c hc => hput c (by omega)) ?_
    intro i hi
    by_cases hif : i = f
    · subst hif
      rw [hself, update_self]
      exact hsame
    · rw [hother i hi hif, update_of_ne hif]
      exact SameBlocks.rfl
  · rw [hself]
    exact h.flags
  · rw [hself]
  · have hcount := h.count
    rw [freeCount_congr fun c hc => bitAt_congr (hput _ (by omega))]
    omega
  · intro j hj
    obtain ⟨hne, hcont⟩ := h.written j (by omega)
    have hr := h.range hf hne
    rw [hself, hslots, hput _ (.inr hr.1)]
    exact ⟨hne, hcont⟩
  · intro c hc
    rw [hput c (by omega)]
    exact hmeta c (.inl hc)
  · intro c hc hused hmine
    rw [hput c (.inr hc)]
    exact h.frame c (by omega) hused hmine

/-- **`write_file`.** On a live file it returns with the data written and nothing of
anybody else touched, unless it needs more blocks than are free or than an inode can
reach. -/
theorem write_file_spec (s : Fs) (hc : s.geom.covers) (ino : UInt32) (data : List UInt8)
    (T : Target s (inodeAt s.blk) ino.toNat) : Post (write_file ino data) s
      (fun _ s' => s.To s' s'.blk ∧ Wrote s.blk ino.toNat data s'.blk)
      (fun e _ => WriteFails s.blk (inodeAt s.blk ino.toNat) data e) := by
  obtain ⟨s1, hr, ht1⟩ := read_inode_spec s ino (hc.holds_inode T.live.1)
  have h1 : Run s (inodeAt s.blk) ino.toNat data s1 s1.blk (inodeAt s.blk ino.toNat) 0 := by
    refine ⟨hc.of_eq ht1.geom, by rw [ht1.blk]; exact ht1, ?_⟩
    rw [ht1.blk]
    exact Wr.start T.acc
  refine Post.step hr ?_
  rw [if_neg (not_not.mpr T.file)]
  refine (write_direct_spec T 12 0 s1 _ rfl (by omega) h1).seq ?_
  rintro ⟨n2, rest⟩ s2 ⟨i2, h2, rfl, hend2⟩
  refine (write_indirect_spec T h2 hend2).seq ?_
  rintro ⟨n3, rest⟩ s3 ⟨i3, h3, rfl, hend3⟩
  refine (write_dindirect_spec T h3 hend3).seq ?_
  rintro n4 s4 ⟨i4, h4, hend4⟩
  obtain ⟨s5, hw, ht5⟩ := write_inode_spec s4 ino
    { n4 with size := UInt64.ofNat data.length } (h4.covers.holds_inode T.live.1)
  refine Post.of_eq_ok hw ⟨(h4.to_of ht5).2, ?_⟩
  rw [ht5.blk]
  exact h4.wr.finish T.acc T.live hend4

theorem write_file_returns (s : Fs) (hc : s.geom.covers) (ino : UInt32) (data : List UInt8)
    (T : Target s (inodeAt s.blk) ino.toNat) (hmax : blocksFor data.length ≤ 1049612)
    (hroom : need s.blk (inodeAt s.blk ino.toNat) (blocksFor data.length) ≤ freeCount s.blk) :
    ∃ s', write_file ino data s = .ok () s' ∧ s.To s' s'.blk
      ∧ Wrote s.blk ino.toNat data s'.blk := by
  obtain ⟨_, s', hrun, hq⟩ := (write_file_spec s hc ino data T).exists_ok (by
    rintro e s' (⟨-, hfull⟩ | ⟨-, hbig⟩)
    · omega
    · omega)
  exact ⟨s', hrun, hq⟩

end HepOS.HepFS
