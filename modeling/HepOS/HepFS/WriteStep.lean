/-
The steps `write_file` is made of.

The three phases go through the logical blocks of the file in order. `Wr D₀ V f data D n idx`
says how far a run that started from disk `D₀` and inode table `V` has come when its disk is
`D`, the inode it holds in memory is `n`, and the first `idx` blocks of `data` are written: the
accounting holds of `D` with `n` in place of inode `f`, the pointers the file had are still
there, and no block changed that was in use by somebody else. Two steps move it on, `Wr.grow`
(allocate the next slot) and `Wr.put` (write the next chunk), and each loop of the source is an
induction over these two.

In phase 2 the indirect table is edited in memory, so the invariant is stated of the disk
with that page already written back (`s.blk.put ind buf`); the `write_block` after the loop
makes the two agree.

`need` counts the slots a file of `k` blocks needs and does not have. Every allocation takes
one from it and one from the free blocks, so `write_file` runs out of blocks exactly when
it needs more than there are.
-/
import HepOS.HepFS.Accounting
import HepOS.HepFS.File

set_option autoImplicit false

namespace HepOS.HepFS

open Bytes Hoare Ledger Function List

variable {j k : ℕ} {n : Inode} {s : Slot}

/-! ## Chunks, and the slots a length needs -/

/-- The page that holds block `j` of `data`. -/
def chunkOf (data : List UInt8) (j : ℕ) : Block :=
  Mem.zero.write 0 ((data.drop (4096 * j)).take 4096)

/-- The number of blocks `len` bytes take. -/
def blocksFor (len : ℕ) : ℕ := (len + 4095) / 4096

theorem drop_eq_nil_iff_blocksFor (data : List UInt8) (idx : ℕ) :
    data.drop (4096 * idx) = [] ↔ blocksFor data.length ≤ idx := by
  rw [drop_eq_nil_iff, blocksFor]
  omega

/-- The slots a file of `k` blocks occupies. -/
def slotsFor (k : ℕ) : List Slot :=
  (List.range k).map Slot.data
    ++ ((if 12 < k then [Slot.ind] else [])
    ++ ((if 1036 < k then [Slot.dind] else [])
    ++ (List.range ((k - 1036 + 1023) / 1024)).map Slot.l1))

theorem mem_slotsFor_data (h : j < k) : Slot.data j ∈ slotsFor k := by
  rw [slotsFor, mem_append, mem_map]
  exact .inl ⟨j, mem_range.mpr h, rfl⟩

theorem mem_slotsFor_ind (h : 12 < k) : Slot.ind ∈ slotsFor k := by
  rw [slotsFor, if_pos h]
  simp

theorem mem_slotsFor_dind (h : 1036 < k) : Slot.dind ∈ slotsFor k := by
  rw [slotsFor, if_pos h]
  simp

theorem mem_slotsFor_l1 {i : ℕ} (h : 1036 + 1024 * i < k) : Slot.l1 i ∈ slotsFor k := by
  rw [slotsFor]
  simp only [mem_append, mem_map, mem_range]
  exact .inr (.inr (.inr ⟨i, by omega, rfl⟩))

theorem nodup_slotsFor (k : ℕ) : (slotsFor k).Nodup := by
  have hdata : ((List.range k).map Slot.data).Nodup :=
    List.Nodup.map (fun a b h => Slot.data.inj h) nodup_range
  have hl1 : ((List.range ((k - 1036 + 1023) / 1024)).map Slot.l1).Nodup :=
    List.Nodup.map (fun a b h => Slot.l1.inj h) nodup_range
  rw [slotsFor, nodup_append, nodup_append, nodup_append]
  refine ⟨hdata, ⟨by split_ifs <;> simp, ⟨by split_ifs <;> simp, hl1, ?_⟩, ?_⟩, ?_⟩
  · intro a ha b hb
    split_ifs at ha <;> simp_all
    rintro rfl
    simp at hb
  · intro a ha b hb
    split_ifs at ha hb <;> simp_all
    all_goals (rintro rfl; simp at hb)
  · intro a ha b hb
    rw [mem_map] at ha
    obtain ⟨j, -, rfl⟩ := ha
    rintro rfl
    split_ifs at hb <;> simp at hb

/-- The number of slots a file of `k` blocks needs and does not have. -/
def need (D : Disk) (n : Inode) (k : ℕ) : ℕ := (slotsFor k).countP (fun s => slotOf D n s = 0)

theorem need_add_heldCount (D : Disk) (n : Inode) (k : ℕ) :
    need D n k + heldCount (slotsFor k) (slotOf D n) = (slotsFor k).length := by
  rw [need, heldCount, length_eq_countP_add_countP (fun s => decide (slotOf D n s = 0))]
  congr 1
  refine countP_congr ?_
  intro s _
  simp

/-- Filling a needed slot leaves one slot fewer to fill. -/
theorem need_fill {D D' : Disk} {n' : Inode} {b : ℕ} (hs : s ∈ slotsFor k)
    (h0 : slotOf D n s = 0) (hb : b ≠ 0) (hslots : slotOf D' n' = update (slotOf D n) s b) :
    need D' n' k + 1 = need D n k := by
  have h1 := need_add_heldCount D n k
  have h2 := need_add_heldCount D' n' k
  have hcount : heldCount (slotsFor k) (slotOf D' n') = heldCount (slotsFor k) (slotOf D n) + 1 :=
    heldCount_fill (nodup_slotsFor k) hs h0
    (by rw [hslots, update_self]; exact hb)
    (fun t ht => by rw [hslots, update_of_ne ht])
  omega

theorem need_pos {D : Disk} (hs : s ∈ slotsFor k) (h0 : slotOf D n s = 0) : 0 < need D n k := by
  rw [need, countP_pos_iff]
  exact ⟨s, hs, by simpa using h0⟩

/-- The ways `write_file` can stop on a live file: it needs more blocks than are free, or
more than the pointers of an inode reach. -/
def WriteFails (D₀ : Disk) (n : Inode) (data : List UInt8) (e : Panic) : Prop :=
  (e = .disk_full ∧ freeCount D₀ < need D₀ n (blocksFor data.length))
    ∨ (e = .file_too_large ∧ 1049612 < blocksFor data.length)

theorem WriteFails.on_device {D₀ : Disk} {data : List UInt8} {e : Panic}
    (h : WriteFails D₀ n data e) : e.off_device = false := by
  rcases h with ⟨rfl, -⟩ | ⟨rfl, -⟩
  · rfl
  · rfl

/-! ## How far a run of `write_file` has come -/

/-- The state of a run of `write_file` on file `f` after `idx` blocks of `data`. -/
structure Wr (D₀ : Disk) (V : ℕ → Inode) (f : ℕ) (data : List UInt8) (D : Disk) (n : Inode)
    (idx : ℕ) : Prop where
  acc : Acc D (update V f n)
  flags : n.flags = (V f).flags
  keep : ∀ s, slotOf D₀ (V f) s ≠ 0 → slotOf D n s = slotOf D₀ (V f) s
  written : ∀ j < idx, slotOf D n (.data j) ≠ 0 ∧ D (slotOf D n (.data j)) = chunkOf data j
  frame : ∀ c, (c < 2 ∨ 6 ≤ c) → UsedBlock D₀ c → c ∉ owned D₀ (V f) → D c = D₀ c
  mono : ∀ c < 131072, bitAt D₀ 2 c = true → bitAt D 2 c = true
  count : need D₀ (V f) (blocksFor data.length) + freeCount D
    = need D n (blocksFor data.length) + freeCount D₀

section

variable {D₀ D : Disk} {V : ℕ → Inode} {f : ℕ} {data : List UInt8} {n : Inode} {idx : ℕ}

theorem Wr.start (h : Acc D₀ V) : Wr D₀ V f data D₀ (V f) 0 where
  acc := by rwa [update_eq_self]
  flags := rfl
  keep := fun _ _ => rfl
  written := fun j hj => absurd hj (Nat.not_lt_zero j)
  frame := fun _ _ _ _ => rfl
  mono := fun _ _ h => h
  count := rfl

theorem Wr.live (h : Wr D₀ V f data D n idx) (hf : Live V f) :
    Live (update V f n) f := (live_update hf h.flags f).mpr hf

/-- The accounting of the inode in memory, read off the table it is part of. -/
theorem Wr.self (_h : Wr D₀ V f data D n idx) : update V f n f = n :=
  update_self f n V

section

variable (h : Wr D₀ V f data D n idx)

include h

theorem Wr.range (hf : Live V f) (hs : slotOf D n s ≠ 0) :
    38 ≤ slotOf D n s ∧ slotOf D n s < 131072 := by
  have hr := h.acc.range (h.live hf) (s := s)
  rw [h.self] at hr
  exact hr hs

theorem Wr.slotInj (hf : Live V f) : SlotInj D n := by
  have hi := h.acc.slotInj (h.live hf)
  rwa [h.self] at hi

theorem Wr.others (h0 : Acc D₀ V) (hf : Live V f) {i : ℕ}
    (hi : Live V i) (hif : i ≠ f) : slotOf D (V i) = slotOf D₀ (V i) := by
  refine slotOf_congr ?_
  intro t _ ht
  have hr := h0.range hi ht
  refine h.frame _ (by omega) (h0.ledger.used_of_held hi ht) ?_
  intro hown
  obtain ⟨s, heq, -⟩ := mem_owned.mp hown
  have hne : slotOf D₀ (V f) s ≠ 0 := by rw [heq]; exact ht
  exact hif (h0.ledger.inj f i hf hi s t hne heq).1.symm

/-- A block somebody else used at the start does not become the file's. -/
theorem Wr.not_owned (h0 : Acc D₀ V) (hf : Live V f) {c : ℕ}
    (hc : UsedBlock D₀ c) (hmine : c ∉ owned D₀ (V f)) : c ∉ owned D n := by
  intro hown
  obtain ⟨s, heq, hc0⟩ := mem_owned.mp hown
  have hne : slotOf D n s ≠ 0 := by rw [heq]; exact hc0
  have hr := h.range hf hne
  rcases (h0.ledger.used_iff c).mp hc with hres | ⟨g, hg, t, ht, -⟩
  · omega
  · by_cases hgf : g = f
    · subst hgf
      exact hmine (mem_owned.mpr ⟨t, ht, hc0⟩)
    · have hg' : Live (update V f n) g := (live_update hf h.flags g).mpr hg
      have hslot : slotOf D (update V f n g) t = c := by
        rw [update_of_ne hgf, h.others h0 hf hg hgf]
        exact ht
      have hinj := h.acc.ledger.inj f g (h.live hf) hg' s t
      rw [h.self, hslot] at hinj
      exact hgf (hinj hne heq).1.symm

/-- **Allocation step.** A fresh block goes into the next empty slot. -/
theorem Wr.grow (h0 : Acc D₀ V) (hf : Live V f) (hfile : (V f).flags = F_FILE) {b : UInt32}
    (hb : Fresh D b.toNat) (hs : NextSlot D n s) (hneed : s ∈ slotsFor (blocksFor data.length)) :
    Wr D₀ V f data (grown D n s b).1 (grown D n s b).2 idx
      ∧ slotOf (grown D n s b).1 (grown D n s b).2
          = update (slotOf D n) s b.toNat := by
  have hge := hb.ge
  have hlive := h.live hf
  have hself := h.self
  have hs' : NextSlot D (update V f n f) s := by rw [hself]; exact hs
  have hslots := h.acc.slotOf_grown hlive hb hs'
  have hacc := h.acc.grow hlive hb hs' (.inl (by rw [hself, h.flags, hfile]))
  have happly : ∀ c, c ≠ b.toNat → (c < 2 ∨ 6 ≤ c) →
      (∀ p, s.parent = some p → slotOf D n p ≠ c) → (grown D n s b).1 c = D c := by
    intro c hcb hbm hp
    have := h.acc.grown_apply_ne hlive hb hcb hbm (by rw [hself]; exact hp)
    rwa [hself] at this
  rw [hself, update_idem] at hacc
  rw [hself] at hslots
  refine ⟨⟨hacc, ?_, ?_, ?_, ?_, ?_, ?_⟩, hslots⟩
  · rw [grown_flags, h.flags]
  · intro t ht
    have hold := h.keep t ht
    have hts : t ≠ s := by
      rintro rfl
      rw [hs.empty] at hold
      exact ht hold.symm
    rw [hslots, update_of_ne hts, hold]
  · intro j hj
    obtain ⟨hne, hcont⟩ := h.written j hj
    have hjs : Slot.data j ≠ s := by
      rintro rfl
      exact hne hs.empty
    have hr := h.range hf hne
    have hunfresh := h.acc.slot_ne_fresh hb hlive (.data j)
    rw [hself] at hunfresh
    rw [hslots, update_of_ne hjs]
    refine ⟨hne, ?_⟩
    rw [happly _ hunfresh (by omega), hcont]
    -- the table that holds the slot is not a data block of the file
    intro p hp heq
    have hpt := h.slotInj hf _ _ (hs.ready.parent p hp) heq
    have htable := Slot.parent_isTable hp
    rw [hpt] at htable
    exact absurd htable (by simp [Slot.isTable])
  · intro c hbm hused hmine
    have hset := h.mono c hused.1 hused.2
    have hcb : c ≠ b.toNat := by
      rintro rfl
      rw [hb.clear] at hset
      simp at hset
    rw [happly c hcb hbm (fun p hp =>
      slotOf_ne_of_not_owned (h.not_owned h0 hf hused hmine) (hs.ready.parent p hp))]
    exact h.frame c hbm hused hmine
  · intro c hc hset
    have hbit := h.acc.bitAt_grown hlive hb hs' hc
    rw [hself] at hbit
    rw [hbit, h.mono c hc hset, ite_self]
  · have hfree : freeCount (grown D n s b).1 + 1 = freeCount D := by
      refine freeCount_of_set hb.mem ?_
      intro c hc
      have hbit := h.acc.bitAt_grown hlive hb hs' hc
      rwa [hself] at hbit
    have hfill := need_fill hneed hs.empty (by omega) hslots
    have hcount := h.count
    omega

/-- **Data step.** The next chunk goes into the data block that is there for it. -/
theorem Wr.put (h0 : Acc D₀ V) (hf : Live V f) (hne : slotOf D n (.data idx) ≠ 0) :
    Wr D₀ V f data (D.put (slotOf D n (.data idx)) (chunkOf data idx)) n (idx + 1)
      ∧ slotOf (D.put (slotOf D n (.data idx)) (chunkOf data idx)) n = slotOf D n := by
  have hlive := h.live hf
  have hself := h.self
  have hr := h.range hf hne
  have hne' : slotOf D (update V f n f) (.data idx) ≠ 0 := by rw [hself]; exact hne
  have hacc := h.acc.put_data hlive hne' (chunkOf data idx)
  have hslots := h.acc.slotOf_put_data hlive idx (chunkOf data idx) hlive
  rw [hself] at hacc hslots
  have hbits : ∀ c < 131072, bitAt (D.put (slotOf D n (.data idx)) (chunkOf data idx)) 2 c
      = bitAt D 2 c := fun c hc => bitAt_put hr.1 hc
  refine ⟨⟨hacc, h.flags, ?_, ?_, ?_, ?_, ?_⟩, hslots⟩
  · intro s hs
    rw [hslots, h.keep s hs]
  · intro j hj
    rw [hslots]
    by_cases hji : j = idx
    · subst hji
      exact ⟨hne, Disk.put_same _ _ _⟩
    · obtain ⟨hnej, hcont⟩ := h.written j (by omega)
      refine ⟨hnej, ?_⟩
      rw [Disk.put_ne, hcont]
      intro heq
      have hslot := h.slotInj hf _ _ hnej heq
      exact hji (Slot.data.inj hslot)
  · intro c hbm hused hmine
    have hne' := slotOf_ne_of_not_owned (h.not_owned h0 hf hused hmine) hne
    rw [Disk.put_ne _ _ (Ne.symm hne')]
    exact h.frame c hbm hused hmine
  · intro c hc hset
    rw [hbits c hc, h.mono c hc hset]
  · have hneed : need (D.put (slotOf D n (.data idx)) (chunkOf data idx)) n
        (blocksFor data.length) = need D n (blocksFor data.length) := by
      rw [need, need, hslots]
    rw [hneed, freeCount_congr hbits]
    exact h.count

/-- With no block left and a slot to fill, the run needed more blocks than there were. -/
theorem Wr.full (hfree : freeCount D = 0)
    (hempty : slotOf D n s = 0) (hneed : s ∈ slotsFor (blocksFor data.length)) :
    WriteFails D₀ (V f) data .disk_full := by
  have hpos := need_pos hneed hempty
  have hcount := h.count
  exact .inl ⟨rfl, by omega⟩

end

/-! ## Which slot is next -/

/-- When slot `idx` is empty the data blocks are exactly `0 .. idx-1`. -/
theorem Wr.shape_data (h : Wr D₀ V f data D n idx) (hempty : slotOf D n (.data idx) = 0)
    {m t : ℕ} (hsh : Shape (slotOf D n) m t) : m = idx := by
  have hge := hsh.data_end hempty
  by_cases h0 : idx = 0
  · omega
  · have := (hsh.data (idx - 1)).mp (h.written (idx - 1) (by omega)).1
    omega

theorem Wr.next_data (h : Wr D₀ V f data D n idx) (hempty : slotOf D n (.data idx) = 0)
    (hidx : idx < 1049612) (hparent : ∀ p, (Slot.data idx).parent = some p → slotOf D n p ≠ 0) :
    NextSlot D n (.data idx) where
  ready := ⟨mem_allSlots_data_iff.mpr hidx, hparent⟩
  empty := hempty
  next_data := by
    intro m t hsh j hj
    rw [h.shape_data hempty hsh, Slot.data.inj hj]
  next_l1 := fun _ _ _ _ hi => absurd hi (by simp)

theorem next_ind (hempty : slotOf D n .ind = 0) : NextSlot D n .ind where
  ready := ⟨mem_allSlots_ind, fun _ hp => absurd hp (by simp [Slot.parent])⟩
  empty := hempty
  next_data := fun _ _ _ _ hj => absurd hj (by simp)
  next_l1 := fun _ _ _ _ hi => absurd hi (by simp)

theorem next_dind (hempty : slotOf D n .dind = 0) : NextSlot D n .dind where
  ready := ⟨mem_allSlots_dind, fun _ hp => absurd hp (by simp [Slot.parent])⟩
  empty := hempty
  next_data := fun _ _ _ _ hj => absurd hj (by simp)
  next_l1 := fun _ _ _ _ hi => absurd hi (by simp)

/-- The level-1 tables before the one that data block `idx` is in are there, since
their first entry is written. -/
theorem Wr.next_l1 (h : Wr D₀ V f data D n idx) (hidx : 1036 ≤ idx) (hlt : idx < 1049612)
    (hempty : slotOf D n (.l1 ((idx - 1036) / 1024)) = 0) (hdind : n.dindirect ≠ 0) :
    NextSlot D n (.l1 ((idx - 1036) / 1024)) where
  ready := by
    refine ⟨mem_allSlots_l1_iff.mpr (by omega), ?_⟩
    intro p hp
    cases hp
    exact toNat_ne_zero.mpr hdind
  empty := hempty
  next_data := fun _ _ _ _ hj => absurd hj (by simp)
  next_l1 := by
    intro m t hsh i hi
    obtain rfl := Slot.l1.inj hi
    have hge := hsh.l1_end hempty
    by_cases h0 : (idx - 1036) / 1024 = 0
    · omega
    · have hwritten := (h.written (1036 + 1024 * ((idx - 1036) / 1024 - 1)) (by omega)).1
      have hl1 := (hsh.l1 _).mp (l1_ne_zero_of_data (by omega) hwritten)
      omega

end

/-! ## What a grown slot looks like -/

section

variable {D : Disk} {n : Inode} {b : UInt32}

theorem grown_direct (hj : j < 12) : grown D n (.data j) b
    = (grab D b.toNat, { n with direct := n.direct.set j b, nblocks := n.nblocks + 1 }) := by
  rw [grown, attach, dif_pos hj]

/-- A slot kept in a table block: the table gets the pointer, the inode only counts. -/
theorem grown_indirect (h1 : 12 ≤ j) (h2 : j < 1036) : grown D n (.data j) b
    = ((grab D b.toNat).put n.indirect.toNat ((grab D b.toNat n.indirect.toNat).setPtr (j - 12) b),
      { n with nblocks := n.nblocks + 1 }) := by
  rw [grown, attach, dif_neg (by omega), if_pos h2]

theorem grown_l1 (i : ℕ) : grown D n (.l1 i) b = ((grab D b.toNat).put n.dindirect.toNat
        ((grab D b.toNat n.dindirect.toNat).setPtr i b), { n with nblocks := n.nblocks + 1 }) := rfl

theorem grown_dindirect (h1 : 1036 ≤ j) : grown D n (.data j) b
    = ((grab D b.toNat).put (l1Of (grab D b.toNat) n ((j - 1036) / 1024))
        ((grab D b.toNat (l1Of (grab D b.toNat) n ((j - 1036) / 1024))).setPtr
          ((j - 1036) % 1024) b),
      { n with nblocks := n.nblocks + 1 }) := by
  rw [grown, attach, dif_neg (by omega), if_neg (by omega)]

end

end HepOS.HepFS
