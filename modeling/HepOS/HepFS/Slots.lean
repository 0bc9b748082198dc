/-
Where an inode keeps its blocks.

An inode points at blocks from twelve direct pointers, from an indirect table, and
from a double-indirect table through level-1 tables. A `Slot` names one such place:
logical data block `j`, the indirect table, the double-indirect table, or level-1 table
`i`. `slotOf D n` is the block a slot holds, `0` when it holds none; everything the
accounting of HepFS says about blocks is said about this one function.

Two facts carry the proofs. `slotOf_congr`: the function only reads the table blocks of
the inode. `slotOf_attach`: storing a fresh zeroed block in an empty slot, the way
`write_file` does it for each kind of slot, changes the function at that slot and
nowhere else.
-/
import HepOS.HepFS.Inode
import HepOS.Lib.Ledger

set_option autoImplicit false

namespace HepOS.HepFS

open Bytes Hoare Ledger Function List

/-! ## Slots -/

/-- A place in which an inode can hold a block. -/
inductive Slot
  | data (j : ℕ)
  | ind
  | dind
  | l1 (i : ℕ)
deriving DecidableEq, Repr

/-- The block of level-1 table `i`. -/
def l1Of (D : Disk) (n : Inode) (i : ℕ) : ℕ :=
  if n.dindirect = 0 ∨ 1024 ≤ i then 0 else ((D n.dindirect.toNat).ptr i).toNat

/-- The block in a slot of an inode, `0` when the slot is empty. -/
def slotOf (D : Disk) (n : Inode) : Slot → ℕ
  | .data j =>
    if h : j < 12 then n.direct[j].toNat
    else if j < 1036 then
      if n.indirect = 0 then 0 else ((D n.indirect.toNat).ptr (j - 12)).toNat
    else if l1Of D n ((j - 1036) / 1024) = 0 then 0
    else ((D (l1Of D n ((j - 1036) / 1024))).ptr ((j - 1036) % 1024)).toNat
  | .ind => n.indirect.toNat
  | .dind => n.dindirect.toNat
  | .l1 i => l1Of D n i

theorem slotOf_ind (D : Disk) (n : Inode) : slotOf D n .ind = n.indirect.toNat := rfl

theorem slotOf_dind (D : Disk) (n : Inode) : slotOf D n .dind = n.dindirect.toNat := rfl

theorem slotOf_l1 (D : Disk) (n : Inode) (i : ℕ) : slotOf D n (.l1 i) = l1Of D n i := rfl

/-- The number of logical blocks the pointers of an inode can reach. -/
abbrev MAX_BLOCKS : ℕ := 1049612

/-- All slots of an inode. -/
def allSlots : List Slot :=
  (List.range MAX_BLOCKS).map Slot.data ++ (.ind :: .dind :: (List.range 1024).map Slot.l1)

variable {i j : ℕ} {D : Disk} {n : Inode} {s : Slot}

theorem mem_allSlots_data_iff : Slot.data j ∈ allSlots ↔ j < 1049612 := by
  unfold allSlots
  simp only [mem_append, mem_map, mem_range, Slot.data.injEq, exists_eq_right,
    mem_cons, reduceCtorEq, and_false, exists_false, or_self, or_false]

theorem mem_allSlots_l1_iff : Slot.l1 i ∈ allSlots ↔ i < 1024 := by
  unfold allSlots
  simp only [mem_append, mem_map, mem_range, Slot.l1.injEq, exists_eq_right,
    mem_cons, reduceCtorEq, and_false, exists_false, false_or]

theorem mem_allSlots_ind : Slot.ind ∈ allSlots := by
  simp only [allSlots, mem_append, mem_cons, true_or, or_true]

theorem mem_allSlots_dind : Slot.dind ∈ allSlots := by
  simp only [allSlots, mem_append, mem_cons, true_or, or_true]

theorem nodup_allSlots : allSlots.Nodup := by
  have hdata : ((List.range MAX_BLOCKS).map Slot.data).Nodup :=
    List.Nodup.map (fun a b h => Slot.data.inj h) nodup_range
  have hl1 : ((List.range 1024).map Slot.l1).Nodup :=
    List.Nodup.map (fun a b h => Slot.l1.inj h) nodup_range
  rw [allSlots, nodup_append]
  refine ⟨hdata, ?_, ?_⟩
  · rw [nodup_cons, nodup_cons]
    refine ⟨?_, ?_, hl1⟩
    · simp only [mem_cons, mem_map, reduceCtorEq, and_false, exists_false, or_self,
        not_false_eq_true]
    · simp only [mem_map, reduceCtorEq, and_false, exists_false, not_false_eq_true]
  · rintro a ha b hb rfl
    rw [mem_map] at ha
    obtain ⟨j, -, rfl⟩ := ha
    simp only [mem_cons, mem_map, reduceCtorEq, and_false, exists_false,
      or_self] at hb

attribute [irreducible] allSlots

/-- The blocks an inode owns: direct blocks, the indirect table and its entries, the
double-indirect table, its level-1 tables and their entries. -/
def owned (D : Disk) (n : Inode) : List ℕ := (allSlots.map (slotOf D n)).filter (· ≠ 0)

theorem length_owned (D : Disk) (n : Inode) :
    (owned D n).length = heldCount allSlots (slotOf D n) := by
  rw [owned, heldCount, ← countP_eq_length_filter, countP_map]
  rfl

/-! ## Which slots can be occupied -/

theorem l1Of_eq_zero_of_le (D : Disk) (n : Inode) (h : 1024 ≤ i) : l1Of D n i = 0 := by
  rw [l1Of, if_pos (.inr h)]

theorem slotOf_data_direct (D : Disk) (n : Inode) (h : j < 12) :
    slotOf D n (.data j) = n.direct[j].toNat := by
  rw [slotOf, dif_pos h]

theorem slotOf_data_indirect (D : Disk) (n : Inode) (h : 12 ≤ j) (h' : j < 1036) :
    slotOf D n (.data j)
      = if n.indirect = 0 then 0 else ((D n.indirect.toNat).ptr (j - 12)).toNat := by
  rw [slotOf, dif_neg (by omega), if_pos h']

theorem slotOf_data_dindirect (D : Disk) (n : Inode) (h : 1036 ≤ j) :
    slotOf D n (.data j) = if l1Of D n ((j - 1036) / 1024) = 0 then 0
      else ((D (l1Of D n ((j - 1036) / 1024))).ptr ((j - 1036) % 1024)).toNat := by
  rw [slotOf, dif_neg (by omega), if_neg (by omega)]

theorem slotOf_indirect_entry (D : Disk) (hind : n.indirect ≠ 0) (hi : i < 1024) :
    slotOf D n (.data (12 + i)) = ((D n.indirect.toNat).ptr i).toNat := by
  rw [slotOf_data_indirect _ _ (by omega) (by omega), if_neg hind, Nat.add_sub_cancel_left]

/-- The level-1 tables are the entries of the double-indirect table. -/
theorem slotOf_l1_table (D : Disk) (hdind : n.dindirect ≠ 0) (hi : i < 1024) :
    slotOf D n (.l1 i) = ((D n.dindirect.toNat).ptr i).toNat := by
  rw [slotOf_l1, l1Of, if_neg (not_or.mpr ⟨hdind, by omega⟩)]

theorem slotOf_l1_entry (D : Disk) (hdind : n.dindirect ≠ 0) (hi : i < 1024) (hj : j < 1024) :
    slotOf D n (.data (1036 + 1024 * i + j)) = if ((D n.dindirect.toNat).ptr i).toNat = 0 then 0
      else ((D ((D n.dindirect.toNat).ptr i).toNat).ptr j).toNat := by
  have hl1 : l1Of D n i = ((D n.dindirect.toNat).ptr i).toNat := slotOf_l1_table D hdind hi
  rw [slotOf_data_dindirect _ _ (by omega), show (1036 + 1024 * i + j - 1036) / 1024 = i by omega,
    show (1036 + 1024 * i + j - 1036) % 1024 = j by omega, hl1]

theorem range_table : List.range PTRS_PER_INDIRECT = List.range' 0 1024 := range_eq_range'

/-- The direct pointers, the indirect table and the level-1 tables decide on the data. -/
theorem slotOf_data_congr {D' : Disk} {n' : Inode}
    (hdirect : ∀ h : j < 12, n'.direct[j] = n.direct[j]) (hind : 12 ≤ j → j < 1036 →
      (if n'.indirect = 0 then 0 else ((D' n'.indirect.toNat).ptr (j - 12)).toNat)
      = if n.indirect = 0 then 0 else ((D n.indirect.toNat).ptr (j - 12)).toNat)
    (hl1 : 1036 ≤ j → (if l1Of D' n' ((j - 1036) / 1024) = 0 then 0
        else ((D' (l1Of D' n' ((j - 1036) / 1024))).ptr ((j - 1036) % 1024)).toNat)
      = if l1Of D n ((j - 1036) / 1024) = 0 then 0
        else ((D (l1Of D n ((j - 1036) / 1024))).ptr ((j - 1036) % 1024)).toNat) :
    slotOf D' n' (.data j) = slotOf D n (.data j) := by
  by_cases h12 : j < 12
  · rw [slotOf_data_direct _ _ h12, slotOf_data_direct _ _ h12, hdirect h12]
  by_cases h1036 : j < 1036
  · rw [slotOf_data_indirect _ _ (by omega) h1036, slotOf_data_indirect _ _ (by omega) h1036,
      hind (by omega) h1036]
  · rw [slotOf_data_dindirect _ _ (by omega), slotOf_data_dindirect _ _ (by omega), hl1 (by omega)]

theorem mem_allSlots_of_ne_zero (h : slotOf D n s ≠ 0) : s ∈ allSlots := by
  cases s with
  | data j =>
    refine mem_allSlots_data_iff.mpr ?_
    by_contra hj
    rw [slotOf_data_dindirect _ _ (by omega), l1Of_eq_zero_of_le _ _ (by omega)] at h
    exact h (if_pos rfl)
  | ind => exact mem_allSlots_ind
  | dind => exact mem_allSlots_dind
  | l1 i =>
    refine mem_allSlots_l1_iff.mpr ?_
    by_contra hi
    exact h (l1Of_eq_zero_of_le _ _ (by omega))

theorem mem_owned {b : ℕ} : b ∈ owned D n ↔ ∃ s, slotOf D n s = b ∧ b ≠ 0 := by
  rw [owned, mem_filter, mem_map]
  simp only [ne_eq, decide_not, Bool.not_eq_eq_eq_not, Bool.not_true, decide_eq_false_iff_not]
  constructor
  · rintro ⟨⟨s, -, hs⟩, hb⟩
    exact ⟨s, hs, hb⟩
  · rintro ⟨s, hs, hb⟩
    exact ⟨⟨s, mem_allSlots_of_ne_zero (by rw [hs]; exact hb), hs⟩, hb⟩

theorem slotOf_ne_of_not_owned {b : ℕ} (h : b ∉ owned D n) (hs : slotOf D n s ≠ 0) :
    slotOf D n s ≠ b := by
  rintro rfl
  exact h (mem_owned.mpr ⟨s, rfl, hs⟩)

theorem nodup_owned
    (h : ∀ s t, slotOf D n s ≠ 0 → slotOf D n s = slotOf D n t → s = t) : (owned D n).Nodup := by
  have hfilter : owned D n = (allSlots.filter (fun s => slotOf D n s ≠ 0)).map (slotOf D n) := by
    rw [owned, filter_map]
    rfl
  rw [hfilter]
  refine List.Nodup.map_on ?_ (nodup_allSlots.filter _)
  intro s hs t _ heq
  rw [mem_filter] at hs
  exact h s t (by simpa using hs.2) heq

/-- A data block behind the indirect table needs the table. -/
theorem ind_ne_zero_of_data (h1 : 12 ≤ j) (h2 : j < 1036) (h : slotOf D n (.data j) ≠ 0) :
    n.indirect ≠ 0 := by
  intro h0
  rw [slotOf_data_indirect _ _ h1 h2, if_pos h0] at h
  exact h rfl

theorem l1_ne_zero_of_data (h1 : 1036 ≤ j)
    (h : slotOf D n (.data j) ≠ 0) : slotOf D n (.l1 ((j - 1036) / 1024)) ≠ 0 := by
  intro h0
  rw [slotOf_l1] at h0
  rw [slotOf_data_dindirect _ _ h1, if_pos h0] at h
  exact h rfl

theorem dind_ne_zero_of_l1 (h : slotOf D n (.l1 i) ≠ 0) : n.dindirect ≠ 0 ∧ i < 1024 := by
  by_contra hc
  have hc' : n.dindirect = 0 ∨ 1024 ≤ i := by
    by_cases h0 : n.dindirect = 0
    · exact .inl h0
    · exact .inr (by by_contra hlt; exact hc ⟨h0, by omega⟩)
  rw [slotOf, l1Of, if_pos hc'] at h
  exact h rfl

theorem toNat_ne_zero {b : UInt32} : b.toNat ≠ 0 ↔ b ≠ 0 := by
  rw [ne_eq, ne_eq, not_iff_not, ← UInt32.toNat_inj]
  rfl

/-! ## The table blocks are all that is read -/

/-- The slots that hold pointer tables. -/
def Slot.isTable : Slot → Bool
  | .data _ => false
  | _ => true

theorem l1Of_congr {D' : Disk} (h : n.dindirect ≠ 0 → D' n.dindirect.toNat = D n.dindirect.toNat)
    (i : ℕ) :
    l1Of D' n i = l1Of D n i := by
  rw [l1Of, l1Of]
  by_cases hc : n.dindirect = 0 ∨ 1024 ≤ i
  · rw [if_pos hc, if_pos hc]
  · rw [if_neg hc, if_neg hc, h (fun h0 => hc (.inl h0))]

/-- `slotOf` reads the table blocks of the inode and no others. -/
theorem slotOf_congr {D' : Disk} (h : ∀ t : Slot, t.isTable = true → slotOf D n t ≠ 0 →
      D' (slotOf D n t) = D (slotOf D n t)) : slotOf D' n = slotOf D n := by
  have hl1 : ∀ i, l1Of D' n i = l1Of D n i :=
    l1Of_congr (fun h0 => h .dind rfl (toNat_ne_zero.mpr h0))
  funext s
  cases s with
  | data j =>
    refine slotOf_data_congr (fun _ => rfl) (fun _ _ => ?_) fun _ => ?_
    · by_cases h0 : n.indirect = 0
      · rw [if_pos h0, if_pos h0]
      · have htable := h .ind rfl (toNat_ne_zero.mpr h0)
        rw [slotOf_ind] at htable
        rw [if_neg h0, if_neg h0, htable]
    · rw [hl1]
      by_cases h0 : l1Of D n ((j - 1036) / 1024) = 0
      · rw [if_pos h0, if_pos h0]
      · rw [if_neg h0, if_neg h0]
        have htable := h (.l1 ((j - 1036) / 1024)) rfl h0
        rw [slotOf_l1] at htable
        rw [htable]
  | ind => rfl
  | dind => rfl
  | l1 i => exact hl1 i

/-! ## Storing a block in a slot -/

/-- The disk and inode with block `b` stored in slot `s`: in the inode for a direct
pointer and for the two top tables, in a table block otherwise. -/
def attach (D : Disk) (n : Inode) (s : Slot) (b : UInt32) : Disk × Inode :=
  match s with
  | .data j =>
    if h : j < 12 then (D, { n with direct := n.direct.set j b })
    else if j < 1036 then
      (D.put n.indirect.toNat ((D n.indirect.toNat).setPtr (j - 12) b), n)
    else
      (D.put (l1Of D n ((j - 1036) / 1024))
        ((D (l1Of D n ((j - 1036) / 1024))).setPtr ((j - 1036) % 1024) b), n)
  | .ind => (D, { n with indirect := b })
  | .dind => (D, { n with dindirect := b })
  | .l1 i => (D.put n.dindirect.toNat ((D n.dindirect.toNat).setPtr i b), n)

/-- The slot that holds the table a slot is stored in, if it is stored in one. -/
def Slot.parent : Slot → Option Slot
  | .data j => if j < 12 then none else if j < 1036 then some .ind
      else some (.l1 ((j - 1036) / 1024))
  | .ind => none
  | .dind => none
  | .l1 _ => some .dind

theorem Slot.parent_isTable {p : Slot} (h : s.parent = some p) : p.isTable = true := by
  cases s with
  | data j =>
    rw [Slot.parent] at h
    split_ifs at h <;> (cases h; rfl)
  | ind | dind => exact absurd h (by simp [Slot.parent])
  | l1 i => cases h; rfl

/-- A slot can be filled when the table it is stored in exists and it is in range. -/
structure Ready (D : Disk) (n : Inode) (s : Slot) : Prop where
  mem : s ∈ allSlots
  parent : ∀ p, s.parent = some p → slotOf D n p ≠ 0

/-- `attach` changes no block but the table the slot is stored in. -/
theorem attach_apply_ne (D : Disk) (n : Inode) (s : Slot) (b : UInt32) {c : ℕ}
    (h : ∀ p, s.parent = some p → slotOf D n p ≠ c) : (attach D n s b).1 c = D c := by
  cases s with
  | data j =>
    rw [attach]
    by_cases h12 : j < 12
    · rw [dif_pos h12]
    split_ifs with h1036
    · refine Disk.put_ne _ _ ?_
      exact (h .ind (by simp [Slot.parent, h12, h1036])).symm
    · refine Disk.put_ne _ _ ?_
      exact (h (.l1 ((j - 1036) / 1024)) (by simp [Slot.parent, h12, h1036])).symm
  | ind => rfl
  | dind => rfl
  | l1 i =>
    refine Disk.put_ne _ _ ?_
    exact (h .dind rfl).symm

section Attach

variable {D : Disk} {n : Inode} {b : UInt32}

theorem slotOf_attach_direct (hj : j < 12) : slotOf D { n with direct := n.direct.set j b }
      = update (slotOf D n) (.data j) b.toNat := by
  funext t
  cases t with
  | data k =>
    by_cases hkj : k = j
    · subst hkj
      rw [update_self, slotOf_data_direct _ _ hj, Vector.getElem_set_self]
    rw [update_of_ne (by simpa using hkj)]
    exact slotOf_data_congr (fun _ => Vector.getElem_set_ne hj _ (Ne.symm hkj))
      (fun _ _ => rfl) fun _ => rfl
  | ind | dind | l1 i => rw [update_of_ne (by simp)]; rfl

/-- The indirect table: it is empty, so no data slot appears behind it. -/
theorem slotOf_attach_ind (hs : n.indirect = 0) (hzero : D b.toNat = Mem.zero) :
    slotOf D { n with indirect := b } = update (slotOf D n) .ind b.toNat := by
  funext t
  cases t with
  | data k =>
    rw [update_of_ne (by simp)]
    refine slotOf_data_congr (fun _ => rfl) (fun _ _ => ?_) fun _ => rfl
    rw [if_pos hs, hzero]
    simp
  | ind => rw [update_self]; rfl
  | dind | l1 i => rw [update_of_ne (by simp)]; rfl

/-- The double-indirect table: it is empty, so no level-1 table appears behind it. -/
theorem slotOf_attach_dind (hs : n.dindirect = 0) (hzero : D b.toNat = Mem.zero) :
    slotOf D { n with dindirect := b } = update (slotOf D n) .dind b.toNat := by
  have hold : ∀ i, l1Of D n i = 0 := fun i => if_pos (.inl hs)
  have hnew : ∀ i, l1Of D { n with dindirect := b } i = 0 := by
    intro i
    rw [l1Of]
    by_cases hc : b = 0 ∨ 1024 ≤ i
    · rw [if_pos hc]
    · rw [if_neg hc, hzero, Block.ptr_zero]
      rfl
  funext t
  cases t with
  | data k =>
    rw [update_of_ne (by simp)]
    refine slotOf_data_congr (fun _ => rfl) (fun _ _ => rfl) fun _ => ?_
    rw [if_pos (hold _), if_pos (hnew _)]
  | ind => rw [update_of_ne (by simp)]; rfl
  | dind => rw [update_self]; rfl
  | l1 i => rw [update_of_ne (by simp), slotOf_l1, slotOf_l1, hnew, hold]

/-- No two slots of the inode hold the same block. -/
abbrev SlotInj (D : Disk) (n : Inode) : Prop :=
  ∀ t u, slotOf D n t ≠ 0 → slotOf D n t = slotOf D n u → t = u

/-- A data block behind the indirect table. The other tables are other blocks, so only
the entry that was written changes. -/
theorem slotOf_attach_indirect (h1 : 12 ≤ j) (h2 : j < 1036) (hp : n.indirect ≠ 0)
    (hinj : SlotInj D n) :
    slotOf (D.put n.indirect.toNat ((D n.indirect.toNat).setPtr (j - 12) b)) n
      = update (slotOf D n) (.data j) b.toNat := by
  have hind : slotOf D n .ind ≠ 0 := toNat_ne_zero.mpr hp
  have hother : ∀ t, t ≠ .ind → slotOf D n t ≠ n.indirect.toNat := by
    intro t ht heq
    exact ht (hinj .ind t hind heq.symm).symm
  have hl1 : ∀ i, l1Of (D.put n.indirect.toNat ((D n.indirect.toNat).setPtr (j - 12) b)) n i
      = l1Of D n i :=
    l1Of_congr (fun _ => Disk.put_ne _ _ (hother .dind (by simp)))
  funext t
  cases t with
  | data k =>
    by_cases hkj : k = j
    · subst hkj
      rw [update_self, slotOf_data_indirect _ _ h1 h2, if_neg hp, Disk.put_same,
        Block.ptr_setPtr_same _ _ (by omega)]
    rw [update_of_ne (by simpa using hkj)]
    refine slotOf_data_congr (fun _ => rfl) (fun _ _ => ?_) fun _ => ?_
    · rw [Disk.put_same, Block.ptr_setPtr_ne _ _ (by omega)]
    · rw [hl1,
        Disk.put_ne _ _ (show l1Of D n _ ≠ _ from hother (.l1 ((k - 1036) / 1024)) (by simp))]
  | ind | dind => rw [update_of_ne (by simp)]; rfl
  | l1 i => rw [update_of_ne (by simp), slotOf_l1, slotOf_l1, hl1]

/-- A level-1 table: it is empty, so no data slot appears behind it. -/
theorem slotOf_attach_l1 (hi : i < 1024) (hp : n.dindirect ≠ 0)
    (hs : slotOf D n (.l1 i) = 0) (hzero : D b.toNat = Mem.zero)
    (hfresh : ∀ t, slotOf D n t ≠ b.toNat) (hinj : SlotInj D n) :
    slotOf (D.put n.dindirect.toNat ((D n.dindirect.toNat).setPtr i b)) n
      = update (slotOf D n) (.l1 i) b.toNat := by
  have hdind : slotOf D n .dind ≠ 0 := toNat_ne_zero.mpr hp
  have hother : ∀ t, t ≠ .dind → slotOf D n t ≠ n.dindirect.toNat := by
    intro t ht heq
    exact ht (hinj .dind t hdind heq.symm).symm
  have hl1 : ∀ k, l1Of (D.put n.dindirect.toNat ((D n.dindirect.toNat).setPtr i b)) n k
      = if k = i then b.toNat else l1Of D n k := by
    intro k
    rw [l1Of, l1Of]
    by_cases hk : 1024 ≤ k
    · rw [if_pos (.inr hk), if_neg (by omega), if_pos (.inr hk)]
    · rw [if_neg (by simp [hp]; omega), Disk.put_same]
      by_cases hki : k = i
      · subst hki
        rw [if_pos rfl, Block.ptr_setPtr_same _ _ hi]
      · rw [if_neg hki, if_neg (by simp [hp]; omega), Block.ptr_setPtr_ne _ _ (Ne.symm hki)]
  funext t
  cases t with
  | data k =>
    rw [update_of_ne (by simp)]
    refine slotOf_data_congr (fun _ => rfl) (fun _ _ => ?_) fun _ => ?_
    · rw [Disk.put_ne _ _ (show n.indirect.toNat ≠ _ from hother .ind (by simp))]
    rw [hl1]
    by_cases hki : (k - 1036) / 1024 = i
    · -- the new table: nothing was behind it, and it is all zeros
      rw [slotOf_l1] at hs
      rw [if_pos hki, hki, if_pos hs,
        Disk.put_ne _ _ (show b.toNat ≠ n.dindirect.toNat from Ne.symm (hfresh .dind)), hzero]
      simp
    · rw [if_neg hki, Disk.put_ne _ _
          (show l1Of D n _ ≠ _ from hother (.l1 ((k - 1036) / 1024)) (by simp))]
  | ind | dind => rw [update_of_ne (by simp)]; rfl
  | l1 k =>
    rw [slotOf_l1, hl1]
    by_cases hki : k = i
    · subst hki
      rw [if_pos rfl, update_self]
    · rw [if_neg hki, update_of_ne (by simpa using hki), slotOf_l1]

theorem slotOf_attach_dindirect (h1 : 1036 ≤ j)
    (hp : slotOf D n (.l1 ((j - 1036) / 1024)) ≠ 0) (hinj : SlotInj D n) :
    slotOf (D.put (l1Of D n ((j - 1036) / 1024))
        ((D (l1Of D n ((j - 1036) / 1024))).setPtr ((j - 1036) % 1024) b)) n
      = update (slotOf D n) (.data j) b.toNat := by
  have hother : ∀ t, t ≠ .l1 ((j - 1036) / 1024) →
      slotOf D n t ≠ l1Of D n ((j - 1036) / 1024) := by
    intro t ht heq
    exact ht (hinj _ t hp heq.symm).symm
  have hl1 : ∀ i, l1Of (D.put (l1Of D n ((j - 1036) / 1024))
      ((D (l1Of D n ((j - 1036) / 1024))).setPtr ((j - 1036) % 1024) b)) n i = l1Of D n i :=
    l1Of_congr (fun _ => Disk.put_ne _ _ (hother .dind (by simp)))
  rw [slotOf_l1] at hp
  funext t
  cases t with
  | data k =>
    by_cases hkj : k = j
    · subst hkj
      rw [update_self, slotOf_data_dindirect _ _ h1, hl1, if_neg hp, Disk.put_same,
        Block.ptr_setPtr_same _ _ (by omega)]
    rw [update_of_ne (by simpa using hkj)]
    refine slotOf_data_congr (fun _ => rfl) (fun _ _ => ?_) fun _ => ?_
    · rw [Disk.put_ne _ _ (show n.indirect.toNat ≠ _ from hother .ind (by simp))]
    rw [hl1]
    by_cases hki : (k - 1036) / 1024 = (j - 1036) / 1024
    · rw [hki, Disk.put_same, Block.ptr_setPtr_ne _ _ (by omega)]
    · rw [Disk.put_ne _ _ (show l1Of D n _ ≠ _ from hother (.l1 ((k - 1036) / 1024))
        (by simpa using hki))]
  | ind | dind => rw [update_of_ne (by simp)]; rfl
  | l1 i => rw [update_of_ne (by simp), slotOf_l1, slotOf_l1, hl1]

/-- **Storing a fresh block.** A zeroed block that no slot holds, stored in an empty
slot whose table exists, appears in that slot and nothing else changes. -/
theorem slotOf_attach (hready : Ready D n s) (hs : slotOf D n s = 0)
    (hzero : D b.toNat = Mem.zero) (hfresh : ∀ t, slotOf D n t ≠ b.toNat) (hinj : SlotInj D n) :
    slotOf (attach D n s b).1 (attach D n s b).2 = update (slotOf D n) s b.toNat := by
  cases s with
  | data j =>
    rw [attach]
    by_cases h12 : j < 12
    · rw [dif_pos h12]
      exact slotOf_attach_direct h12
    split_ifs with h1036
    · have hp := hready.parent .ind (by simp [Slot.parent, h12, h1036])
      exact slotOf_attach_indirect (by omega) h1036 (toNat_ne_zero.mp hp) hinj
    · have hp := hready.parent (.l1 ((j - 1036) / 1024)) (by simp [Slot.parent, h12, h1036])
      exact slotOf_attach_dindirect (by omega) hp hinj
  | ind =>
    have h0 : n.indirect = 0 := by
      by_contra hne
      exact toNat_ne_zero.mpr hne hs
    exact slotOf_attach_ind h0 hzero
  | dind =>
    have h0 : n.dindirect = 0 := by
      by_contra hne
      exact toNat_ne_zero.mpr hne hs
    exact slotOf_attach_dind h0 hzero
  | l1 i =>
    have hp := hready.parent .dind rfl
    exact slotOf_attach_l1 (mem_allSlots_l1_iff.mp hready.mem) (toNat_ne_zero.mp hp) hs hzero
      hfresh hinj

end Attach

end HepOS.HepFS
