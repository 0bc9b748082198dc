/-
Block accounting, and the two disk steps that every HepFS mutation is made of.

`Acc D V` relates a disk to an inode table `V`: the block bit map and the slots of the
live inodes of `V` form a consistent ledger, occupied slots form a prefix, and `nblocks`
counts them. `V` is a parameter rather than the table on the disk because `write_file`
keeps the inode it is growing in memory until the end: while it runs, the invariant
holds of the disk together with that inode.

`Acc.grow` is the step "allocate a block and store it in the next empty slot", and
`Acc.put_data` the step "overwrite a data block".
-/
import HepOS.HepFS.Slots

set_option autoImplicit false

namespace HepOS.HepFS

open Bytes Hoare Ledger Function

variable {b c i : ℕ} {n : Inode}

/-! ## The invariant -/

/-- Inode `i` is in use. -/
def Live (V : ℕ → Inode) (i : ℕ) : Prop := i < 1024 ∧ (V i).flags ≠ F_FREE

/-- The block bit map marks block `b` as used. -/
def UsedBlock (D : Disk) (b : ℕ) : Prop := b < 131072 ∧ bitAt D 2 b = true

/-- The occupied slots form a prefix: data blocks `0 .. m-1` and level-1 tables
`0 .. t-1`. This is what makes the loops that stop at the first zero pointer complete. -/
structure Shape (h : Slot → ℕ) (m t : ℕ) : Prop where
  data : ∀ j, h (.data j) ≠ 0 ↔ j < m
  l1 : ∀ i, h (.l1 i) ≠ 0 ↔ i < t

theorem Shape.data_end {h : Slot → ℕ} {m t j : ℕ} (hsh : Shape h m t)
    (h0 : h (.data j) = 0) : m ≤ j :=
  Nat.not_lt.mp fun hlt => (hsh.data j).mpr hlt h0

theorem Shape.l1_end {h : Slot → ℕ} {m t i : ℕ} (hsh : Shape h m t) (h0 : h (.l1 i) = 0) : t ≤ i :=
  Nat.not_lt.mp fun hlt => (hsh.l1 i).mpr hlt h0

/-- Block accounting of the disk `D` with the inode table `V`. -/
structure Acc (D : Disk) (V : ℕ → Inode) : Prop where
  ledger : Consistent (Live V) (fun i => slotOf D (V i)) (UsedBlock D) (· < 38)
  shape : ∀ i, Live V i → ∃ m t, Shape (slotOf D (V i)) m t
  nblocks : ∀ i, Live V i → (V i).nblocks.toNat = heldCount allSlots (slotOf D (V i))
  kind : ∀ i, Live V i → (V i).flags = F_FILE
    ∨ ((V i).flags = F_DIR ∧ (V i).indirect = 0 ∧ (V i).dindirect = 0)

section

variable {D : Disk} {V : ℕ → Inode}

theorem Acc.range (h : Acc D V) (hi : Live V i) {s : Slot}
    (hs : slotOf D (V i) s ≠ 0) : 38 ≤ slotOf D (V i) s ∧ slotOf D (V i) s < 131072 := by
  have hres := h.ledger.not_reserved i hi s hs
  have hused := h.ledger.used_of_held hi hs
  exact ⟨by omega, hused.1⟩

theorem Acc.slotInj (h : Acc D V) (hi : Live V i) : SlotInj D (V i) := by
  intro t u ht heq
  exact (h.ledger.inj i i hi hi t u ht heq).2

theorem Acc.slot_ne_fresh (h : Acc D V) (hb : Fresh D b) (hi : Live V i) (s : Slot) :
    slotOf D (V i) s ≠ b := by
  have hge := hb.ge
  have hunused : ¬ UsedBlock D b := by
    rintro ⟨-, hset⟩
    rw [hb.clear] at hset
    simp at hset
  exact h.ledger.held_ne_of_not_used hunused (by omega) hi s

theorem slotOf_grab (hb : Fresh D b)
    (hrange : ∀ t, slotOf D n t ≠ 0 → 38 ≤ slotOf D n t) (hne : ∀ t, slotOf D n t ≠ b) :
    slotOf (grab D b) n = slotOf D n := by
  refine slotOf_congr ?_
  intro t _ ht
  have hlt := hb.lt
  have hge := hrange t ht
  exact grab_apply_ne D (hne t) (by omega)

/-- Claiming a fresh block changes no slot of a live inode. -/
theorem Acc.slotOf_grab (h : Acc D V) (hb : Fresh D b) (hi : Live V i) :
    slotOf (grab D b) (V i) = slotOf D (V i) :=
  HepFS.slotOf_grab hb (fun _ ht => (h.range hi ht).1) (h.slot_ne_fresh hb hi)

/-! ## Growing an inode -/

/-- The disk and inode after block `b` is claimed and stored in slot `s`. -/
def grown (D : Disk) (n : Inode) (s : Slot) (b : UInt32) : Disk × Inode :=
  let r := attach (grab D b.toNat) n s b
  (r.1, { r.2 with nblocks := r.2.nblocks + 1 })

theorem slotOf_nblocks (D : Disk) (n : Inode) (k : UInt32) :
    slotOf D { n with nblocks := k } = slotOf D n := by
  funext s
  cases s <;> rfl

theorem attach_flags (D : Disk) (n : Inode) (s : Slot) (b : UInt32) :
    (attach D n s b).2.flags = n.flags := by
  cases s with
  | data j =>
    rw [attach]
    split_ifs <;> rfl
  | ind => rfl
  | dind => rfl
  | l1 i => rfl

theorem attach_nblocks (D : Disk) (n : Inode) (s : Slot) (b : UInt32) :
    (attach D n s b).2.nblocks = n.nblocks := by
  cases s with
  | data j =>
    rw [attach]
    split_ifs <;> rfl
  | ind => rfl
  | dind => rfl
  | l1 i => rfl

@[simp] theorem grown_flags (D : Disk) (n : Inode) (s : Slot) (b : UInt32) :
    (grown D n s b).2.flags = n.flags := attach_flags _ _ _ _

theorem grown_nblocks (D : Disk) (n : Inode) (s : Slot) (b : UInt32) :
    (grown D n s b).2.nblocks = n.nblocks + 1 := by
  rw [grown]
  rw [attach_nblocks]

theorem length_allSlots_lt : allSlots.length < 2 ^ 32 - 1 := by
  unfold allSlots
  norm_num

theorem heldCount_lt (h : Slot → ℕ) : heldCount allSlots h < 2 ^ 32 - 1 :=
  lt_of_le_of_lt List.countP_le_length length_allSlots_lt

theorem bitAt_grown {s : Slot} {b : UInt32} (hb : Fresh D b.toNat)
    (hrange : ∀ t, slotOf (grab D b.toNat) n t ≠ 0 → 38 ≤ slotOf (grab D b.toNat) n t)
    (hready : Ready (grab D b.toNat) n s) (hc : c < 131072) :
    bitAt (grown D n s b).1 2 c = if c = b.toNat then true else bitAt D 2 c := by
  rw [← bitAt_grab D hb.ge c hc]
  refine bitAt_congr (attach_apply_ne _ _ _ _ ?_)
  intro p hp heq
  have hge := hrange p (hready.parent p hp)
  omega

end

/-- A slot that may be filled next: it is empty, its table exists, and it continues the
prefix of occupied slots. -/
structure NextSlot (D : Disk) (n : Inode) (s : Slot) : Prop where
  ready : Ready D n s
  empty : slotOf D n s = 0
  next_data : ∀ m t, Shape (slotOf D n) m t → ∀ j, s = .data j → j = m
  next_l1 : ∀ m t, Shape (slotOf D n) m t → ∀ i, s = .l1 i → i = t

section

variable {D : Disk} {V : ℕ → Inode} {f : ℕ} {s : Slot} {b : UInt32}

section

variable (h : Acc D V) (hf : Live V f) (hb : Fresh D b.toNat)

include h hf hb

theorem Acc.ready_grab (hs : NextSlot D (V f) s) : Ready (grab D b.toNat) (V f) s := by
  refine ⟨hs.ready.mem, ?_⟩
  rw [h.slotOf_grab hb hf]
  exact hs.ready.parent

theorem Acc.slotOf_grown (hs : NextSlot D (V f) s) :
    slotOf (grown D (V f) s b).1 (grown D (V f) s b).2 = update (slotOf D (V f)) s b.toNat := by
  have hsame := h.slotOf_grab hb hf
  rw [grown, slotOf_nblocks, ← hsame]
  refine slotOf_attach (h.ready_grab hf hb hs) ?_ (grab_apply_same D b.toNat) ?_ ?_
  · rw [hsame]
    exact hs.empty
  · rw [hsame]
    exact h.slot_ne_fresh hb hf
  · rw [SlotInj, hsame]
    exact h.slotInj hf

/-- A block that `grown` changes is the new block, a block of the bit map or the table
of the slot. -/
theorem Acc.grown_apply_ne
    (hcb : c ≠ b.toNat) (hbm : c < 2 ∨ 6 ≤ c) (hp : ∀ p, s.parent = some p → slotOf D (V f) p ≠ c) :
    (grown D (V f) s b).1 c = D c := by
  have hlt := hb.lt
  rw [grown]
  rw [attach_apply_ne _ _ _ _ (by rw [h.slotOf_grab hb hf]; exact hp)]
  exact grab_apply_ne D hcb (by omega)

theorem Acc.slotOf_grown_other (hs : NextSlot D (V f) s) (hi : Live V i) (hif : i ≠ f) :
    slotOf (grown D (V f) s b).1 (V i) = slotOf D (V i) := by
  refine slotOf_congr ?_
  intro t _ ht
  have hge := (h.range hi ht).1
  refine h.grown_apply_ne hf hb (h.slot_ne_fresh hb hi t) (by omega) ?_
  intro p hp heq
  exact hif (h.ledger.inj f i hf hi p t (hs.ready.parent p hp) heq).1.symm

theorem Acc.bitAt_grown (hs : NextSlot D (V f) s) (hc : c < 131072) :
    bitAt (grown D (V f) s b).1 2 c = if c = b.toNat then true else bitAt D 2 c := by
  refine HepFS.bitAt_grown hb ?_ (h.ready_grab hf hb hs) hc
  rw [h.slotOf_grab hb hf]
  exact fun t ht => (h.range hf ht).1

end

theorem live_update (hf : Live V f) (hn : n.flags = (V f).flags) (i : ℕ) :
    Live (update V f n) i ↔ Live V i := by
  by_cases hif : i = f
  · subst hif
    rw [Live, Live, update_self, hn]
  · rw [Live, Live, update_of_ne hif]

/-- The occupied slots stay a prefix when the next one is filled. -/
theorem Shape.grow {h : Slot → ℕ} {m t : ℕ} (hsh : Shape h m t) (hc : c ≠ 0)
    (hdata : ∀ j, s = .data j → j = m) (hl1 : ∀ i, s = .l1 i → i = t) :
    ∃ m' t', Shape (update h s c) m' t' := by
  have hd : ∀ j, Slot.data j ≠ s → update h s c (.data j) = h (.data j) :=
    fun j hj => update_of_ne hj _ _
  have hl : ∀ i, Slot.l1 i ≠ s → update h s c (.l1 i) = h (.l1 i) :=
    fun i hi => update_of_ne hi _ _
  cases s with
  | data j =>
    obtain rfl := hdata j rfl
    refine ⟨j + 1, t, ?_, fun i => by rw [hl i (by simp)]; exact hsh.l1 i⟩
    intro k
    by_cases hk : k = j
    · subst hk
      simp [hc]
    · rw [hd k (by simpa using hk), hsh.data]
      omega
  | ind | dind =>
    exact ⟨m, t, fun j => by rw [hd j (by simp)]; exact hsh.data j,
      fun i => by rw [hl i (by simp)]; exact hsh.l1 i⟩
  | l1 i =>
    obtain rfl := hl1 i rfl
    refine ⟨m, i + 1, fun j => by rw [hd j (by simp)]; exact hsh.data j, ?_⟩
    intro k
    by_cases hk : k = i
    · subst hk
      simp [hc]
    · rw [hl k (by simpa using hk), hsh.l1]
      omega

/-- **The allocation step.** Claiming a fresh block and storing it in the next empty
slot of a live inode keeps the accounting; a directory may only grow by direct
pointers. -/
theorem Acc.grow (h : Acc D V) (hf : Live V f) (hb : Fresh D b.toNat) (hs : NextSlot D (V f) s)
    (hk : (V f).flags = F_FILE ∨ ∃ j, j < 12 ∧ s = .data j) :
    Acc (grown D (V f) s b).1 (update V f (grown D (V f) s b).2) := by
  have hge := hb.ge
  have hslots := h.slotOf_grown hf hb hs
  have hlive := live_update hf (grown_flags D (V f) s b)
  have hself : ∀ t, slotOf (grown D (V f) s b).1
      (update V f (grown D (V f) s b).2 f) t
        = update (slotOf D (V f)) s b.toNat t := by
    intro t
    rw [update_self, hslots]
  have hother : ∀ i, Live V i → i ≠ f → slotOf (grown D (V f) s b).1
      (update V f (grown D (V f) s b).2 i) = slotOf D (V i) := by
    intro i hi hif
    rw [update_of_ne hif, h.slotOf_grown_other hf hb hs hi hif]
  refine ⟨?_, ?_, ?_, ?_⟩
  · -- the ledger: an allocation into an empty slot of `f`
    have hcons : Consistent (Live V)
        (fun i => slotOf (grown D (V f) s b).1 (update V f (grown D (V f) s b).2 i))
        (UsedBlock (grown D (V f) s b).1) (· < 38) :=
      h.ledger.alloc (b := b.toNat) hf (by omega)
      (by rintro ⟨-, hset⟩; rw [hb.clear] at hset; exact absurd hset (by simp))
      (by rw [hself, update_self])
      (by intro t ht; rw [hself, update_of_ne ht])
      (by intro j hj hjf t; rw [hother j hj hjf])
      hs.empty
      (by
        intro c
        rw [UsedBlock, UsedBlock]
        by_cases hc : c < 131072
        · rw [h.bitAt_grown hf hb hs hc]
          by_cases hcb : c = b.toNat
          · simp [hcb, hb.lt]
          · simp [hcb]
        · have hcb : c ≠ b.toNat := by
            have := hb.lt
            omega
          simp [hc, hcb])
    exact hcons.congr hlive (fun i _ t => rfl) (fun c => Iff.rfl)
  · intro i hi
    rw [hlive] at hi
    by_cases hif : i = f
    · subst hif
      obtain ⟨m, t, hsh⟩ := h.shape i hi
      rw [update_self, hslots]
      exact hsh.grow (by omega) (hs.next_data m t hsh) (hs.next_l1 m t hsh)
    · rw [hother i hi hif]
      exact h.shape i hi
  · intro i hi
    rw [hlive] at hi
    by_cases hif : i = f
    · subst hif
      have hcount : heldCount allSlots (update (slotOf D (V i)) s b.toNat)
          = heldCount allSlots (slotOf D (V i)) + 1 :=
        heldCount_fill nodup_allSlots hs.ready.mem hs.empty
        (by rw [update_self]; omega) (fun t ht => update_of_ne ht _ _)
      have hold := h.nblocks i hi
      have hlt := heldCount_lt (slotOf D (V i))
      rw [update_self, hslots, hcount, grown_nblocks, UInt32.toNat_add, hold]
      have hone : (1 : UInt32).toNat = 1 := rfl
      rw [hone, Nat.mod_eq_of_lt (by omega)]
    · rw [hother i hi hif, update_of_ne hif]
      exact h.nblocks i hi
  · intro i hi
    rw [hlive] at hi
    by_cases hif : i = f
    · subst hif
      rw [update_self, grown_flags]
      -- a directory grows by direct blocks only: it has no tables
      rcases h.kind i hi with hfile | ⟨hdir, hi0, hd0⟩
      · exact .inl hfile
      · rcases hk with hfile | ⟨j, hj, rfl⟩
        · exact .inl hfile
        · refine .inr ⟨hdir, ?_, ?_⟩
          · rw [grown, attach, dif_pos hj]
            exact hi0
          · rw [grown, attach, dif_pos hj]
            exact hd0
    · rw [update_of_ne hif]
      exact h.kind i hi

/-! ## Overwriting a data block -/

/-- A disk that differs from `D` only in one data block of `f`, and in no bit, has the
same slots. -/
theorem Acc.slotOf_put_data (h : Acc D V) (hf : Live V f) (j : ℕ) (p : Block) (hi : Live V i) :
    slotOf (D.put (slotOf D (V f) (.data j)) p) (V i) = slotOf D (V i) := by
  refine slotOf_congr ?_
  intro t ht hne
  refine Disk.put_ne _ _ ?_
  intro heq
  have hts := (h.ledger.inj i f hi hf t (.data j) hne heq).2
  rw [hts] at ht
  exact absurd ht (by simp [Slot.isTable])

theorem bitAt_put {p : Block} {x : ℕ} (hc : 38 ≤ c) (hx : x < 131072) :
    bitAt (D.put c p) 2 x = bitAt D 2 x := bitAt_congr (Disk.put_ne _ _ (by omega))

/-- **The data step.** Overwriting a data block keeps the accounting. -/
theorem Acc.put_data (h : Acc D V) (hf : Live V f) {j : ℕ}
    (hj : slotOf D (V f) (.data j) ≠ 0) (p : Block) :
    Acc (D.put (slotOf D (V f) (.data j)) p) V := by
  have hge := (h.range hf hj).1
  have hslots : ∀ i, Live V i → slotOf (D.put (slotOf D (V f) (.data j)) p) (V i)
      = slotOf D (V i) := fun i hi => h.slotOf_put_data hf j p hi
  refine ⟨?_, ?_, ?_, h.kind⟩
  · refine h.ledger.congr (fun _ => Iff.rfl) (fun i hi t => by rw [hslots i hi]) ?_
    intro c
    refine and_congr_right fun hc => ?_
    rw [bitAt_put hge hc]
  · intro i hi
    rw [hslots i hi]
    exact h.shape i hi
  · intro i hi
    rw [hslots i hi]
    exact h.nblocks i hi

end

/-! ## What the accounting depends on -/

/-- The inodes agree in everything the accounting reads; `size` and the times may differ. -/
structure SameBlocks (n' n : Inode) : Prop where
  flags : n'.flags = n.flags
  nblocks : n'.nblocks = n.nblocks
  direct : n'.direct = n.direct
  indirect : n'.indirect = n.indirect
  dindirect : n'.dindirect = n.dindirect

theorem SameBlocks.rfl : SameBlocks n n :=
  ⟨Eq.refl _, Eq.refl _, Eq.refl _, Eq.refl _, Eq.refl _⟩

theorem SameBlocks.slotOf {n' : Inode} (h : SameBlocks n' n) (D : Disk) :
    slotOf D n' = slotOf D n := by
  have hl1 : l1Of D n' = l1Of D n := by
    funext i
    rw [l1Of, l1Of, h.dindirect]
  funext s
  cases s with
  | data j => simp only [HepFS.slotOf, h.direct, h.indirect, hl1]
  | ind => exact congrArg UInt32.toNat h.indirect
  | dind => exact congrArg UInt32.toNat h.dindirect
  | l1 i => exact congrFun hl1 i

/-- The accounting does not see the superblock, the inode bit map and the inode table,
nor fields of the inodes other than those in `SameBlocks`. -/
theorem Acc.congr {D D' : Disk} {V V' : ℕ → Inode} (h : Acc D V)
    (hD : ∀ c, (2 ≤ c ∧ c < 6) ∨ 38 ≤ c → D' c = D c) (hV : ∀ i < 1024, SameBlocks (V' i) (V i)) :
    Acc D' V' := by
  have hlive : ∀ i, Live V' i ↔ Live V i := by
    intro i
    refine and_congr_right fun hi => ?_
    rw [(hV i hi).flags]
  have hslots : ∀ i, Live V i → slotOf D' (V' i) = slotOf D (V i) := by
    intro i hi
    rw [(hV i hi.1).slotOf]
    refine slotOf_congr ?_
    intro t _ ht
    exact hD _ (.inr (h.range hi ht).1)
  refine ⟨?_, ?_, ?_, ?_⟩
  · refine h.ledger.congr hlive (fun i hi s => by rw [hslots i hi]) ?_
    intro c
    refine and_congr_right fun hc => ?_
    rw [bitAt_congr (hD _ (by omega))]
  · intro i hi
    rw [hlive] at hi
    rw [hslots i hi]
    exact h.shape i hi
  · intro i hi
    rw [hlive] at hi
    rw [hslots i hi, (hV i hi.1).nblocks]
    exact h.nblocks i hi
  · intro i hi
    rw [hlive] at hi
    rw [(hV i hi.1).flags, (hV i hi.1).indirect, (hV i hi.1).dindirect]
    exact h.kind i hi

/-! ## A new inode -/

/-- An inode without blocks. -/
structure Bare (n : Inode) : Prop where
  nblocks : n.nblocks = 0
  direct : n.direct = Vector.replicate 12 0
  indirect : n.indirect = 0
  dindirect : n.dindirect = 0

theorem Bare.slotOf (h : Bare n) (D : Disk) : slotOf D n = fun _ => 0 := by
  have hl1 : ∀ i, l1Of D n i = 0 := fun i => if_pos (.inl h.dindirect)
  funext s
  cases s with
  | data j =>
    by_cases h12 : j < 12
    · rw [slotOf_data_direct _ _ h12]
      simp [h.direct]
    by_cases h1036 : j < 1036
    · rw [slotOf_data_indirect _ _ (by omega) h1036, if_pos h.indirect]
    · rw [slotOf_data_dindirect _ _ (by omega), if_pos (hl1 _)]
  | ind => rw [slotOf_ind, h.indirect]; rfl
  | dind => rw [slotOf_dind, h.dindirect]; rfl
  | l1 i => exact hl1 i

/-- **Enrolment.** A free inode may become a file or a directory without blocks. -/
theorem Acc.enrol {D : Disk} {V : ℕ → Inode} (h : Acc D V) (hi : i < 1024)
    (hfree : (V i).flags = F_FREE) (hn : Bare n)
    (hk : n.flags = F_FILE ∨ n.flags = F_DIR) : Acc D (update V i n) := by
  have hslots := hn.slotOf D
  have hnew : n.flags ≠ F_FREE := by
    rcases hk with hk | hk
    · rw [hk]; decide
    · rw [hk]; decide
  have hlive : ∀ j, Live (update V i n) j ↔ Live V j ∨ j = i := by
    intro j
    rw [Live, Live]
    by_cases hji : j = i
    · subst hji
      rw [update_self]
      exact iff_of_true ⟨hi, hnew⟩ (.inr rfl)
    · rw [update_of_ne hji]
      simp [hji]
  have hold : ∀ j, Live V j → update V i n j = V j := by
    intro j hj
    refine update_of_ne ?_ _ _
    rintro rfl
    exact hj.2 hfree
  -- the new inode has no blocks, the others are as before
  refine ⟨?_, ?_, ?_, ?_⟩
  · refine h.ledger.enrol hlive ?_ ?_
    · intro j hj t
      rw [hold j hj]
    · intro t
      rw [update_self, hslots]
  · intro j hj
    rcases (hlive j).mp hj with hj' | rfl
    · rw [hold j hj']
      exact h.shape j hj'
    · rw [update_self, hslots]
      exact ⟨0, 0, fun _ => by simp, fun _ => by simp⟩
  · intro j hj
    rcases (hlive j).mp hj with hj' | rfl
    · rw [hold j hj']
      exact h.nblocks j hj'
    · rw [update_self, hslots, heldCount_zero, hn.nblocks]
      rfl
  · intro j hj
    rcases (hlive j).mp hj with hj' | rfl
    · rw [hold j hj']
      exact h.kind j hj'
    · rw [update_self]
      rcases hk with hk | hk
      · exact .inl hk
      · exact .inr ⟨hk, hn.indirect, hn.dindirect⟩

end HepOS.HepFS
