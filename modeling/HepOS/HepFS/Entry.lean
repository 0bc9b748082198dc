/-
What the directory functions do to the disk and to its view.

Three primitive changes cover them: `putEntry` overwrites the entry at a place, `setSize`
records a new size, `growDir` gives a directory another block. Each keeps the accounting,
and on the view a stored entry is an update at its place while the other two are invisible.
`add_dir_entry_spec` puts the three together.
-/
import HepOS.HepFS.View

set_option autoImplicit false

namespace HepOS.HepFS

open Bytes Hoare Ledger Function

variable {c d i j : ℕ} (D : Disk)

/-! ## Looking into a directory -/

theorem Acc.holds_blocks {s : Fs} (A : Acc s.blk (inodeAt s.blk)) (hc : s.geom.covers)
    (hd : Live (inodeAt s.blk) d) : ∀ b ∈ (inodeAt s.blk d).blocks, s.geom.serves b.toNat := by
  intro b hb
  obtain ⟨hne, j, hj, hjb⟩ := mem_blocks.mp hb
  have hslot := slotOf_data_direct s.blk (inodeAt s.blk d) hj
  rw [hjb] at hslot
  have hr := A.range hd (by rw [hslot]; exact toNat_ne_zero.mpr hne)
  rw [hslot] at hr
  exact hc.holds hr.2

/-- The walk over the entries of a live inode. -/
theorem scan_inode_spec (s : Fs) (hc : s.geom.covers) (A : Acc s.blk (inodeAt s.blk))
    (hd : Live (inodeAt s.blk) d) (test : DirEntry → Bool) :
    ∃ r s', scan_dir test (inodeAt s.blk d).blocks s = .ok r s' ∧ s.To s' s.blk
      ∧ ScanResult s.blk test (inodeAt s.blk d).blocks r :=
  scan_dir_spec test _ s (A.holds_blocks hc hd)

/-- What `find_in_dir` returns. -/
def FindResult (n : Inode) (name : String) : Option UInt32 → Prop
  | none => ∀ q ∈ places n, (entryAt D q).named name = false
  | some ino => ∃ q ∈ places n, (entryAt D q).named name = true ∧ (entryAt D q).inode = ino

theorem find_in_dir_spec (s : Fs) (hc : s.geom.covers) (A : Acc s.blk (inodeAt s.blk))
    (dir_ino : UInt32) (hd : Live (inodeAt s.blk) dir_ino.toNat) (name : String) :
    ∃ r s', find_in_dir dir_ino name s = .ok r s' ∧ s.To s' s.blk
      ∧ FindResult s.blk (inodeAt s.blk dir_ino.toNat) name r := by
  obtain ⟨s1, hr, ht1⟩ := read_inode_spec s dir_ino (hc.holds_inode hd.1)
  have hc1 := hc.of_eq ht1.geom
  obtain ⟨r, s2, hscan, ht2, hres⟩ := scan_inode_spec s1 hc1 (by rw [ht1.blk]; exact A)
    (by rw [ht1.blk]; exact hd) (DirEntry.named name)
  rw [ht1.blk] at hscan ht2 hres
  rw [find_in_dir, bind_of_ok hr, bind_of_ok hscan]
  cases r with
  | none => exact ⟨none, s2, rfl, ht1.trans ht2, hres⟩
  | some r =>
    obtain ⟨blk, buf, i⟩ := r
    obtain ⟨hq, rfl, htest⟩ := hres
    exact ⟨_, s2, rfl, ht1.trans ht2, ⟨(blk.toNat, i), hq, htest, rfl⟩⟩

/-- What `list_dir` returns: the entries in use, in the order of the places. -/
def listing (n : Inode) : List (UInt32 × String) :=
  (places n).filterMap fun q =>
    if (entryAt D q).inode ≠ 0 then some ((entryAt D q).inode, (entryAt D q).name_str) else none

theorem list_dir_spec (s : Fs) (hc : s.geom.covers) (A : Acc s.blk (inodeAt s.blk))
    (dir_ino : UInt32) (hd : kindAt s.blk dir_ino.toNat = F_DIR) :
    ∃ s', list_dir dir_ino s = .ok (listing s.blk (inodeAt s.blk dir_ino.toNat)) s'
      ∧ s.To s' s.blk := by
  have hlive := live_of_dir hd
  obtain ⟨s1, hr, ht1⟩ := read_inode_spec s dir_ino (hc.holds_inode hlive.1)
  have hflags : (inodeAt s.blk dir_ino.toNat).flags = F_DIR := by
    rw [← kindAt_of_lt _ hlive.1]
    exact hd
  obtain ⟨s2, hlist, ht2⟩ := list_blocks_spec (inodeAt s.blk dir_ino.toNat).blocks [] s1 (by
    intro b hb
    rw [ht1.geom]
    exact A.holds_blocks hc hlive b hb)
  rw [ht1.blk] at hlist ht2
  refine ⟨s2, ?_, ht1.trans ht2⟩
  rw [list_dir, bind_of_ok hr, if_neg (not_not.mpr hflags), hlist, List.nil_append, listing,
    places]

/-- A listed name is a name some entry of the view has, and the other way round. -/
theorem mem_listing {D : Disk} (hd : kindAt D d = F_DIR) {ino : UInt32} {name : String} :
    (ino, name) ∈ listing D (inodeAt D d) ↔ ∃ q, (view D).entry d q = some (ino.toNat, name) := by
  rw [listing, List.mem_filterMap]
  refine exists_congr fun q => ?_
  rw [view_entry_some]
  constructor
  · rintro ⟨hq, h⟩
    by_cases hne : (entryAt D q).inode ≠ 0
    · rw [if_pos hne, Option.some.injEq, Prod.mk.injEq] at h
      exact ⟨hd, hq, hne, congrArg UInt32.toNat h.1, h.2⟩
    · rw [if_neg hne] at h
      simp at h
  · rintro ⟨-, hq, hne, hino, hname⟩
    refine ⟨hq, ?_⟩
    rw [if_pos hne, UInt32.toNat_inj.mp hino, hname]

/-! ## Storing an entry -/

/-- The disk with the entry at a place replaced. -/
def putEntry (q : ℕ × ℕ) (e : DirEntry) : Disk := D.put q.1 ((D q.1).setEntry q.2 e)

/-- What an entry stands for in a view. -/
def DirEntry.meaning (e : DirEntry) : Option (ℕ × String) :=
  if e.inode ≠ 0 then some (e.inode.toNat, e.name_str) else none

theorem entryAt_putEntry_same {q : ℕ × ℕ} (hq : q.2 < 128) (e : DirEntry) :
    entryAt (putEntry D q e) q = e := by
  rw [entryAt, putEntry, Disk.put_same, Block.entry_setEntry_same _ _ hq]

theorem entryAt_putEntry_ne {q q' : ℕ × ℕ} (hne : q' ≠ q) (e : DirEntry) :
    entryAt (putEntry D q e) q' = entryAt D q' := by
  rw [entryAt, entryAt, putEntry]
  by_cases hblk : q'.1 = q.1
  · have hidx : q.2 ≠ q'.2 := fun h => hne (Prod.ext hblk h.symm)
    rw [hblk, Disk.put_same, Block.entry_setEntry_ne _ _ hidx]
  · rw [Disk.put_ne _ _ hblk]

/-- The view with one entry replaced. -/
def View.setEntry (v : View) (d : ℕ) (q : ℕ × ℕ) (x : Option (ℕ × String)) : View :=
  { v with entry := update v.entry d (update (v.entry d) q x) }

section

variable {D : Disk} {d : ℕ} {q : ℕ × ℕ} {e : DirEntry}

theorem Acc.place_range (A : Acc D (inodeAt D)) (hd : Live (inodeAt D) d)
    (hq : q ∈ places (inodeAt D d)) : 38 ≤ q.1 ∧ q.1 < 131072 :=
  A.owned_range hd (places_subset_owned D hq)

theorem putEntry_apply_ne (hc : c ≠ q.1) : putEntry D q e c = D c := Disk.put_ne _ _ hc

section

variable (A : Acc D (inodeAt D)) (hd : Live (inodeAt D) d) (hq : q ∈ places (inodeAt D d))

include A hd hq

theorem inodeAt_putEntry (hi : i < 1024) : inodeAt (putEntry D q e) i = inodeAt D i := by
  have hr := A.place_range hd hq
  exact inodeAt_congr (putEntry_apply_ne (by omega))

theorem Acc.putEntry :
    Acc (putEntry D q e) (inodeAt (putEntry D q e)) := by
  obtain ⟨-, hne, j, -, hj⟩ := (mem_places).mp hq
  have hput := A.put_data hd (by rw [hj]; exact hne) ((D q.1).setEntry q.2 e)
  rw [hj] at hput
  refine hput.congr (fun c _ => rfl) ?_
  intro i hi
  rw [inodeAt_putEntry A hd hq hi]
  exact SameBlocks.rfl

end

/-- **Storing an entry** of a directory updates the view at its place. -/
theorem view_putEntry (A : Acc D (inodeAt D)) (hd : kindAt D d = F_DIR)
    (hq : q ∈ places (inodeAt D d)) :
    view (putEntry D q e) = (view D).setEntry d q e.meaning := by
  have hlive := live_of_dir hd
  have hino : ∀ i < 1024, inodeAt (putEntry D q e) i = inodeAt D i :=
    fun i hi => inodeAt_putEntry A hlive hq hi
  have hkind : ∀ i, kindAt (putEntry D q e) i = kindAt D i := by
    intro i
    rw [kindAt, kindAt]
    by_cases hi : i < 1024
    · rw [if_pos hi, if_pos hi, hino i hi]
    · rw [if_neg hi, if_neg hi]
  have hentry : (view (putEntry D q e)).entry d
      = update ((view D).entry d) q e.meaning := by
    refine Function.eq_update_iff.mpr ⟨?_, ?_⟩
    · show (if _ then _ else _) = _
      rw [hkind, hino d hlive.1, entryAt_putEntry_same D ((mem_places (D := D)).mp hq).1,
        DirEntry.meaning]
      by_cases hne : e.inode ≠ 0
      · rw [if_pos ⟨hd, hq, hne⟩, if_pos hne]
      · rw [if_neg (fun h => hne h.2.2), if_neg hne]
    · intro q' hq'
      show (if _ then _ else _) = (if _ then _ else _)
      rw [hkind, hino d hlive.1, entryAt_putEntry_ne D hq']
  rw [view_update A (fun i hi _ => hino i hi) (by
    intro i hi hid c hc
    refine putEntry_apply_ne ?_
    rintro rfl
    exact A.not_owned hlive hi hid hc (places_subset_owned D hq))]
  rw [hentry, hkind, View.setEntry]
  have hbytes : (view (putEntry D q e)).bytes d = (view D).bytes d := by
    rw [view_bytes_of_not_file (by rw [hkind, hd]; decide),
      view_bytes_of_not_file (by rw [hd]; decide)]
  rw [hbytes]
  refine View.ext ?_ rfl ?_
  all_goals exact update_eq_self d _

/-! ## The size of a directory -/

/-- The disk with a new size for inode `d`. -/
def setSize (D : Disk) (d : ℕ) (size : UInt64) : Disk :=
  putInode D d { inodeAt D d with size := size }

theorem setSize_apply_ne {size : UInt64} (hd : d < 1024) (hc : c < 6 ∨ 38 ≤ c) :
    setSize D d size c = D c := putInode_apply_ne _ _ _ (by omega)

theorem inodeAt_setSize_same (size : UInt64) :
    inodeAt (setSize D d size) d = { inodeAt D d with size := size } :=
  inodeAt_putInode_same _ _ _

theorem inodeAt_setSize_ne (size : UInt64) (hi : i ≠ d) :
    inodeAt (setSize D d size) i = inodeAt D i := inodeAt_putInode_ne _ _ hi

theorem Acc.setSize (A : Acc D (inodeAt D)) (hd : d < 1024) (size : UInt64) :
    Acc (setSize D d size) (inodeAt (setSize D d size)) := by
  refine A.congr (fun c hc => setSize_apply_ne hd (by omega)) ?_
  intro i _
  by_cases hid : i = d
  · subst hid
    rw [inodeAt_setSize_same]
    exact ⟨rfl, rfl, rfl, rfl, rfl⟩
  · rw [inodeAt_setSize_ne _ hid]
    exact SameBlocks.rfl

theorem view_setSize (A : Acc D (inodeAt D)) (hd : kindAt D d = F_DIR) (size : UInt64) :
    view (setSize D d size) = view D := by
  have hlive := live_of_dir hd
  have hkind : kindAt (setSize D d size) d = kindAt D d := by
    rw [kindAt_of_lt _ hlive.1, kindAt_of_lt _ hlive.1, inodeAt_setSize_same]
  refine view_unchanged A (fun i _ hid => inodeAt_setSize_ne _ hid) ?_ hkind ?_ ?_
  · intro i hi _ c hc
    exact setSize_apply_ne hlive.1 (.inr (A.owned_range hi hc).1)
  · funext q
    have hplaces : places (inodeAt (setSize D d size) d) = places (inodeAt D d) := by
      rw [inodeAt_setSize_same]
      exact places_congr (Eq.refl _)
    by_cases hq : q ∈ places (inodeAt D d)
    · have he : entryAt (setSize D d size) q = entryAt D q := by
        rw [entryAt, entryAt, setSize_apply_ne hlive.1 (.inr (A.place_range hlive hq).1)]
      show (if _ then _ else _) = (if _ then _ else _)
      rw [hkind, hplaces, he]
    · show (if _ then _ else _) = (if _ then _ else _)
      rw [hplaces, if_neg (fun h => hq h.2.1), if_neg (fun h => hq h.2.1)]
  · rw [view_bytes_of_not_file (by rw [hkind, hd]; decide),
      view_bytes_of_not_file (by rw [hd]; decide)]

/-! ## Another block for a directory -/

/-- The disk after block `b` became direct block `j` of inode `d`. -/
def growDir (D : Disk) (d j : ℕ) (b : UInt32) : Disk :=
  putInode (grown D (inodeAt D d) (.data j) b).1 d (grown D (inodeAt D d) (.data j) b).2

section Grow

variable {j : ℕ} {b : UInt32}

section

variable (hj : j < 12)

include hj

/-- The first empty direct pointer is the next slot. -/
theorem next_direct {n : Inode} (h0 : n.direct[j] = 0)
    (hprev : ∀ i < j, slotOf D n (.data i) ≠ 0) : NextSlot D n (.data j) where
  ready := ⟨mem_allSlots_data_iff.mpr (by omega), fun p hp => absurd hp (by simp [Slot.parent, hj])⟩
  empty := by
    rw [slotOf_data_direct _ _ hj, h0]
    rfl
  next_data := by
    intro m t hsh i hi
    obtain rfl := Slot.data.inj hi
    have hge : m ≤ j := hsh.data_end (by rw [slotOf_data_direct _ _ hj, h0]; rfl)
    by_cases hj0 : j = 0
    · omega
    · have := (hsh.data (j - 1)).mp (hprev (j - 1) (by omega))
      omega
  next_l1 := fun _ _ _ _ hi => absurd hi (by simp)

theorem inodeAt_growDir_same : inodeAt (growDir D d j b) d
    = { inodeAt D d with direct := (inodeAt D d).direct.set j b,
                         nblocks := (inodeAt D d).nblocks + 1 } := by
  rw [growDir, inodeAt_putInode_same, grown_direct hj]

theorem growDir_apply_ne (hd : d < 1024) (hb : Fresh D b.toNat)
    (hcb : c ≠ b.toNat) (hc : c < 2 ∨ 38 ≤ c) : growDir D d j b c = D c := by
  have hlt := hb.lt
  rw [growDir, putInode_apply_ne _ _ _ (by omega), grown_direct hj]
  exact grab_apply_ne _ hcb (by omega)

theorem growDir_apply_same (hd : d < 1024) (hb : Fresh D b.toNat) :
    growDir D d j b b.toNat = Mem.zero := by
  have hge := hb.ge
  rw [growDir, putInode_apply_ne _ _ _ (by omega), grown_direct hj]
  exact grab_apply_same D b.toNat

theorem bitAt_growDir (hd : d < 1024) (hb : Fresh D b.toNat) (hc : c < 131072) :
    bitAt (growDir D d j b) 2 c = if c = b.toNat then true else bitAt D 2 c := by
  rw [← bitAt_grab D hb.ge c hc, growDir, grown_direct hj]
  exact bitAt_congr (putInode_apply_ne _ _ _ (by omega))

theorem inodeAt_growDir_ne (hb : Fresh D b.toNat) (hi : i < 1024)
    (hid : i ≠ d) : inodeAt (growDir D d j b) i = inodeAt D i := by
  have hge := hb.ge
  have hlt := hb.lt
  rw [growDir, inodeAt_putInode_ne _ _ hid, grown_direct hj]
  exact inodeAt_congr (grab_apply_ne _ (by omega) (by omega))

end

section

variable (A : Acc D (inodeAt D)) (hd : Live (inodeAt D) d) (hj : j < 12) (hb : Fresh D b.toNat)

include A hd hj hb

theorem Acc.growDir (hs : NextSlot D (inodeAt D d) (.data j)) :
    Acc (growDir D d j b) (inodeAt (growDir D d j b)) := by
  have hlt := hd.1
  refine (A.grow hd hb hs (.inr ⟨j, hj, rfl⟩)).congr ?_ ?_
  · intro c hc
    exact putInode_apply_ne _ _ _ (by omega)
  · intro i hi
    by_cases hid : i = d
    · subst hid
      rw [update_self, HepFS.growDir, inodeAt_putInode_same]
      exact SameBlocks.rfl
    · rw [update_of_ne hid, inodeAt_growDir_ne hj hb hi hid]
      exact SameBlocks.rfl

/-- The directory keeps its slots and has the new block in the next one. -/
theorem Acc.slotOf_growDir (hs : NextSlot D (inodeAt D d) (.data j)) :
    slotOf (HepFS.growDir D d j b) (inodeAt (HepFS.growDir D d j b) d)
      = update (slotOf D (inodeAt D d)) (.data j) b.toNat := by
  have hlt := hd.1
  have A' := A.grow hd hb hs (.inr ⟨j, hj, rfl⟩)
  have hself : inodeAt (HepFS.growDir D d j b) d = (grown D (inodeAt D d) (.data j) b).2 := by
    rw [HepFS.growDir, inodeAt_putInode_same]
  have hlive := (live_update hd (grown_flags D (inodeAt D d) (.data j) b) d).mpr hd
  rw [hself, ← A.slotOf_grown hd hb hs]
  refine slotOf_congr ?_
  intro t _ ht
  have hr := A'.range hlive (by rw [update_self]; exact ht)
  rw [update_self] at hr
  exact putInode_apply_ne _ _ _ (by omega)

end

/-- The directory has the places of the new block besides its own. -/
theorem mem_places_growDir (hj : j < 12) (hb : Fresh D b.toNat) (h0 : (inodeAt D d).direct[j] = 0) :
    q ∈ places (inodeAt (growDir D d j b) d) ↔ q ∈ places (inodeAt D d)
        ∨ (q.1 = b.toNat ∧ q.2 < 128) := by
  have hge := hb.ge
  rw [inodeAt_growDir_same hj, mem_places, mem_places]
  have hslot : ∀ i < 12, slotOf D { inodeAt D d with
      direct := (inodeAt D d).direct.set j b, nblocks := (inodeAt D d).nblocks + 1 } (.data i)
      = if i = j then b.toNat else slotOf D (inodeAt D d) (.data i) := by
    intro i hi
    rw [slotOf_data_direct _ _ hi, slotOf_data_direct _ _ hi]
    by_cases hij : i = j
    · subst hij
      rw [if_pos rfl, Vector.getElem_set_self]
    · rw [if_neg hij, Vector.getElem_set_ne _ _ (Ne.symm hij)]
  constructor
  · rintro ⟨h128, hne, i, hi, heq⟩
    rw [hslot i hi] at heq
    split_ifs at heq with hij
    · exact .inr ⟨heq.symm, h128⟩
    · exact .inl ⟨h128, hne, i, hi, heq⟩
  · rintro (⟨h128, hne, i, hi, heq⟩ | ⟨hqb, h128⟩)
    · refine ⟨h128, hne, i, hi, ?_⟩
      have hij : i ≠ j := by
        rintro rfl
        rw [slotOf_data_direct _ _ hi, h0] at heq
        exact hne heq.symm
      rw [hslot i hi, if_neg hij, heq]
    · refine ⟨h128, by omega, j, hj, ?_⟩
      rw [hslot j hj, if_pos rfl, hqb]

/-- A new block has no entries, so a directory means the same with it. -/
theorem view_growDir (A : Acc D (inodeAt D)) (hd : kindAt D d = F_DIR) (hj : j < 12)
    (hb : Fresh D b.toNat) (h0 : (inodeAt D d).direct[j] = 0) :
    view (growDir D d j b) = view D := by
  have hlive := live_of_dir hd
  have hkind : kindAt (growDir D d j b) d = kindAt D d := by
    rw [kindAt_of_lt _ hlive.1, kindAt_of_lt _ hlive.1, inodeAt_growDir_same hj]
  refine view_unchanged A (fun i hi hid => inodeAt_growDir_ne hj hb hi hid) ?_ hkind ?_ ?_
  · intro i hi _ c hc
    exact growDir_apply_ne hj hlive.1 hb (A.owned_ne_fresh hi hb hc)
      (.inr (A.owned_range hi hc).1)
  · funext q
    apply Option.ext
    rintro ⟨i, name⟩
    rw [view_entry_some, view_entry_some, hkind, mem_places_growDir hj hb h0]
    by_cases hq : q ∈ places (inodeAt D d)
    · have hown := places_subset_owned D hq
      have he : entryAt (growDir D d j b) q = entryAt D q := by
        rw [entryAt, entryAt, growDir_apply_ne hj hlive.1 hb (A.owned_ne_fresh hlive hb hown)
          (.inr (A.owned_range hlive hown).1)]
      rw [he]
      simp only [hq, true_or]
    · -- a place of the new block reads as an unused entry
      refine iff_of_false ?_ (fun h => hq h.2.1)
      rintro ⟨-, hmem, hne, -⟩
      rcases hmem with hmem | ⟨hqb, -⟩
      · exact hq hmem
      · rw [entryAt, hqb, growDir_apply_same hj hlive.1 hb, Block.entry_zero] at hne
        exact hne rfl
  · rw [view_bytes_of_not_file (by rw [hkind, hd]; decide),
      view_bytes_of_not_file (by rw [hd]; decide)]

end Grow

end

/-! ## `add_dir_entry` -/

/-- What an `add_dir_entry` that returns has done: entry `e` is at place `q` of inode
`d`, which was empty or is new. -/
structure Added (D₀ : Disk) (d : ℕ) (q : ℕ × ℕ) (e : DirEntry) (D : Disk) : Prop where
  acc : Acc D (inodeAt D)
  low : ∀ c < 2, D c = D₀ c
  other : ∀ i < 1024, i ≠ d → inodeAt D i = inodeAt D₀ i
  flags : (inodeAt D d).flags = (inodeAt D₀ d).flags
  size : (inodeAt D d).size = (inodeAt D₀ d).size + 32
  place : q ∈ places (inodeAt D d)
  stored : entryAt D q = e
  view_eq : kindAt D₀ d = F_DIR →
    view D = (view D₀).setEntry d q e.meaning ∧ (view D₀).entry d q = none
  frame : ∀ i, Live (inodeAt D₀) i → i ≠ d → ∀ c ∈ owned D₀ (inodeAt D₀ i), D c = D₀ c
  count : freeCount D₀ ≤ freeCount D + 1

/-- No place of the directory is empty. -/
def NoPlace (D : Disk) (n : Inode) : Prop := ∀ q ∈ places n, (entryAt D q).inode ≠ 0

/-- `Added`, with what became of the blocks: the inode keeps those it had, and one more is
taken only when it had no empty place. -/
structure Stores (D₀ : Disk) (d : ℕ) (q : ℕ × ℕ) (e : DirEntry) (D : Disk) : Prop
    extends Added D₀ d q e D where
  slots : ∀ sl, slotOf D₀ (inodeAt D₀ d) sl ≠ 0 →
    slotOf D (inodeAt D d) sl = slotOf D₀ (inodeAt D₀ d) sl
  bits : (q ∈ places (inodeAt D₀ d) ∧ ∀ c < 131072, bitAt D 2 c = bitAt D₀ 2 c)
    ∨ NoPlace D₀ (inodeAt D₀ d) ∧ ∃ b, Fresh D₀ b
      ∧ (∃ j < 12, slotOf D (inodeAt D d) (.data j) = b)
      ∧ ∀ c < 131072, bitAt D 2 c = if c = b then true else bitAt D₀ 2 c

/-- All twelve blocks are there and have no free entry. -/
def DirFull (D : Disk) (n : Inode) : Prop :=
  ∀ i < 12, slotOf D n (.data i) ≠ 0
    ∧ ∀ x < 128, (entryAt D (slotOf D n (.data i), x)).inode ≠ 0

/-- The ways `add_dir_entry` can stop. -/
def AddFails (D₀ : Disk) (n : Inode) (name : String) (e : Panic) : Prop :=
  (e = .filename_too_long ∧ 27 < (nameBytes name).length)
    ∨ (e = .disk_full ∧ freeCount D₀ = 0)
    ∨ (e = .directory_full ∧ DirFull D₀ n)

section Add

variable {D D₀ D₁ : Disk} {d : ℕ} {q : ℕ × ℕ} {e : DirEntry}

theorem freeCount_store (hd : d < 1024) (hq : 38 ≤ q.1) (size : UInt64) :
    freeCount (setSize (putEntry D q e) d size) = freeCount D := by
  refine freeCount_congr ?_
  intro c hc
  apply bitAt_congr
  rw [setSize_apply_ne hd (by omega), putEntry_apply_ne (by omega)]

/-- Storing an entry in an empty place and counting it in the size. -/
theorem added_store (A : Acc D (inodeAt D)) (hd : Live (inodeAt D) d)
    (hq : q ∈ places (inodeAt D d)) (hempty : (entryAt D q).inode = 0) :
    Added D d q e (setSize (putEntry D q e) d ((inodeAt D d).size + 32)) := by
  have hlt := hd.1
  have hr := A.place_range hd hq
  have hself : inodeAt (putEntry D q e) d = inodeAt D d := inodeAt_putEntry A hd hq hlt
  have hkind : kindAt (putEntry D q e) d = kindAt D d := by
    rw [kindAt_of_lt _ hlt, kindAt_of_lt _ hlt, hself]
  have A' := A.putEntry (e := e) hd hq
  refine ⟨A'.setSize hlt _, ?_, ?_, ?_, ?_, ?_, ?_, ?_, ?_, ?_⟩
  · intro c hc
    rw [setSize_apply_ne hlt (by omega), putEntry_apply_ne (by omega)]
  · intro i hi hid
    rw [inodeAt_setSize_ne _ hid, inodeAt_putEntry A hd hq hi]
  · rw [inodeAt_setSize_same, hself]
  · rw [inodeAt_setSize_same]
  · rw [inodeAt_setSize_same, hself]
    exact (places_congr (Eq.refl _)).symm ▸ hq
  · rw [entryAt, setSize_apply_ne hlt (.inr hr.1)]
    exact entryAt_putEntry_same D ((mem_places (D := D)).mp hq).1 e
  · intro hdir
    rw [view_setSize A' (by rw [hkind]; exact hdir), view_putEntry A hdir hq]
    exact ⟨rfl, if_neg (fun h => h.2.2 hempty)⟩
  · intro i hi hid c hc
    have hne : c ≠ q.1 := by
      rintro rfl
      exact A.not_owned hd hi hid hc (places_subset_owned D hq)
    rw [setSize_apply_ne hlt (.inr (A.owned_range hi hc).1), putEntry_apply_ne hne]
  · rw [freeCount_store hlt hr.1]
    omega

/-- An entry stored in a block that was added for it. -/
theorem Added.of_growDir {b : UInt32} (A : Acc D₀ (inodeAt D₀)) (hd : Live (inodeAt D₀) d)
    (hj : j < 12) (hb : Fresh D₀ b.toNat) (h0 : (inodeAt D₀ d).direct[j] = 0)
    (h : Added (growDir D₀ d j b) d q e D) (hcount : freeCount D = freeCount (growDir D₀ d j b)) :
    Added D₀ d q e D := by
  have hlt := hd.1
  have hge := hb.ge
  have hkeep : ∀ i, Live (inodeAt D₀) i → i ≠ d → ∀ c ∈ owned D₀ (inodeAt D₀ i),
      growDir D₀ d j b c = D₀ c := by
    intro i hi _ c hc
    exact growDir_apply_ne hj hlt hb (A.owned_ne_fresh hi hb hc) (.inr (A.owned_range hi hc).1)
  have hino : ∀ i < 1024, i ≠ d → inodeAt (growDir D₀ d j b) i = inodeAt D₀ i :=
    fun i hi hid => inodeAt_growDir_ne hj hb hi hid
  have hself := inodeAt_growDir_same (D := D₀) (d := d) (b := b) hj
  refine ⟨h.acc, ?_, ?_, ?_, ?_, h.place, h.stored, ?_, ?_, ?_⟩
  · intro c hc
    rw [h.low c hc, growDir_apply_ne hj hlt hb (by omega) (.inl hc)]
  · intro i hi hid
    rw [h.other i hi hid, hino i hi hid]
  · rw [h.flags, hself]
  · rw [h.size, hself]
  · intro hdir
    have hview := view_growDir A hdir hj hb h0
    have hdir' : kindAt (growDir D₀ d j b) d = F_DIR := by
      rw [← view_flags, hview]
      exact hdir
    have := h.view_eq hdir'
    rwa [hview] at this
  · intro i hi hid c hc
    have hi' : Live (inodeAt (growDir D₀ d j b)) i := by
      refine ⟨hi.1, ?_⟩
      rw [hino i hi.1 hid]
      exact hi.2
    have hown : c ∈ owned (growDir D₀ d j b) (inodeAt (growDir D₀ d j b) i) := by
      rw [hino i hi.1 hid]
      obtain ⟨sl, hsl, hc0⟩ := mem_owned.mp hc
      refine mem_owned.mpr ⟨sl, ?_, hc0⟩
      rw [slotOf_frame (hkeep i hi hid), hsl]
    rw [h.frame i hi' hid c hown, hkeep i hi hid c hc]
  · have hset := freeCount_of_set hb.mem (fun c hc => bitAt_growDir hj hlt hb hc)
    omega

section

variable (A : Acc D (inodeAt D)) (hd : Live (inodeAt D) d) (hq : q ∈ places (inodeAt D d))

include A hd hq

theorem slotOf_putEntry :
    slotOf (putEntry D q e) (inodeAt D d) = slotOf D (inodeAt D d) := by
  obtain ⟨-, -, j, -, hj⟩ := (mem_places).mp hq
  have hdata := A.slotOf_put_data hd j ((D q.1).setEntry q.2 e) hd
  rw [hj] at hdata
  exact hdata

theorem slotOf_store (size : UInt64) :
    slotOf (setSize (putEntry D q e) d size) (inodeAt (setSize (putEntry D q e) d size) d)
      = slotOf D (inodeAt D d) := by
  have hlt := hd.1
  have hput := slotOf_putEntry (e := e) A hd hq
  have hsame : SameBlocks (inodeAt (setSize (putEntry D q e) d size) d) (inodeAt D d) := by
    rw [inodeAt_setSize_same, inodeAt_putEntry A hd hq hlt]
    exact ⟨rfl, rfl, rfl, rfl, rfl⟩
  rw [hsame.slotOf, ← hput]
  refine slotOf_congr ?_
  intro t _ ht
  rw [hput] at ht ⊢
  exact setSize_apply_ne hlt (.inr (A.range hd ht).1)

theorem stores_store (hempty : (entryAt D q).inode = 0) :
    Stores D d q e (setSize (putEntry D q e) d ((inodeAt D d).size + 32)) := by
  have hr := A.place_range hd hq
  refine ⟨added_store A hd hq hempty, ?_, .inl ⟨hq, ?_⟩⟩
  · intro sl _
    rw [slotOf_store A hd hq]
  · intro c hc
    apply bitAt_congr
    rw [setSize_apply_ne hd.1 (by omega), putEntry_apply_ne (by omega)]

end

/-- An entry stored in a block that was added because there was no empty place. -/
theorem Stores.of_growDir {b : UInt32} (A : Acc D₀ (inodeAt D₀)) (hd : Live (inodeAt D₀) d)
    (hj : j < 12) (hb : Fresh D₀ b.toNat) (h0 : (inodeAt D₀ d).direct[j] = 0)
    (hs : NextSlot D₀ (inodeAt D₀ d) (.data j)) (hfull : NoPlace D₀ (inodeAt D₀ d))
    (h : Stores (growDir D₀ d j b) d q e D)
    (hbits : ∀ c < 131072, bitAt D 2 c = bitAt (growDir D₀ d j b) 2 c) : Stores D₀ d q e D := by
  have hge := hb.ge
  have hgrown := A.slotOf_growDir hd hj hb hs
  refine ⟨h.toAdded.of_growDir A hd hj hb h0 (freeCount_congr hbits), ?_,
    .inr ⟨hfull, b.toNat, hb, ?_, ?_⟩⟩
  · intro sl hsl
    have hne : sl ≠ .data j := by
      rintro rfl
      exact hsl hs.empty
    have hkept : slotOf (growDir D₀ d j b) (inodeAt (growDir D₀ d j b) d) sl
        = slotOf D₀ (inodeAt D₀ d) sl := by
      rw [hgrown, update_of_ne hne]
    rw [h.slots sl (by rw [hkept]; exact hsl), hkept]
  · have hnew : slotOf (growDir D₀ d j b) (inodeAt (growDir D₀ d j b) d) (.data j) = b.toNat := by
      rw [hgrown, update_self]
    exact ⟨j, hj, by rw [h.slots _ (by rw [hnew]; omega), hnew]⟩
  · intro c hc
    rw [hbits c hc, bitAt_growDir hj hd.1 hb hc]

/-- When the blocks before the first missing one have no empty place, no block has. -/
theorem noPlace_of_full (A : Acc D (inodeAt D)) (hd : Live (inodeAt D) d)
    (h0 : ∀ hj : j < 12, (inodeAt D d).direct[j] = 0)
    (hfull : ∀ i < j, slotOf D (inodeAt D d) (.data i) ≠ 0
      ∧ ∀ x < 128, (entryAt D (slotOf D (inodeAt D d) (.data i), x)).inode ≠ 0) : NoPlace D
        (inodeAt D d) := by
  intro q hq
  obtain ⟨hx, hne, i, hi, hslot⟩ := (mem_places).mp hq
  obtain ⟨m, t, hsh⟩ := A.shape d hd
  have him := (hsh.data i).mp (by rw [hslot]; exact hne)
  have hij : i < j := by
    by_contra hge
    have hj : j < 12 := by omega
    have hend : m ≤ j := hsh.data_end (by rw [slotOf_data_direct _ _ hj, h0 hj]; rfl)
    omega
  have hused := (hfull i hij).2 q.2 hx
  rw [hslot] at hused
  exact hused

end Add

/-- Storing the entry at the end of an iteration: two block writes. -/
theorem store_entry_spec (s : Fs) (hc : s.geom.covers) (dir_ino ino : UInt32) (name : String)
    {blk : UInt32} {i : ℕ} (hd : dir_ino.toNat < 1024) (hblk : 38 ≤ blk.toNat)
    (hblk' : blk.toNat < 131072) :
    ∃ s', (do
        write_block blk.toNat ((s.blk blk.toNat).setEntry i (DirEntry.mk_named ino name))
        write_inode dir_ino { inodeAt s.blk dir_ino.toNat with
          size := (inodeAt s.blk dir_ino.toNat).size + UInt64.ofNat DIR_ENTRY_SIZE } : FsM Unit) s
        = .ok () s'
      ∧ s.To s' (setSize (putEntry s.blk (blk.toNat, i) (DirEntry.mk_named ino name))
          dir_ino.toNat ((inodeAt s.blk dir_ino.toNat).size + 32)) := by
  obtain ⟨s1, hw, ht1⟩ := write_block_spec s
    ((s.blk blk.toNat).setEntry i (DirEntry.mk_named ino name)) (hc.holds hblk')
  obtain ⟨s2, hi, ht2⟩ := write_inode_spec s1 dir_ino { inodeAt s.blk dir_ino.toNat with
    size := (inodeAt s.blk dir_ino.toNat).size + UInt64.ofNat DIR_ENTRY_SIZE }
    (by rw [ht1.geom]; exact hc.holds_inode hd)
  refine ⟨s2, ?_, ?_⟩
  · rw [bind_of_ok hw]
    exact hi
  · have hsame : inodeAt (putEntry s.blk (blk.toNat, i) (DirEntry.mk_named ino name))
        dir_ino.toNat = inodeAt s.blk dir_ino.toNat :=
      inodeAt_congr (putEntry_apply_ne (by omega))
    rw [setSize, hsame]
    rw [ht1.blk] at ht2
    exact ht1.trans ht2

theorem ensure_dir_block_spec (s : Fs) (hc : s.geom.covers) (dir_ino : UInt32)
    (hd : dir_ino.toNat < 1024) (hj : j < 12) :
    Post (ensure_dir_block dir_ino (inodeAt s.blk dir_ino.toNat) j hj) s
      (fun n' s' => n' = inodeAt s'.blk dir_ino.toNat
        ∧ (((inodeAt s.blk dir_ino.toNat).direct[j] ≠ 0 ∧ s.To s' s.blk)
          ∨ ((inodeAt s.blk dir_ino.toNat).direct[j] = 0
            ∧ ∃ b, Fresh s.blk b.toNat ∧ s.To s' (growDir s.blk dir_ino.toNat j b))))
      (fun e _ => e = .disk_full ∧ freeCount s.blk = 0
        ∧ (inodeAt s.blk dir_ino.toNat).direct[j] = 0) := by
  rw [ensure_dir_block]
  split_ifs with h0
  · refine Post.andThen (alloc_block_spec s hc) ?_ ?_
    · rintro e s' ⟨rfl, hfree, -⟩
      exact ⟨rfl, hfree, h0⟩
    · rintro b s1 ⟨hb, ht1⟩
      have hholds : s1.geom.serves (6 + dir_ino.toNat / 32) := by
        rw [ht1.geom]
        exact hc.holds_inode hd
      obtain ⟨s2, hw, ht2⟩ := write_inode_spec s1 dir_ino { inodeAt s.blk dir_ino.toNat with
        direct := (inodeAt s.blk dir_ino.toNat).direct.set j b
        nblocks := (inodeAt s.blk dir_ino.toNat).nblocks + 1 } hholds
      refine Post.step hw (Post.pure ?_)
      have hgrow : s.To s2 (growDir s.blk dir_ino.toNat j b) := by
        rw [growDir, grown_direct hj]
        rw [ht1.blk] at ht2
        exact ht1.trans ht2
      refine ⟨?_, .inr ⟨h0, b, hb, hgrow⟩⟩
      rw [hgrow.blk, inodeAt_growDir_same hj]
  · exact Post.pure ⟨rfl, .inl ⟨h0, Fs.To.rfl s⟩⟩

/-- The loop, entered at block `j` when the blocks before it are full. -/
theorem add_dir_entry_loop_spec (dir_ino ino : UInt32) (name : String) (k : ℕ) :
    ∀ (j : ℕ) (s : Fs), 12 - j = k → j ≤ 12 → s.geom.covers → Acc s.blk (inodeAt s.blk) →
    Live (inodeAt s.blk) dir_ino.toNat →
      (∀ i < j, slotOf s.blk (inodeAt s.blk dir_ino.toNat) (.data i) ≠ 0
      ∧ ∀ x < 128, (entryAt s.blk (slotOf s.blk (inodeAt s.blk dir_ino.toNat) (.data i), x)).inode
        ≠ 0) →
    Post (add_dir_entry_loop dir_ino name ino (inodeAt s.blk dir_ino.toNat) j) s
      (fun _ s' => s.To s' s'.blk
        ∧ ∃ q, Stores s.blk dir_ino.toNat q (DirEntry.mk_named ino name) s'.blk)
      (fun e _ => AddFails s.blk (inodeAt s.blk dir_ino.toNat) name e
        ∧ NoPlace s.blk (inodeAt s.blk dir_ino.toNat)) := by
  -- on the blocks that are left; the ones before `j` are there and full
  induction k with
  | zero =>
    intro j s hk hle hc A hd hfull
    obtain rfl : j = 12 := by omega
    rw [add_dir_entry_loop, dif_neg (by simp only [DIRECT_PTRS]; omega)]
    exact Post.throw ⟨.inr (.inr ⟨rfl, hfull⟩),
      noPlace_of_full A hd (fun hj => absurd hj (by omega)) hfull⟩
  | succ k ih =>
    intro j s hk hle hc A hd hfull
    have hj : j < 12 := by omega
    have hlt := hd.1
    rw [add_dir_entry_loop, dif_pos (show j < DIRECT_PTRS from hj)]
    refine Post.andThen (ensure_dir_block_spec s hc dir_ino hlt hj) ?_ ?_
    · rintro e _ ⟨he, hfree, h0⟩
      exact ⟨.inr (.inl ⟨he, hfree⟩), noPlace_of_full A hd (fun _ => h0) hfull⟩
    rintro n' s1 ⟨rfl, hcase⟩
    rcases hcase with ⟨hne, ht1⟩ | ⟨h0, b, hb, ht1⟩
    · -- the block was there: it has a free entry, or the loop goes on
      rw [ht1.blk]
      have hslot := slotOf_data_direct s.blk (inodeAt s.blk dir_ino.toNat) hj
      have hr := A.range hd (by rw [hslot]; exact toNat_ne_zero.mpr hne)
      rw [hslot] at hr
      have hc1 := hc.of_eq ht1.geom
      obtain ⟨s2, hread, ht2⟩ := read_block_spec s1 (hc1.holds hr.2)
      rw [ht1.blk] at hread ht2
      have ht := ht1.trans ht2
      have hc2 := hc.of_eq ht.geom
      refine Post.step hread ?_
      cases hscan : scan_block (s.blk (inodeAt s.blk dir_ino.toNat).direct[j].toNat)
          (fun e => e.inode = 0) with
      | some x =>
        obtain ⟨hx, htest⟩ := scan_block_some hscan
        obtain ⟨s3, hstore, ht3⟩ := store_entry_spec s2 hc2 dir_ino ino name
          hlt hr.1 hr.2
        rw [ht.blk] at hstore ht3
        refine Post.of_eq_ok hstore
          ⟨?_, ((inodeAt s.blk dir_ino.toNat).direct[j].toNat, x), ?_⟩
        · rw [ht3.blk]
          exact ht.trans ht3
        · rw [ht3.blk]
          refine stores_store A hd ?_ (by simpa [entryAt] using htest)
          refine (mem_places).mpr ⟨hx, toNat_ne_zero.mpr hne, j, hj, hslot⟩
      | none =>
        have hih := ih (j + 1) s2 (by omega) (by omega) hc2
        rw [ht.blk] at hih
        refine (hih A hd ?_).mono ?_ (fun _ _ he => he)
        · intro i hi
          by_cases hij : i = j
          · subst hij
            rw [hslot]
            refine ⟨toNat_ne_zero.mpr hne, ?_⟩
            intro x hx
            have := scan_block_none hscan hx
            simpa [entryAt] using this
          · exact hfull i (by omega)
        · rintro _ s3 ⟨ht3, hadd⟩
          exact ⟨ht.trans ht3, hadd⟩
    · -- a new block: its first entry is free
      have hnext := next_direct hj h0 (fun i hi => (hfull i hi).1)
      have A1 := A.growDir hd hj hb hnext
      have hself := inodeAt_growDir_same (D := s.blk) (d := dir_ino.toNat) (b := b) hj
      have hd1 : Live (inodeAt (growDir s.blk dir_ino.toNat j b)) dir_ino.toNat := by
        refine ⟨hlt, ?_⟩
        rw [hself]
        exact hd.2
      have hblk : (inodeAt (growDir s.blk dir_ino.toNat j b) dir_ino.toNat).direct[j] = b := by
        simp only [hself, Vector.getElem_set_self]
      have hzero := growDir_apply_same hj hlt hb
      have hc1 := hc.of_eq ht1.geom
      obtain ⟨s2, hread, ht2⟩ := read_block_spec s1 (hc1.holds hb.lt)
      have ht := ht1.trans ht2
      have hc2 := hc.of_eq ht.geom
      obtain ⟨s3, hstore, ht3⟩ := store_entry_spec s2 hc2 dir_ino ino name
        hlt hb.ge hb.lt
      rw [ht2.blk, ht1.blk] at hstore ht3
      rw [ht1.blk] at hread ⊢
      rw [hblk]
      refine Post.step hread ?_
      rw [scan_block_zero (by rw [hzero, Block.entry_zero]; rfl)]
      refine Post.of_eq_ok hstore ⟨?_, (b.toNat, 0), ?_⟩
      · rw [ht3.blk]
        exact ht.trans ht3
      · rw [ht3.blk]
        refine (stores_store A1 hd1 ?_ ?_).of_growDir A hd hj hb h0 hnext
          (noPlace_of_full A hd (fun _ => h0) hfull) ?_
        · exact (mem_places_growDir hj hb h0).mpr (.inr ⟨rfl, by omega⟩)
        · rw [entryAt, hzero, Block.entry_zero]
          rfl
        · intro c hc
          have hge := hb.ge
          apply bitAt_congr
          rw [setSize_apply_ne hlt (by omega), putEntry_apply_ne (by dsimp only; omega)]

/-- **`add_dir_entry`.** It stores the entry in an empty place, in a new block if there is
none, or stops for one of the reasons in `AddFails`. When the name is short enough it does
not stop as long as there is an empty place. -/
theorem add_dir_entry_stores (s : Fs) (hc : s.geom.covers) (A : Acc s.blk (inodeAt s.blk))
    (dir_ino ino : UInt32) (name : String) (hd : Live (inodeAt s.blk) dir_ino.toNat) :
    Post (add_dir_entry dir_ino name ino) s (fun _ s' => s.To s' s'.blk
      ∧ (nameBytes name).length ≤ 27
        ∧ ∃ q, Stores s.blk dir_ino.toNat q (DirEntry.mk_named ino name) s'.blk)
      (fun e _ => AddFails s.blk (inodeAt s.blk dir_ino.toNat) name e
        ∧ (e = .filename_too_long ∨ NoPlace s.blk (inodeAt s.blk dir_ino.toNat))) := by
  obtain ⟨s1, hr, ht1⟩ := read_inode_spec s dir_ino (hc.holds_inode hd.1)
  refine Post.step hr ?_
  split_ifs with hlen
  · have hloop := add_dir_entry_loop_spec dir_ino ino name 12 0 s1 rfl (by omega)
      (hc.of_eq ht1.geom)
    rw [ht1.blk] at hloop
    refine (hloop A hd (fun i hi => absurd hi (Nat.not_lt_zero i))).mono ?_ ?_
    · rintro _ s2 ⟨ht2, hadd⟩
      exact ⟨ht1.trans ht2, hlen, hadd⟩
    · rintro e _ ⟨he, hfull⟩
      exact ⟨he, .inr hfull⟩
  · exact Post.throw ⟨.inl ⟨rfl, by omega⟩, .inl rfl⟩

end HepOS.HepFS
