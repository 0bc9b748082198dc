/-
`create_file` and `create_dir`.

Both take the least free inode and link it into the parent. On the disk this is
`newInode`, an inode record without blocks together with its bit; a directory gets its
first block by `growDir`, which is invisible in the view. What remains is `add_dir_entry`,
and together they are `View.create`.
-/
import HepOS.HepFS.Links
import HepOS.HepFS.Ops

set_option autoImplicit false

namespace HepOS.HepFS

open Bytes Hoare Ledger Function

variable {c d i j k : ℕ} {D D₀ : Disk} {name : String} {e : Panic} {q : ℕ × ℕ}

/-! ## A new inode on the disk -/

/-- The disk with inode `i` marked as used and set to `n`. -/
def newInode (D : Disk) (i : ℕ) (n : Inode) : Disk := putInode (setBit D 1 i true) i n

section

variable {D : Disk} {i : ℕ} {n : Inode}

theorem newInode_apply_ne (hi : i < 1024) (hc : c = 0 ∨ (2 ≤ c ∧ c < 6) ∨ 38 ≤ c) :
    newInode D i n c = D c := by
  rw [newInode, putInode_apply_ne _ _ _ (by omega), setBit_apply_ne _ _ _ _ (by omega)]

theorem inodeAt_newInode_same : inodeAt (newInode D i n) i = n := inodeAt_putInode_same _ _ _

theorem inodeAt_newInode_ne (hi : i < 1024) (hj : j < 1024) (hji : j ≠ i) :
    inodeAt (newInode D i n) j = inodeAt D j := by
  rw [newInode, inodeAt_putInode_ne _ _ hji]
  exact inodeAt_congr (setBit_apply_ne _ _ _ _ (by omega))

theorem bitAt_newInode (hi : i < 1024) (hj : j < 32768) :
    bitAt (newInode D i n) 1 j = if j = i then true else bitAt D 1 j := by
  rw [← bitAt_setBit D 1 i j true]
  exact bitAt_congr (putInode_apply_ne _ _ _ (by omega))

section

variable (A : Acc D (inodeAt D)) (hi : i < 1024)
    (hfree : (inodeAt D i).flags = F_FREE) (hn : Bare n)

include A hi hfree hn

theorem Acc.newInode (hk : n.flags = F_FILE ∨ n.flags = F_DIR) :
    Acc (newInode D i n) (inodeAt (newInode D i n)) := by
  refine (A.enrol hi hfree hn hk).congr (fun c hc => newInode_apply_ne hi (by omega)) ?_
  intro j hj
  by_cases hji : j = i
  · subst hji
    rw [inodeAt_newInode_same, update_self]
    exact SameBlocks.rfl
  · rw [inodeAt_newInode_ne hi hj hji, update_of_ne hji]
    exact SameBlocks.rfl

/-- An inode without blocks has no entries and no content. -/
theorem view_newInode (hsize : n.size = 0) :
    view (newInode D i n) = (view D).setFlags i n.flags := by
  have hkind : kindAt D i = F_FREE := by
    rw [kindAt_of_lt _ hi]
    exact hfree
  have hkind' : kindAt (newInode D i n) i = n.flags := by
    rw [kindAt_of_lt _ hi, inodeAt_newInode_same]
  have hentry : (view (newInode D i n)).entry i = (view D).entry i := by
    funext q
    rw [view_entry_of_not_dir (D := D) (by rw [hkind]; decide)]
    refine if_neg ?_
    rintro ⟨-, hq, -⟩
    rw [inodeAt_newInode_same, mem_places (D := D), hn.slotOf] at hq
    obtain ⟨-, hne, j, -, h0⟩ := hq
    exact hne h0.symm
  have hbytes : (view (newInode D i n)).bytes i = (view D).bytes i := by
    rw [view_bytes_of_not_file (D := D) (by rw [hkind]; decide)]
    by_cases hf : kindAt (newInode D i n) i = F_FILE
    · rw [view_bytes_of_file hf, content, inodeAt_newInode_same, hsize]
      rfl
    · exact view_bytes_of_not_file hf
  rw [view_update A (fun j hj hji => inodeAt_newInode_ne hi hj hji) (by
    intro j hj _ c hc
    exact newInode_apply_ne hi (.inr (.inr (A.owned_range hj hc).1))), hentry, hbytes, hkind']
  refine View.ext rfl ?_ ?_
  all_goals exact update_eq_self i _

end

theorem bitAt_block_newInode (hi : i < 1024) (hc : c < 131072) :
    bitAt (newInode D i n) 2 c = bitAt D 2 c :=
  bitAt_congr (newInode_apply_ne hi (by omega))

theorem Fresh.congr {D' : Disk} {b : ℕ} (h : Fresh D b)
    (hbits : ∀ c < 131072, bitAt D' 2 c = bitAt D 2 c) : Fresh D' b where
  ge := h.ge
  lt := h.lt
  clear := by rw [hbits b h.lt, h.clear]
  least := by
    intro j hj hjb
    have hlt := h.lt
    rw [hbits j (by omega), h.least j hj hjb]

end

/-! ## The specifications -/

/-- The machine state after an operation that counts one directory mutation. -/
structure Fs.Bumped (s s' : Fs) : Prop where
  geom : s'.geom = s.geom
  gen : s'.generation = s.generation + 1
  pages : s.pages ≤ s'.pages

theorem bump_generation_spec (s : Fs) : ∃ s', bump_generation s = .ok () s' ∧ s.Bumped s'
    ∧ s'.blk = s.blk :=
  ⟨_, rfl, ⟨rfl, rfl, le_rfl⟩, rfl⟩

theorem Fs.Bumped.to {s s' s'' : Fs} (h : s.Bumped s') (ht : s'.To s'' D) : s.Bumped s'' :=
  ⟨ht.geom.trans h.geom, ht.gen.trans h.gen, h.pages.trans ht.pages⟩

/-- What a creation that returns has done. -/
structure Created (D₀ : Disk) (i : ℕ) (kind : UInt32) (d : ℕ) (name : String) (q : ℕ × ℕ)
    (D : Disk) : Prop where
  inv : Inv D
  fresh : FreshInode D₀ i
  was_free : kindAt D₀ i = F_FREE
  empty : (view D₀).entry d q = none
  view_eq : view D = (view D₀).create i kind d q name
  count : freeCount D₀ ≤ freeCount D + 2
  file : kind = F_FILE → inodeAt D i = { (default : Inode) with flags := F_FILE }

/-- The ways a creation that needs up to `k` blocks can stop. -/
def CreateFails (k : ℕ) (D₀ : Disk) (name : String) (e : Panic) : Prop :=
  (e.off_device = false ∧ ∀ i < 1024, kindAt D₀ i ≠ F_FREE)
    ∨ (e = .filename_too_long ∧ 27 < (nameBytes name).length)
    ∨ (e = .disk_full ∧ freeCount D₀ < k)

theorem CreateFails.on_device (h : CreateFails k D₀ name e) : e.off_device = false := by
  rcases h with ⟨he, -⟩ | ⟨rfl, -⟩ | ⟨rfl, -⟩
  · exact he
  · rfl
  · rfl

/-- The ways a creation can stop that needs `k` blocks, and one more if the directory `d` has no
empty place. -/
def PlaceFails (k : ℕ) (D₀ : Disk) (d : ℕ) (name : String) (e : Panic) : Prop :=
  (e.off_device = false ∧ ∀ i < 1024, kindAt D₀ i ≠ F_FREE)
    ∨ (e = .filename_too_long ∧ 27 < (nameBytes name).length)
    ∨ (e = .disk_full ∧ (freeCount D₀ < k ∨ freeCount D₀ = k ∧ NoPlace D₀ (inodeAt D₀ d)))

theorem PlaceFails.createFails (h : PlaceFails k D₀ d name e) : CreateFails (k + 1) D₀ name e := by
  rcases h with hfull | hlong | ⟨he, hless | ⟨heq, -⟩⟩
  · exact .inl hfull
  · exact .inr (.inl hlong)
  · exact .inr (.inr ⟨he, by omega⟩)
  · exact .inr (.inr ⟨he, by omega⟩)

theorem NoPlace.congr {D' : Disk} {n n' : Inode} (h : NoPlace D' n') (hn : n' = n)
    (hentry : ∀ q ∈ places n, entryAt D' q = entryAt D q) : NoPlace D n := by
  intro q hq
  rw [← hentry q hq]
  exact h q (by rw [hn]; exact hq)

theorem Inv.free_of_fresh (I : Inv D) (hi : FreshInode D i) : kindAt D i = F_FREE := by
  have hlt := hi.lt
  by_contra hne
  have := (I.inode_bits i (by omega)).mpr hne
  rw [hi.clear] at this
  simp at this

/-- **A directory is never full.** It has room for more entries than there are inodes, and
no inode has two. -/
theorem Inv.not_full (I : Inv D) (hd : kindAt D d = F_DIR) : ¬ DirFull D (inodeAt D d) := by
  intro hfull
  have hlive := live_of_dir hd
  have hentry : ∀ p : Fin 12 × Fin 128, (view D).entry d
      (slotOf D (inodeAt D d) (.data p.1), p.2) = some
        ((entryAt D (slotOf D (inodeAt D d) (.data p.1), p.2)).inode.toNat,
          (entryAt D (slotOf D (inodeAt D d) (.data p.1), p.2)).name_str) := by
    intro p
    obtain ⟨hslot, hused⟩ := hfull p.1 p.1.isLt
    exact view_entry_some.mpr ⟨hd, mem_places.mpr ⟨p.2.isLt, hslot, p.1, p.1.isLt, rfl⟩,
      hused p.2 p.2.isLt, rfl, rfl⟩
  -- 12 · 128 places hold different inodes below 1024
  have hinj : Function.Injective (fun p : Fin 12 × Fin 128 =>
      (⟨_, (I.live_of_entry (hentry p)).1⟩ : Fin 1024)) := by
    intro p p' h
    have hsame := congrArg Fin.val h
    have hheld := View.held_of_entry (hentry p)
    have hheld' := View.held_of_entry (hentry p')
    have hne : (view D).held d (slotOf D (inodeAt D d) (.data p.1), p.2) ≠ 0 := by
      rw [hheld]
      exact toNat_ne_zero.mpr ((hfull p.1 p.1.isLt).2 p.2 p.2.isLt)
    have hplace := (I.linked.ledger.inj d d hd hd _ _ hne
      (hheld.trans (hsame.trans hheld'.symm))).2
    obtain ⟨hslot, hx⟩ := Prod.mk.inj hplace
    have hdata := I.acc.slotInj hlive _ _ (hfull p.1 p.1.isLt).1 hslot
    exact Prod.ext (Fin.ext (Slot.data.inj hdata)) (Fin.ext hx)
  have hcard := Fintype.card_le_of_injective _ hinj
  simp at hcard

/-- The common end: a new inode is in place on `D1` and its entry is stored. -/
theorem Created.of_added {D1 : Disk} {ino : UInt32} {kind : UInt32}
    (I : Inv D₀) (hi : FreshInode D₀ ino.toNat) (hkind : kind = F_FILE ∨ kind = F_DIR)
    (hd : kindAt D₀ d = F_DIR) (hlen : (nameBytes name).length ≤ 27)
    (hview : view D1 = (view D₀).setFlags ino.toNat kind)
    (hbits : ∀ j < 32768, bitAt D1 1 j = if j = ino.toNat then true else bitAt D₀ 1 j)
    (hcount : freeCount D₀ ≤ freeCount D1 + 1)
    (hfile : kind = F_FILE → inodeAt D1 ino.toNat = { (default : Inode) with flags := F_FILE })
    (h : Added D1 d q (DirEntry.mk_named ino name) D) :
    Created D₀ ino.toNat kind d name q D := by
  have hfree := I.free_of_fresh hi
  have hlt := hi.lt
  -- the inode was free: it is neither the directory nor the root
  have hdi : d ≠ ino.toNat := by
    rintro rfl
    rw [hfree] at hd
    exact absurd hd (by decide)
  have hi0 : ino.toNat ≠ 0 := by
    intro h0
    have hroot : kindAt D₀ 0 = F_DIR := I.linked.root
    rw [h0, hroot] at hfree
    exact absurd hfree (by decide)
  have hd1 : kindAt D1 d = F_DIR := by
    rw [← view_flags, hview]
    exact (update_of_ne hdi _ _).trans hd
  have hmeaning : (DirEntry.mk_named ino name).meaning = some (ino.toNat, name) := by
    rw [DirEntry.meaning, DirEntry.inode_mk_named, if_pos (toNat_ne_zero.mp hi0),
      DirEntry.name_str_mk_named ino name hlen]
  obtain ⟨hv, hempty⟩ := h.view_eq hd1
  rw [hview] at hv hempty
  have hv' : view D = (view D₀).create ino.toNat kind d q name := by
    rw [hv, hmeaning, View.create]
  have hentries : ∀ t, (view D₀).entry ino.toNat t = none :=
    fun t => view_entry_of_not_dir (by rw [hfree]; decide) t
  have hadd := h.count
  refine ⟨⟨h.acc, ?_, ?_⟩, hi, hfree, hempty, hv', by omega,
    fun hk => (h.other _ hlt (Ne.symm hdi)).trans (hfile hk)⟩
  · intro j hj
    rw [bitAt_congr (h.low (1 + j / 32768) (by omega)), hbits j hj, ← view_flags, hv',
      View.flags_create]
    by_cases hji : j = ino.toNat
    · rw [if_pos hji, if_pos hji]
      refine iff_of_true rfl ?_
      rcases hkind with rfl | rfl
      · decide
      · decide
    · rw [if_neg hji, if_neg hji]
      exact I.inode_bits j hj
  · rw [hv']
    exact I.linked.create hkind hfree hd hempty hentries

/-- Reasons to fail to link carry over from the disk with the new inode. -/
theorem PlaceFails.of_add {D1 : Disk} (I : Inv D₀) (hd : kindAt D₀ d = F_DIR)
    (hn : inodeAt D1 d = inodeAt D₀ d)
    (hentry : ∀ q ∈ places (inodeAt D₀ d), entryAt D1 q = entryAt D₀ q)
    (hcount : freeCount D1 + k = freeCount D₀) (h : AddFails D1 (inodeAt D1 d) name e)
    (hplace : e = .filename_too_long ∨ NoPlace D1 (inodeAt D1 d)) : PlaceFails k D₀ d name e := by
  rcases h with hlong | ⟨rfl, hf⟩ | ⟨he, hfull⟩
  · exact .inr (.inl hlong)
  · rcases hplace with hlong | hplace
    · exact absurd hlong (by decide)
    · exact .inr (.inr ⟨rfl, .inr ⟨by omega, hplace.congr hn hentry⟩⟩)
  · refine absurd ?_ (I.not_full hd)
    intro i hi
    have hslot := slotOf_data_direct D₀ (inodeAt D₀ d) hi
    obtain ⟨hne, hused⟩ := hfull i hi
    rw [hn, slotOf_data_direct _ _ hi, ← hslot] at hne hused
    refine ⟨hne, fun x hx => ?_⟩
    rw [← hentry _ (mem_places.mpr ⟨hx, hne, i, hi, rfl⟩)]
    exact hused x hx

theorem bare_file : Bare { (default : Inode) with flags := F_FILE } := ⟨rfl, rfl, rfl, rfl⟩

theorem bare_dir : Bare { (default : Inode) with flags := F_DIR } := ⟨rfl, rfl, rfl, rfl⟩

/-- The disk with a new, empty file that is not linked yet. -/
def newFile (D : Disk) (i : ℕ) : Disk := newInode D i { (default : Inode) with flags := F_FILE }

theorem inodeAt_newFile_ne (I : Inv D) (hi : FreshInode D i)
    (hj : Live (inodeAt D) j) : inodeAt (newFile D i) j = inodeAt D j := by
  apply inodeAt_newInode_ne hi.lt hj.1
  rintro rfl
  exact live_iff_kindAt.mp hj (I.free_of_fresh hi)

theorem Inv.acc_newFile (I : Inv D) (hi : FreshInode D i) :
    Acc (newFile D i) (inodeAt (newFile D i)) := by
  have hflags : (inodeAt D i).flags = F_FREE := by
    rw [← kindAt_of_lt _ hi.lt]
    exact I.free_of_fresh hi
  exact I.acc.newInode hi.lt hflags bare_file (.inl rfl)

/-- `create_file` with any live inode as parent. Whether that inode is a directory is not
asked, neither here nor in `add_dir_entry`. -/
theorem create_file_stores (s : Fs) (hc : s.geom.covers) (I : Inv s.blk) (parent : UInt32)
    (name : String) (hlive : Live (inodeAt s.blk) parent.toNat) : Post (create_file parent name) s
      (fun ino s' => s.Bumped s' ∧ (nameBytes name).length ≤ 27 ∧ FreshInode s.blk ino.toNat
        ∧ ∃ q, Stores (newFile s.blk ino.toNat) parent.toNat q (DirEntry.mk_named ino name) s'.blk)
      (fun e _ => (e.off_device = false ∧ ∀ i < 1024, kindAt s.blk i ≠ F_FREE) ∨ ∃ i,
        FreshInode s.blk i
        ∧ AddFails (newFile s.blk i) (inodeAt (newFile s.blk i) parent.toNat) name e
        ∧ (e = .filename_too_long
          ∨ NoPlace (newFile s.blk i) (inodeAt (newFile s.blk i) parent.toNat))) := by
  obtain ⟨s1, hbump, hb1, hblk1⟩ := bump_generation_spec s
  have hc1 := hc.of_eq hb1.geom
  refine Post.step hbump ?_
  refine Post.andThen (alloc_inode_spec s1 hc1) ?_ ?_
  · rintro e s' ⟨he, hfull⟩
    rw [hblk1] at hfull
    exact .inl ⟨he, fun j hj => (I.inode_bits j (by omega)).mp (hfull j hj)⟩
  rintro ino s2 ⟨hi, ht2⟩
  rw [hblk1] at hi ht2
  have hlt := hi.lt
  have hc2 := hc1.of_eq ht2.geom
  obtain ⟨s3, hw, ht3⟩ := write_inode_spec s2 ino { (default : Inode) with flags := F_FILE }
    (hc2.holds_inode hlt)
  refine Post.step hw ?_
  have hblk3 : s3.blk = newFile s.blk ino.toNat := by
    rw [ht3.blk, ht2.blk, newFile, newInode]
  have hc3 := hc2.of_eq ht3.geom
  have hadd := add_dir_entry_stores s3 hc3 (by rw [hblk3]; exact I.acc_newFile hi) parent ino name
    (by
    rw [hblk3]
    refine ⟨hlive.1, ?_⟩
    rw [inodeAt_newFile_ne I hi hlive]
    exact hlive.2)
  rw [hblk3] at hadd
  refine Post.seq (hadd.mono (fun _ _ hq => hq) (fun e _ he => .inr ⟨_, hi, he⟩)) ?_
  rintro _ s4 ⟨ht4, hlen, q, hq⟩
  exact Post.pure ⟨((hb1.to ht2).to ht3).to ht4, hlen, hi, q, hq⟩

theorem create_file_links (s : Fs) (hc : s.geom.covers) (I : Inv s.blk) (parent : UInt32)
    (name : String) (hlive : Live (inodeAt s.blk) parent.toNat) : Post (create_file parent name) s
      (fun ino s' => s.Bumped s' ∧ (nameBytes name).length ≤ 27 ∧ FreshInode s.blk ino.toNat
        ∧ ∃ q, Added (newFile s.blk ino.toNat) parent.toNat q (DirEntry.mk_named ino name) s'.blk)
      (fun e _ => (e.off_device = false ∧ ∀ i < 1024, kindAt s.blk i ≠ F_FREE) ∨ ∃ i,
        FreshInode s.blk i
        ∧ AddFails (newFile s.blk i) (inodeAt (newFile s.blk i) parent.toNat) name e) := by
  refine (create_file_stores s hc I parent name hlive).mono ?_ ?_
  · rintro ino s' ⟨hb, hlen, hi, q, hq⟩
    exact ⟨hb, hlen, hi, q, hq.toAdded⟩
  · rintro e s' (hfull | ⟨i, hi, he, -⟩)
    · exact .inl hfull
    · exact .inr ⟨i, hi, he⟩

theorem freeCount_newFile (hi : i < 1024) : freeCount (newFile D i) = freeCount D :=
  freeCount_congr (fun _ hc => bitAt_block_newInode hi hc)

/-- Storing the entry of a new file completes its creation. -/
theorem Created.of_newFile {ino : UInt32} (I : Inv D₀)
    (hi : FreshInode D₀ ino.toNat) (hd : kindAt D₀ d = F_DIR) (hlen : (nameBytes name).length ≤ 27)
    (h : Added (newFile D₀ ino.toNat) d q (DirEntry.mk_named ino name) D) :
    Created D₀ ino.toNat F_FILE d name q D := by
  have hlt := hi.lt
  have hflags : (inodeAt D₀ ino.toNat).flags = F_FREE := by
    rw [← kindAt_of_lt _ hlt]
    exact I.free_of_fresh hi
  refine Created.of_added I hi (.inl rfl) hd hlen
    (view_newInode I.acc hlt hflags bare_file rfl) (fun j hj => bitAt_newInode hlt hj) ?_
    (fun _ => inodeAt_newInode_same) h
  have hcount := freeCount_newFile (D := D₀) hlt
  rw [newFile] at hcount
  omega

theorem Inv.entryAt_newFile (I : Inv D) (hi : FreshInode D i)
    (hd : Live (inodeAt D) d) : ∀ q ∈ places (inodeAt D d),
      entryAt (newFile D i) q = entryAt D q := by
  intro q hq
  rw [entryAt, entryAt, newFile, newInode_apply_ne hi.lt (.inr (.inr (I.acc.place_range hd hq).1))]

theorem create_file_places (s : Fs) (hc : s.geom.covers) (I : Inv s.blk) (parent : UInt32)
    (name : String) (hd : kindAt s.blk parent.toNat = F_DIR) : Post (create_file parent name) s
      (fun ino s' => s.Bumped s' ∧ (nameBytes name).length ≤ 27 ∧ FreshInode s.blk ino.toNat
        ∧ ∃ q, Stores (newFile s.blk ino.toNat) parent.toNat q (DirEntry.mk_named ino name) s'.blk)
      (fun e _ => PlaceFails 0 s.blk parent.toNat name e) := by
  have hlive := live_of_dir hd
  refine (create_file_stores s hc I parent name hlive).mono (fun _ _ h => h) ?_
  rintro e s' (hfull | ⟨i, hi, he, hplace⟩)
  · exact .inl hfull
  · exact PlaceFails.of_add I hd (inodeAt_newFile_ne I hi hlive) (I.entryAt_newFile hi hlive)
      (freeCount_newFile hi.lt) he hplace

/-- **`create_file`.** -/
theorem create_file_spec (s : Fs) (hc : s.geom.covers) (I : Inv s.blk) (parent : UInt32)
    (name : String) (hd : kindAt s.blk parent.toNat = F_DIR) : Post (create_file parent name) s
      (fun ino s' => s.Bumped s' ∧ (nameBytes name).length ≤ 27
        ∧ ∃ q, Created s.blk ino.toNat F_FILE parent.toNat name q s'.blk)
      (fun e _ => CreateFails 1 s.blk name e) := by
  refine (create_file_places s hc I parent name hd).mono ?_ (fun _ _ he => he.createFails)
  rintro ino s' ⟨hb, hlen, hi, q, hq⟩
  exact ⟨hb, hlen, q, Created.of_newFile I hi hd hlen hq.toAdded⟩

/-- The record `create_dir` writes is that of an empty directory grown by one block. -/
theorem growDir_newInode {b : UInt32} (hi : i < 1024) (hb : 38 ≤ b.toNat) (hlt : b.toNat < 131072) :
    growDir (newInode D i { (default : Inode) with flags := F_DIR }) i 0 b
      = putInode (grab (setBit D 1 i true) b.toNat) i (dir_inode b) := by
  rw [growDir, grown_direct (by omega), inodeAt_newInode_same, newInode,
    grab_putInode _ _ hb hlt hi, putInode_putInode]
  rfl

/-- The disk with a new, empty directory that is not linked yet: first the bare directory,
then its block. -/
def newDir (D : Disk) (i : ℕ) (b : UInt32) : Disk :=
  growDir (newInode D i { (default : Inode) with flags := F_DIR }) i 0 b

section

variable {D : Disk} {i : ℕ} {b : UInt32} (I : Inv D) (hi : FreshInode D i) (hb : Fresh D b.toNat)

include hi hb in
theorem Fresh.newInode (n : Inode) : Fresh (newInode D i n) b.toNat :=
  hb.congr fun _ hc => bitAt_block_newInode hi.lt hc

include hi hb in
theorem bitAt_newDir (hc : c < 131072) :
    bitAt (newDir D i b) 2 c = if c = b.toNat then true else bitAt D 2 c := by
  rw [newDir, bitAt_growDir (by omega) hi.lt (hb.newInode hi _) hc, bitAt_block_newInode hi.lt hc]

include hi hb in
theorem bitAt_inode_newDir (hj : j < 32768) :
    bitAt (newDir D i b) 1 j = if j = i then true else bitAt D 1 j := by
  have hge := hb.ge
  rw [← bitAt_newInode (D := D) (n := { (default : Inode) with flags := F_DIR }) hi.lt hj]
  exact bitAt_congr (growDir_apply_ne (by omega) hi.lt (hb.newInode hi _) (by omega) (by omega))

include hi hb in
theorem newDir_apply_ne (hcb : c ≠ b.toNat) (hc : 38 ≤ c) : newDir D i b c = D c := by
  rw [newDir, growDir_apply_ne (by omega) hi.lt (hb.newInode hi _) hcb (.inr hc),
    newInode_apply_ne hi.lt (.inr (.inr hc))]

include hi hb in
theorem inodeAt_newDir_ne (hj : j < 1024) (hji : j ≠ i) :
    inodeAt (newDir D i b) j = inodeAt D j := by
  rw [newDir, inodeAt_growDir_ne (by omega) (hb.newInode hi _) hj hji,
    inodeAt_newInode_ne hi.lt hj hji]

include hi hb in
theorem freeCount_newDir : freeCount (newDir D i b) + 1 = freeCount D :=
  freeCount_of_set hb.mem fun _ hc => bitAt_newDir hi hb hc

include I hi in
theorem Inv.bare_newDir : Acc (newInode D i { (default : Inode) with flags := F_DIR })
        (inodeAt (newInode D i { (default : Inode) with flags := F_DIR }))
      ∧ view (newInode D i { (default : Inode) with flags := F_DIR }) = (view D).setFlags i F_DIR
      ∧ kindAt (newInode D i { (default : Inode) with flags := F_DIR }) i = F_DIR := by
  have hflags : (inodeAt D i).flags = F_FREE := by
    rw [← kindAt_of_lt _ hi.lt]
    exact I.free_of_fresh hi
  refine ⟨I.acc.newInode hi.lt hflags bare_dir (.inr rfl),
    view_newInode I.acc hi.lt hflags bare_dir rfl, ?_⟩
  rw [kindAt_of_lt _ hi.lt, inodeAt_newInode_same]

theorem direct_bare_newDir :
    (inodeAt (newInode D i { (default : Inode) with flags := F_DIR }) i).direct.get 0 = 0 := by
  simp only [inodeAt_newInode_same]
  rfl

include I hi hb in
theorem Inv.acc_newDir : Acc (newDir D i b) (inodeAt (newDir D i b)) := by
  obtain ⟨A, -, hdir⟩ := I.bare_newDir hi
  exact A.growDir (live_of_dir hdir) (by omega) (hb.newInode hi _)
    (next_direct (by omega) direct_bare_newDir (fun i hi => absurd hi (Nat.not_lt_zero i)))

include I hi hb in
theorem Inv.view_newDir : view (newDir D i b) = (view D).setFlags i F_DIR := by
  obtain ⟨A, hview, hdir⟩ := I.bare_newDir hi
  rw [newDir, view_growDir A hdir (by omega) (hb.newInode hi _) direct_bare_newDir, hview]

end

theorem create_dir_stores (s : Fs) (hc : s.geom.covers) (I : Inv s.blk) (parent : UInt32)
    (name : String) (hd : kindAt s.blk parent.toNat = F_DIR) : Post (create_dir parent name) s
      (fun ino s' => s.Bumped s' ∧ (nameBytes name).length ≤ 27 ∧ FreshInode s.blk ino.toNat
        ∧ ∃ b q, Fresh s.blk b.toNat
          ∧ Stores (newDir s.blk ino.toNat b) parent.toNat q (DirEntry.mk_named ino name) s'.blk)
      (fun e _ => PlaceFails 1 s.blk parent.toNat name e) := by
  obtain ⟨s1, hbump, hb1, hblk1⟩ := bump_generation_spec s
  have hc1 := hc.of_eq hb1.geom
  have hlive := live_of_dir hd
  refine Post.step hbump ?_
  refine Post.andThen (alloc_inode_spec s1 hc1) ?_ ?_
  · rintro e s' ⟨he, hfull⟩
    rw [hblk1] at hfull
    exact .inl ⟨he, fun j hj => (I.inode_bits j (by omega)).mp (hfull j hj)⟩
  rintro ino s2 ⟨hi, ht2⟩
  rw [hblk1] at hi ht2
  have hlt := hi.lt
  have hc2 := hc1.of_eq ht2.geom
  -- the inode bit is in block 1, so the free blocks are those of the start
  have hbits2 : ∀ c < 131072, bitAt s2.blk 2 c = bitAt s.blk 2 c := by
    intro c hc
    rw [ht2.blk]
    exact bitAt_congr (setBit_apply_ne _ _ _ _ (by omega))
  refine Post.andThen (alloc_block_spec s2 hc2) ?_ ?_
  · rintro e s' ⟨rfl, hfull, -⟩
    rw [freeCount_congr hbits2] at hfull
    exact .inr (.inr ⟨rfl, .inl (by omega)⟩)
  rintro b s3 ⟨hb2, ht3⟩
  have hb : Fresh s.blk b.toNat := hb2.congr fun c hc => (hbits2 c hc).symm
  have hc3 := hc2.of_eq ht3.geom
  obtain ⟨s4, hw, ht4⟩ := write_inode_spec s3 ino (dir_inode b) (hc3.holds_inode hlt)
  refine Post.step hw ?_
  have hc4 := hc3.of_eq ht4.geom
  have hblk4 : s4.blk = newDir s.blk ino.toNat b := by
    rw [newDir, growDir_newInode hlt hb.ge hb.lt, ht4.blk, ht3.blk, ht2.blk]
  have hne : parent.toNat ≠ ino.toNat := by
    intro h
    rw [h, I.free_of_fresh hi] at hd
    exact absurd hd (by decide)
  have hpar : inodeAt (newDir s.blk ino.toNat b) parent.toNat = inodeAt s.blk parent.toNat :=
    inodeAt_newDir_ne hi hb hlive.1 hne
  have hadd := add_dir_entry_stores s4 hc4 (by rw [hblk4]; exact I.acc_newDir hi hb) parent ino name
    (by
    refine ⟨hlive.1, ?_⟩
    rw [hblk4, hpar]
    exact hlive.2)
  rw [hblk4] at hadd
  refine Post.seq (hadd.mono (fun _ _ hq => hq) ?_) ?_
  · rintro e _ ⟨he, hplace⟩
    refine PlaceFails.of_add I hd hpar ?_ (freeCount_newDir hi hb) he hplace
    intro q hq
    have hown := places_subset_owned s.blk hq
    rw [entryAt, entryAt, newDir_apply_ne hi hb (I.acc.owned_ne_fresh hlive hb hown)
      (I.acc.place_range hlive hq).1]
  · rintro _ s5 ⟨ht5, hlen, q, hq⟩
    exact Post.pure ⟨(((hb1.to ht2).to ht3).to ht4).to ht5, hlen, hi, b, q, hb, hq⟩

/-- **`create_dir`.** -/
theorem create_dir_spec (s : Fs) (hc : s.geom.covers) (I : Inv s.blk) (parent : UInt32)
    (name : String) (hd : kindAt s.blk parent.toNat = F_DIR) : Post (create_dir parent name) s
      (fun ino s' => s.Bumped s' ∧ (nameBytes name).length ≤ 27
        ∧ ∃ q, Created s.blk ino.toNat F_DIR parent.toNat name q s'.blk)
      (fun e _ => CreateFails 2 s.blk name e) := by
  refine (create_dir_stores s hc I parent name hd).mono ?_ (fun _ _ he => he.createFails)
  rintro ino s' ⟨hb, hlen, hi, b, q, hfresh, hq⟩
  have hcount := freeCount_newDir hi hfresh
  exact ⟨hb, hlen, q, Created.of_added I hi (.inr rfl) hd hlen (I.view_newDir hi hfresh)
    (fun j hj => bitAt_inode_newDir hi hfresh hj) (by omega)
      (fun hk => absurd hk (by decide)) hq.toAdded⟩

/-! ## What a creation leaves behind -/

section

variable {kind : UInt32} {x : ℕ} (C : Created D₀ i kind d name q D)

include C

theorem Created.entry_dir (t : ℕ × ℕ) :
    (view D).entry d t = if t = q then some (i, name) else (view D₀).entry d t := by
  rw [C.view_eq, View.entry_create]
  by_cases ht : t = q
  · rw [if_pos ⟨rfl, ht⟩, if_pos ht]
  · rw [if_neg (fun h => ht h.2), if_neg ht]

theorem Created.kind_new : kindAt D i = kind := by
  rw [← view_flags, C.view_eq, View.flags_create, if_pos rfl]

theorem Created.dir_ne (hx : Live (inodeAt D₀) x) : x ≠ i := by
  rintro rfl
  exact live_iff_kindAt.mp hx C.was_free

theorem Created.kind_old (hx : Live (inodeAt D₀) x) : kindAt D x = kindAt D₀ x := by
  rw [← view_flags, C.view_eq, View.flags_create, if_neg (C.dir_ne hx)]
  rfl

theorem Created.live (hx : Live (inodeAt D₀) x) : Live (inodeAt D) x := by
  rw [live_iff_kindAt, C.kind_old hx]
  exact live_iff_kindAt.mp hx

end

/-! ## When a creation returns -/

/-- The functions that make an inode, with its kind. -/
inductive Creates : UInt32 → (UInt32 → String → FsM UInt32) → Prop
  | file : Creates F_FILE create_file
  | dir : Creates F_DIR create_dir

/-- The new inode is the least free one. -/
theorem Created.least {kind : UInt32} (h : Created D₀ i kind d name q D) (I : Inv D₀) (hj : j < i) :
    kindAt D₀ j ≠ F_FREE := by
  have hlt := h.fresh.lt
  exact (I.inode_bits j (by omega)).mp (h.fresh.least j hj)

section

variable (s : Fs) (hc : s.geom.covers) (I : Inv s.blk) (parent : UInt32) (name : String)
  (hd : kindAt s.blk parent.toNat = F_DIR) (hlen : (nameBytes name).length ≤ 27)
  {i : ℕ} (hi : i < 1024) (hfree : kindAt s.blk i = F_FREE)

include hc I hd hlen hi hfree

theorem Creates.returns {kind : UInt32} {create : UInt32 → String → FsM UInt32}
    (h : Creates kind create) (hroom : 2 ≤ freeCount s.blk) :
    ∃ ino s', create parent name s = .ok ino s' ∧ s.Bumped s'
      ∧ ∃ q, Created s.blk ino.toNat kind parent.toNat name q s'.blk := by
  have hfits : ∀ k ≤ 2, ∀ e, ¬ CreateFails k s.blk name e := by
    rintro k hk e (⟨-, hfull⟩ | ⟨-, hlong⟩ | ⟨-, hnone⟩)
    · exact hfull i hi hfree
    · omega
    · omega
  cases h with
  | file =>
    obtain ⟨ino, s', hrun, hb, -, hcreated⟩ := (create_file_spec s hc I parent name hd).exists_ok
      fun e _ => hfits 1 (by decide) e
    exact ⟨ino, s', hrun, hb, hcreated⟩
  | dir =>
    obtain ⟨ino, s', hrun, hb, -, hcreated⟩ := (create_dir_spec s hc I parent name hd).exists_ok
      fun e _ => hfits 2 le_rfl e
    exact ⟨ino, s', hrun, hb, hcreated⟩

end

end HepOS.HepFS
