/-
`rename` and `move_entry`: rewriting directory entries.

Neither touches an inode or a data block of what the entry points to. `rename` overwrites
an entry in place; `move_entry` clears it and adds it to the other directory, without
asking whether that directory lies below the entry it moves.
-/
import HepOS.HepFS.Remove

set_option autoImplicit false

namespace HepOS.HepFS

open Bytes Hoare Ledger

variable {D : Disk} {d d' : ℕ} {q : ℕ × ℕ} {name : String} (D₀ : Disk) (s : Fs)

/-! ## `rename` -/

/-- What `rename` has done when it returns. -/
def RenameResult (d : ℕ) (old_name new_name : String) (D : Disk) : Bool → Prop
  | false => D = D₀ ∧ ((∃ q i, (view D₀).entry d q = some (i, new_name))
      ∨ 27 < (nameBytes new_name).length ∨ ∀ q i, (view D₀).entry d q ≠ some (i, old_name))
  | true => ∃ q i, (view D₀).entry d q = some (i, old_name) ∧ i ≠ 0
      ∧ (∀ q' j, (view D₀).entry d q' ≠ some (j, new_name)) ∧ (nameBytes new_name).length ≤ 27
      ∧ Inv D ∧ view D = (view D₀).setEntry d q (some (i, new_name))

/-- Overwriting an entry keeps the invariant when the links stay consistent. -/
theorem Inv.putEntry (I : Inv D) {e : DirEntry} (hd : kindAt D d = F_DIR)
    (hq : q ∈ places (inodeAt D d)) (hlinked : ((view D).setEntry d q e.meaning).Linked) :
    Inv (putEntry D q e) := by
  have hlive := live_of_dir hd
  have hr := I.acc.place_range hlive hq
  have hview := view_putEntry (e := e) I.acc hd hq
  refine ⟨I.acc.putEntry hlive hq, ?_, by rw [hview]; exact hlinked⟩
  intro j hj
  rw [bitAt_congr (putEntry_apply_ne (by omega)), ← view_flags, hview, View.flags_setEntry]
  exact I.inode_bits j hj

/-- What `rename` has done to the disk when it returns `r`. -/
def RenameDisk (d : ℕ) (old_name new_name : String) (D : Disk) : Bool → Prop
  | false => RenameResult D₀ d old_name new_name D false
  | true => ∃ q ∈ places (inodeAt D₀ d), (entryAt D₀ q).named old_name = true
      ∧ (∀ q' j, (view D₀).entry d q' ≠ some (j, new_name)) ∧ (nameBytes new_name).length ≤ 27
      ∧ D = putEntry D₀ q (DirEntry.mk_named (entryAt D₀ q).inode new_name)

/-- `rename`, down to the blocks. -/
theorem rename_writes (hc : s.geom.covers) (I : Inv s.blk) (parent_ino : UInt32)
    (old_name new_name : String) (hd : kindAt s.blk parent_ino.toNat = F_DIR) :
    ∃ r s', rename parent_ino old_name new_name s = .ok r s' ∧ s.Bumped s'
      ∧ RenameDisk s.blk parent_ino.toNat old_name new_name s'.blk r := by
  obtain ⟨s1, hbump, hb1, hblk1⟩ := bump_generation_spec s
  have hc1 := hc.of_eq hb1.geom
  have hpar := live_of_dir hd
  obtain ⟨r, s2, hfind, ht2, hres⟩ := find_in_dir_spec s1 hc1 (by rw [hblk1]; exact I.acc)
    parent_ino (by rw [hblk1]; exact hpar) new_name
  rw [hblk1] at ht2 hres
  rw [rename, bind_of_ok hbump, bind_of_ok hfind]
  have hb2 := hb1.to ht2
  cases r with
  | some ino =>
    obtain ⟨q, hq, hnamed, -⟩ := hres
    exact ⟨false, s2, rfl, hb2, ht2.blk, .inl ⟨q, _, (entry_of_named hd hq hnamed).2⟩⟩
  | none =>
    -- the length is tested after the look for the new name
    by_cases hlen : 27 < (nameBytes new_name).length
    · dsimp only
      rw [if_pos hlen]
      exact ⟨false, s2, rfl, hb2, ht2.blk, .inr (.inl hlen)⟩
    dsimp only
    rw [if_neg hlen]
    have hc2 := hc1.of_eq ht2.geom
    obtain ⟨s3, hread, ht3⟩ := read_inode_spec s2 parent_ino (hc2.holds_inode hpar.1)
    rw [ht2.blk] at hread ht3
    have hc3 := hc2.of_eq ht3.geom
    obtain ⟨r, s4, hscan, ht4, hfound⟩ := scan_inode_spec s3 hc3 (by rw [ht3.blk]; exact I.acc)
      (by rw [ht3.blk]; exact hpar) (DirEntry.named old_name)
    rw [ht3.blk] at hscan ht4 hfound
    rw [bind_of_ok hread, bind_of_ok hscan]
    have hb4 := (hb2.to ht3).to ht4
    cases r with
    | none =>
      exact ⟨false, s4, rfl, hb4, ht4.blk, .inr (.inr (no_entry_of_named hfound))⟩
    | some r =>
      obtain ⟨blk, buf, x⟩ := r
      obtain ⟨hq, rfl, hnamed⟩ := hfound
      have hr := I.acc.place_range hpar hq
      have hc4 := hc3.of_eq ht4.geom
      obtain ⟨s5, hw, ht5⟩ := write_block_spec s4 ((s.blk blk.toNat).setEntry x
        (DirEntry.mk_named ((s.blk blk.toNat).entry x).inode new_name)) (hc4.holds hr.2)
      rw [ht4.blk] at ht5
      refine ⟨true, s5, ?_, hb4.to ht5, (blk.toNat, x), hq, hnamed, no_entry_of_named hres,
        by omega, ht5.blk⟩
      dsimp only
      rw [bind_of_ok hw]
      rfl

/-- What an entry with a fitting name and an inode in use stands for. -/
theorem DirEntry.meaning_mk_named {ino : UInt32} (hne : ino ≠ 0)
    (hlen : (nameBytes name).length ≤ 27) :
    (DirEntry.mk_named ino name).meaning = some (ino.toNat, name) := by
  rw [DirEntry.meaning, DirEntry.inode_mk_named, if_pos hne, DirEntry.name_str_mk_named _ _ hlen]

theorem Inv.renamed {D' : Disk} (I : Inv D) {old_name new_name : String}
    (hd : kindAt D d = F_DIR) (hq : q ∈ places (inodeAt D d))
    (hnamed : (entryAt D q).named old_name = true) (hlen : (nameBytes new_name).length ≤ 27)
    (hblk : D' = HepFS.putEntry D q (DirEntry.mk_named (entryAt D q).inode new_name)) :
    Inv D' ∧ view D' = (view D).setEntry d q (some ((entryAt D q).inode.toNat, new_name)) := by
  obtain ⟨hne0, hentry⟩ := entry_of_named hd hq hnamed
  have hmeaning := DirEntry.meaning_mk_named hne0 hlen
  rw [hblk]
  constructor
  · refine I.putEntry hd hq ?_
    rw [hmeaning]
    exact I.linked.rename hentry
  · rw [view_putEntry I.acc hd hq, hmeaning]

/-- **`rename`.** It always returns; `false` leaves the disk as it was. -/
theorem rename_spec (hc : s.geom.covers) (I : Inv s.blk) (parent_ino : UInt32)
    (old_name new_name : String) (hd : kindAt s.blk parent_ino.toNat = F_DIR) :
    ∃ r s', rename parent_ino old_name new_name s = .ok r s' ∧ s.Bumped s'
      ∧ RenameResult s.blk parent_ino.toNat old_name new_name s'.blk r := by
  obtain ⟨r, s', hrun, hb, hres⟩ := rename_writes s hc I parent_ino old_name new_name hd
  refine ⟨r, s', hrun, hb, ?_⟩
  cases r with
  | false => exact hres
  | true =>
    obtain ⟨q, hq, hnamed, hnew, hlen, hblk⟩ := hres
    obtain ⟨hne0, hentry⟩ := entry_of_named hd hq hnamed
    obtain ⟨I', hview⟩ := I.renamed hd hq hnamed hlen hblk
    exact ⟨q, _, hentry, toNat_ne_zero.mpr hne0, hnew, hlen, I', hview⟩

/-! ## `move_entry` -/

/-- What `move_entry` has done when it returns. -/
def MoveResult (d d' : ℕ) (name : String) (D : Disk) : Bool → Prop
  | false => D = D₀ ∧ (d = d' ∨ (∃ q i, (view D₀).entry d' q = some (i, name))
      ∨ ∀ q i, (view D₀).entry d q ≠ some (i, name))
  | true => d ≠ d' ∧ ∃ q i q', (view D₀).entry d q = some (i, name) ∧ i ≠ 0
      ∧ (∀ t j, (view D₀).entry d' t ≠ some (j, name)) ∧ (view D₀).entry d' q' = none
      ∧ Inv D ∧ view D = (view D₀).move i d q d' q' name

/-- Clearing an entry leaves as many free blocks and no more room in other directories. -/
theorem Inv.add_after_clear (I : Inv D)
    {e : Panic} (hd : kindAt D d = F_DIR) (hd' : kindAt D d' = F_DIR) (hne : d ≠ d')
    (hq : q ∈ places (inodeAt D d)) (hlen : (nameBytes name).length ≤ 27)
    (h : AddFails (HepFS.putEntry D q default) (inodeAt (HepFS.putEntry D q default) d') name e) :
    e = .disk_full ∧ freeCount D = 0 := by
  have hlive := live_of_dir hd
  have hlive' := live_of_dir hd'
  have hr := I.acc.place_range hlive hq
  rcases h with ⟨-, hlong⟩ | ⟨he, hfree⟩ | ⟨-, hfull⟩
  · omega
  · refine ⟨he, ?_⟩
    rw [← hfree]
    exact (freeCount_congr (fun c hc => bitAt_congr (putEntry_apply_ne (by omega)))).symm
  · refine absurd ?_ (I.not_full hd')
    intro i hi
    rw [inodeAt_putEntry I.acc hlive hq hlive'.1] at hfull
    obtain ⟨hslot, hused⟩ := hfull i hi
    rw [slotOf_data_direct _ _ hi, ← slotOf_data_direct D _ hi] at hslot hused
    refine ⟨hslot, ?_⟩
    intro x hx
    -- the block of `d'` is not the one that was written
    have hother : slotOf D (inodeAt D d') (.data i) ≠ q.1 := by
      intro heq
      exact I.acc.not_owned hlive hlive' (Ne.symm hne) (mem_owned.mpr ⟨_, heq, by omega⟩)
        (places_subset_owned D hq)
    have hsame := hused x hx
    rw [entryAt, putEntry_apply_ne hother] at hsame
    exact hsame

/-- What `move_entry` has done to the disk when it returns `r`. -/
def MoveDisk (d d' : ℕ) (name : String) (D : Disk) : Bool → Prop
  | false => MoveResult D₀ d d' name D false
  | true => d ≠ d' ∧ (∀ t j, (view D₀).entry d' t ≠ some (j, name))
      ∧ ∃ q ∈ places (inodeAt D₀ d), (entryAt D₀ q).named name = true
      ∧ (nameBytes name).length ≤ 27
      ∧ ∃ q', Stores (putEntry D₀ q default) d' q' (DirEntry.mk_named (entryAt D₀ q).inode name) D

/-- Another directory has no more room after an entry was cleared. -/
theorem Inv.noPlace_of_clear (I : Inv D) (hd : kindAt D d = F_DIR) (hd' : kindAt D d' = F_DIR)
    (hne : d ≠ d') (hq : q ∈ places (inodeAt D d))
    (h : NoPlace (HepFS.putEntry D q default) (inodeAt (HepFS.putEntry D q default) d')) :
    NoPlace D (inodeAt D d') := by
  have hlive := live_of_dir hd
  have hlive' := live_of_dir hd'
  rw [inodeAt_putEntry I.acc hlive hq hlive'.1] at h
  intro t ht
  have hother : t.1 ≠ q.1 := by
    intro heq
    refine I.acc.not_owned hlive hlive' (Ne.symm hne) (places_subset_owned D ht) ?_
    rw [heq]
    exact places_subset_owned D hq
  have hused := h t ht
  rw [entryAt, putEntry_apply_ne hother] at hused
  exact hused

/-- `move_entry`, down to the blocks. It stops only if the other directory has no empty place
and there is no free block for it, with the entry already out of its old directory. -/
theorem move_entry_writes (hc : s.geom.covers) (I : Inv s.blk)
    (from_parent to_parent : UInt32) (name : String)
    (hd : kindAt s.blk from_parent.toNat = F_DIR) (hd' : kindAt s.blk to_parent.toNat = F_DIR) :
    Post (move_entry from_parent to_parent name) s (fun r s' => s.Bumped s'
        ∧ MoveDisk s.blk from_parent.toNat to_parent.toNat name s'.blk r)
      (fun e _ => e = .disk_full ∧ freeCount s.blk = 0
        ∧ NoPlace s.blk (inodeAt s.blk to_parent.toNat)) := by
  obtain ⟨s1, hbump, hb1, hblk1⟩ := bump_generation_spec s
  have hc1 := hc.of_eq hb1.geom
  have hfrom := live_of_dir hd
  have hto := live_of_dir hd'
  refine Post.step hbump ?_
  -- the source returns early for one directory, a name taken and a name missing
  by_cases hsame : from_parent = to_parent
  · rw [if_pos hsame]
    exact Post.pure ⟨hb1, hblk1, .inl (by rw [hsame])⟩
  rw [if_neg hsame]
  have hdd : from_parent.toNat ≠ to_parent.toNat := fun h => hsame (UInt32.toNat_inj.mp h)
  obtain ⟨r, s2, hfind, ht2, hres⟩ := find_in_dir_spec s1 hc1 (by rw [hblk1]; exact I.acc)
    to_parent (by rw [hblk1]; exact hto) name
  rw [hblk1] at ht2 hres
  refine Post.step hfind ?_
  have hb2 := hb1.to ht2
  cases r with
  | some ino =>
    obtain ⟨q, hq, hnamed, -⟩ := hres
    exact Post.pure ⟨hb2, ht2.blk,
      .inr (.inl ⟨q, _, (entry_of_named hd' hq hnamed).2⟩)⟩
  | none =>
    have hc2 := hc1.of_eq ht2.geom
    obtain ⟨r, s3, hfind', ht3, hres'⟩ := find_in_dir_spec s2 hc2 (by rw [ht2.blk]; exact I.acc)
      from_parent (by rw [ht2.blk]; exact hfrom) name
    rw [ht2.blk] at ht3 hres'
    refine Post.step hfind' ?_
    have hb3 := hb2.to ht3
    cases r with
    | none =>
      exact Post.pure ⟨hb3, ht3.blk, .inr (.inr (no_entry_of_named hres'))⟩
    | some ino =>
      obtain ⟨q, hq, hnamed, rfl⟩ := hres'
      obtain ⟨hne0, hentry⟩ := entry_of_named hd hq hnamed
      have hi0 := toNat_ne_zero.mpr hne0
      have hc3 := hc2.of_eq ht3.geom
      obtain ⟨s4, hread, ht4⟩ := read_inode_spec s3 from_parent (hc3.holds_inode hfrom.1)
      rw [ht3.blk] at hread ht4
      have hc4 := hc3.of_eq ht4.geom
      refine Post.step hread ?_
      have hclear := clear_entry_spec s4 hc4 (by rw [ht4.blk]; exact I.acc)
        (by rw [ht4.blk]; exact hfrom) (entryAt s.blk q).inode
      rw [ht4.blk] at hclear
      rcases hclear with ⟨q0, s5, hrun, hq0, hino0, ht5⟩ | ⟨s5, -, -, hno⟩
      · -- the entry that is cleared is the one that was found
        have he0 : (view s.blk).entry from_parent.toNat q0
            = some ((entryAt s.blk q).inode.toNat, (entryAt s.blk q0).name_str) := by
          refine view_entry_some.mpr ⟨hd, hq0, ?_, by rw [hino0], rfl⟩
          rw [hino0]
          exact hne0
        have hheld := View.held_of_entry he0
        obtain rfl : q0 = q := by
          refine (I.linked.ledger.inj from_parent.toNat from_parent.toNat hd hd q0 q ?_ ?_).2
          · rw [hheld]
            exact hi0
          · rw [hheld, View.held_of_entry hentry]
        refine Post.step hrun ?_
        have hc5 := hc4.of_eq ht5.geom
        have A5 := I.acc.putEntry (e := default) hfrom hq
        have hto5 : kindAt (putEntry s.blk q0 default) to_parent.toNat = F_DIR := by
          rw [← view_flags, view_putEntry I.acc hd hq]
          exact hd'
        have hlen : (nameBytes name).length ≤ 27 := by
          rw [← (view_entry_some.mp hentry).2.2.2.2]
          exact DirEntry.length_name_str _
        have hadd := add_dir_entry_stores s5 hc5 (by rw [ht5.blk]; exact A5) to_parent
          (entryAt s.blk q0).inode name (by rw [ht5.blk]; exact live_of_dir hto5)
        rw [ht5.blk] at hadd
        -- the entry is gone by now: a failure here loses the file
        refine Post.seq (hadd.mono (fun _ _ hq => hq) ?_) ?_
        · rintro e _ ⟨he, hfull⟩
          obtain ⟨rfl, hfree⟩ := I.add_after_clear hd hd' hdd hq hlen he
          rcases hfull with hlong | hfull
          · exact absurd hlong (by decide)
          · exact ⟨rfl, hfree, I.noPlace_of_clear hd hd' hdd hq hfull⟩
        · rintro _ s6 ⟨ht6, -, q', hstores⟩
          exact Post.pure ⟨((hb3.to ht4).to ht5).to ht6, hdd, no_entry_of_named hres,
            q0, hq0, hnamed, hlen, q', hstores⟩
      · exact absurd rfl (hno q hq)

theorem Inv.moved {D' : Disk} (I : Inv D) {q' : ℕ × ℕ}
    (hd : kindAt D d = F_DIR) (hd' : kindAt D d' = F_DIR) (hdd : d ≠ d')
    (hq : q ∈ places (inodeAt D d)) (hnamed : (entryAt D q).named name = true)
    (hlen : (nameBytes name).length ≤ 27)
    (hstores : Stores (HepFS.putEntry D q default) d' q'
      (DirEntry.mk_named (entryAt D q).inode name) D') :
    Inv D' ∧ view D' = (view D).move (entryAt D q).inode.toNat d q d' q' name
      ∧ (view D).entry d' q' = none := by
  obtain ⟨hne0, hentry⟩ := entry_of_named hd hq hnamed
  have hcleared := view_putEntry (e := default) I.acc hd hq
  have hto : kindAt (HepFS.putEntry D q default) d' = F_DIR := by
    rw [← view_flags, hcleared]
    exact hd'
  obtain ⟨hview, hempty⟩ := hstores.view_eq hto
  rw [hcleared, View.entry_setEntry_ne _ _ (fun hc => hdd hc.1.symm)] at hempty
  rw [hcleared, DirEntry.meaning_mk_named hne0 hlen] at hview
  have hbits : ∀ j < 32768, bitAt D' 1 j = bitAt D 1 j := by
    intro j hj
    have hr := I.acc.place_range (live_of_dir hd) hq
    rw [bitAt_congr (hstores.low (1 + j / 32768) (by omega)),
      bitAt_congr (putEntry_apply_ne (by omega))]
  refine ⟨⟨hstores.acc, ?_, ?_⟩, hview, hempty⟩
  · intro j hj
    rw [hbits j hj, ← view_flags, hview]
    exact I.inode_bits j hj
  · rw [hview]
    exact I.linked.move (toNat_ne_zero.mpr hne0) hd hentry hd' hdd hempty

/-- **`move_entry`.** It returns as `MoveResult` says, or stops because the other directory
needs a block and there is none, with the entry already out of its old directory. -/
theorem move_entry_spec (hc : s.geom.covers) (I : Inv s.blk)
    (from_parent to_parent : UInt32) (name : String)
    (hd : kindAt s.blk from_parent.toNat = F_DIR) (hd' : kindAt s.blk to_parent.toNat = F_DIR) :
    Post (move_entry from_parent to_parent name) s (fun r s' => s.Bumped s'
        ∧ MoveResult s.blk from_parent.toNat to_parent.toNat name s'.blk r)
      (fun e _ => e = .disk_full ∧ freeCount s.blk = 0) := by
  refine (move_entry_writes s hc I from_parent to_parent name hd hd').mono ?_
    (fun _ _ h => ⟨h.1, h.2.1⟩)
  rintro r s' ⟨hb, hres⟩
  refine ⟨hb, ?_⟩
  cases r with
  | false => exact hres
  | true =>
    obtain ⟨hdd, hfresh, q, hq, hnamed, hlen, q', hstores⟩ := hres
    obtain ⟨hne0, hentry⟩ := entry_of_named hd hq hnamed
    obtain ⟨I', hview, hempty⟩ := I.moved hd hd' hdd hq hnamed hlen hstores
    exact ⟨hdd, q, _, q', hentry, toNat_ne_zero.mpr hne0, hfresh, hempty, I', hview⟩

end HepOS.HepFS
