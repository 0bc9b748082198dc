/-
Which blocks HepFS addresses.

The block bit map has 131072 bits on every device. `format` marks the metadata blocks and
leaves the bits of blocks behind the end of the device clear, and `alloc_block` does not look
at the size. So allocation stays on the device exactly as long as the bit map does: with all
the blocks it describes no operation is ever refused a transfer, and on the smallest device
that `format` accepts the first directory is already put behind the end.
-/
import HepOS.HepFS.Lookup

set_option autoImplicit false

namespace HepOS.HepFS

open Bytes Hoare Ledger Trace

/-! ## Calls that stop -/

/-- The call made in `s` stops with a panic. -/
def Op.Stops (s : Fs) (e : Panic) : Op → Prop
  | .create_file parent name => ∃ s', HepFS.create_file parent name s = .error e s'
  | .create_dir parent name => ∃ s', HepFS.create_dir parent name s = .error e s'
  | .write_file ino data => ∃ s', HepFS.write_file ino data s = .error e s'
  | .remove parent_ino name => ∃ s', HepFS.remove parent_ino name s = .error e s'
  | .rename parent_ino old_name new_name =>
    ∃ s', HepFS.rename parent_ino old_name new_name s = .error e s'
  | .move_entry from_parent to_parent name =>
    ∃ s', HepFS.move_entry from_parent to_parent name s = .error e s'
  | .copy_entry frames from_parent to_parent name dest_name =>
    ∃ s', HepFS.copy_entry frames from_parent to_parent name dest_name s = .error e s'

/-- A program is refused no transfer. -/
def Stays {α : Type} (x : FsM α) (s : Fs) : Prop := ∀ e s', x s = .error e s' → e.off_device = false

theorem Stays.of_ok {α : Type} {x : FsM α} {s s' : Fs} {a : α} (h : x s = .ok a s') :
    Stays x s := by
  intro e s'' he
  exact absurd (h.symm.trans he) (by simp)

theorem Stays.of_post {α : Type} {x : FsM α} {s : Fs} {Q : α → Fs → Prop} {E : Panic → Fs → Prop}
    (h : Post x s Q E) (hE : ∀ e s', E e s' → e.off_device = false) : Stays x s := by
  intro e s' he
  rw [Post, he] at h
  exact hE e s' h

/-- In state `s` allocation and every operation stay on the device: the calls that change the file
system, with directories and files where they expect them, and those that read it. -/
structure OnDevice (s : Fs) : Prop where
  alloc : ∀ b s', alloc_block s = .ok b s' → 38 ≤ b.toNat ∧ b.toNat < s.geom.total_blocks
  alloc_stays : Stays alloc_block s
  ops : ∀ op : Op, op.Proper s.blk → ∀ e, op.Stops s e → e.off_device = false
  lookup : ∀ path, (view s.blk).SearchesDirs 0 (path_parts path) → Stays (HepFS.lookup path) s
  read_inode : ∀ ino : UInt32, ino.toNat < 1024 → Stays (HepFS.read_inode ino) s
  list_dir : ∀ d : UInt32, kindAt s.blk d.toNat = F_DIR → Stays (HepFS.list_dir d) s
  read_file : ∀ f : UInt32, kindAt s.blk f.toNat = F_FILE → Stays (HepFS.read_file f) s

/-! ## Devices with all the blocks -/

section

variable {s : Fs} (hc : s.geom.covers) (I : Inv s.blk)

include hc I

theorem Op.Stops.on_device {op : Op} {e : Panic} (hproper : op.Proper s.blk) (h : op.Stops s e) :
    e.off_device = false := by
  cases op with
  | create_file parent name =>
    obtain ⟨s', he⟩ := h
    exact Stays.of_post (create_file_spec s hc I parent name hproper)
      (fun _ _ hf => hf.on_device) e s' he
  | create_dir parent name =>
    obtain ⟨s', he⟩ := h
    exact Stays.of_post (create_dir_spec s hc I parent name hproper)
      (fun _ _ hf => hf.on_device) e s' he
  | write_file ino data =>
    obtain ⟨s', he⟩ := h
    exact Stays.of_post (write_file_spec s hc ino data (I.target hproper))
      (fun _ _ hf => hf.on_device) e s' he
  | remove parent_ino name =>
    obtain ⟨s', he⟩ := h
    obtain ⟨r, t, hrun, -⟩ := remove_spec s hc I parent_ino name hproper
    exact Stays.of_ok hrun e s' he
  | rename parent_ino old_name new_name =>
    obtain ⟨s', he⟩ := h
    obtain ⟨r, t, hrun, -⟩ := rename_spec s hc I parent_ino old_name new_name hproper
    exact Stays.of_ok hrun e s' he
  | move_entry from_parent to_parent name =>
    obtain ⟨s', he⟩ := h
    refine Stays.of_post (move_entry_spec s hc I from_parent to_parent name hproper.1 hproper.2)
      ?_ e s' he
    rintro e' t ⟨rfl, -⟩
    rfl
  | copy_entry frames from_parent to_parent name dest_name =>
    obtain ⟨s', he⟩ := h
    exact Stays.of_post (copy_entry_spec frames s from_parent to_parent name dest_name hc I
      hproper.1 hproper.2) (fun _ _ hf => hf) e s' he

theorem Inv.on_device : OnDevice s where
  alloc := by
    intro b s' hb
    obtain ⟨hfresh, -⟩ := (alloc_block_spec s hc).of_ok hb
    exact ⟨hfresh.ge, (s.geom.holds_iff _).mp (hc.holds hfresh.lt).1⟩
  alloc_stays := by
    refine Stays.of_post (alloc_block_spec s hc) ?_
    rintro e s' ⟨rfl, -⟩
    rfl
  ops := fun _ hproper _ h => h.on_device hc I hproper
  lookup := by
    intro path hdirs
    obtain ⟨r, t, hrun, -⟩ := lookup_spec hc I path hdirs
    exact Stays.of_ok hrun
  read_inode := by
    intro ino hlt
    obtain ⟨t, hrun, -⟩ := read_inode_spec s ino (hc.holds_inode hlt)
    exact Stays.of_ok hrun
  list_dir := by
    intro d hd
    obtain ⟨t, hrun, -⟩ := list_dir_spec s hc I.acc d hd
    exact Stays.of_ok hrun
  read_file := by
    intro f hf
    obtain ⟨t, hrun, -⟩ := read_file_spec s hc f (I.target hf)
    exact Stays.of_ok hrun

end

/-- **Allocation stays on a device that has all the blocks the bit map describes**, in every state
that the operations reach. -/
theorem on_device_of_covers {s : Fs} (h : Reachable s) : OnDevice s := by
  obtain ⟨hc, I⟩ := h.inv
  exact I.on_device hc

/-- The witness: a disk with one file. -/
theorem on_device_of_covers_created :
    ∃ s q, Reachable s ∧ view s.blk = View.root.create 1 F_FILE 0 q "a" ∧ OnDevice s := by
  obtain ⟨-, s, q, -, -, -, hreach, hview, -⟩ := exists_created .file "a" (by decide)
  exact ⟨s, q, hreach, hview, on_device_of_covers hreach⟩

/-! ## A small device -/

/-- The smallest device that `format` accepts: 39 blocks, in sectors of 512 bytes. -/
def small_device : Geometry where
  lba_size := 512
  lba_count := 312
  lba_size_dvd := smallest_device.lba_size_dvd
  memory := none

theorem small_device_total : small_device.total_blocks = 39 := by decide

/-- On a device whose blocks are all in use `create_dir` is refused the block behind the end. -/
theorem create_dir_refused {s : Fs} (hbm : ∀ b < 38, s.geom.serves b) (parent : UInt32)
    (name : String) (hinode : bitAt s.blk 1 1 = false)
    (hused : ∀ b, s.geom.holds b → bitAt s.blk 2 b = true) (hleft : freeCount s.blk ≠ 0) :
    ∃ s', create_dir parent name s = .error .nvme_write s' := by
  obtain ⟨s1, hbump, hb1, hblk1⟩ := bump_generation_spec s
  have hbm1 : ∀ b < 38, s1.geom.serves b := by rw [hb1.geom]; exact hbm
  obtain ⟨ino, s2, hino, hi, ht2⟩ := (alloc_inode_on s1 hbm1).exists_ok (by
    rintro e s' ⟨-, hfull⟩
    rw [hblk1] at hfull
    exact absurd ((hfull 1 (by omega)).symm.trans hinode) (by decide))
  have hgeom2 : s2.geom = s.geom := ht2.geom.trans hb1.geom
  have hbits2 : ∀ c < 131072, bitAt s2.blk 2 c = bitAt s.blk 2 c := by
    intro c hc
    have hlt := hi.lt
    rw [ht2.blk, bitAt_congr (setBit_apply_ne _ _ _ _ (by omega)), hblk1]
  have halloc := alloc_block_on s2 (by rw [hgeom2]; exact hbm)
  unfold create_dir
  rw [bind_of_ok hbump, bind_of_ok hino]
  cases hrun : alloc_block s2 with
  | ok b s3 =>
    rw [Post, hrun] at halloc
    obtain ⟨hfresh, hholds, -⟩ := halloc
    rw [hgeom2] at hholds
    have hclear := hfresh.clear
    rw [hbits2 _ hfresh.lt, hused _ hholds] at hclear
    exact absurd hclear (by decide)
  | error e s3 =>
    rw [Post, hrun] at halloc
    rcases halloc with ⟨-, h0, -⟩ | ⟨rfl, -⟩
    · rw [freeCount_congr hbits2] at h0
      exact absurd h0 hleft
    · exact ⟨s3, bind_of_error hrun⟩

/-- **The bit map is larger than the device.** A device of 39 blocks is formatted; creating the
first directory then allocates block 39, which the device does not have. -/
theorem create_dir_leaves_device : ∃ s₀ s, s₀.geom = small_device ∧ format s₀ = .ok () s
      ∧ (Op.create_dir 0 "a").Proper s.blk ∧ (Op.create_dir 0 "a").Stops s .nvme_write
      ∧ ¬ OnDevice s := by
  let s₀ : Fs := ⟨small_device, fun _ => Mem.zero, 0, 0⟩
  obtain ⟨s, hformat, hgeom, I, hview, hcount, hbits⟩ := format_on s₀ (by
    rw [small_device_total]) rfl
  have hholds : ∀ b, s.geom.holds b ↔ b < 39 := by
    intro b
    rw [hgeom, Geometry.holds_iff]
    rw [small_device_total]
  have hdir : kindAt s.blk (0 : UInt32).toNat = F_DIR := by
    rw [← view_flags, hview, View.flags_root]
    rfl
  have hinode : bitAt s.blk 1 1 = false := by
    have hfree : kindAt s.blk 1 = F_FREE := by
      rw [← view_flags, hview, View.flags_root]
      rfl
    by_contra hset
    exact (I.inode_bits 1 (by omega)).mp (Bool.eq_true_of_not_eq_false hset) hfree
  have hused : ∀ b, s.geom.holds b → bitAt s.blk 2 b = true := by
    intro b hb
    have hlt := (hholds b).mp hb
    rw [hbits b (by omega)]
    exact decide_eq_true hlt
  have hstops : (Op.create_dir 0 "a").Stops s .nvme_write :=
    create_dir_refused (fun b hb => ⟨(hholds b).mpr (by omega), by rw [hgeom]; rfl⟩) 0 "a" hinode
      hused (by omega)
  refine ⟨s₀, s, rfl, hformat, hdir, hstops, ?_⟩
  intro hon
  exact absurd (hon.ops (.create_dir 0 "a") hdir _ hstops) (by decide)

end HepOS.HepFS
