/-
The block device under HepFS and the monad its functions run in.

HepFS is mounted on the NVMe controller. A read or write of a 4 KB block is one
transfer of `sectors_per_block` sectors; a transfer past the last sector completes
with an error status, and `nvme.rs` asserts that the status is zero, so it panics.
Every panic of `hepfs.rs` (`assert!`, `expect`, `panic!`) is a `Panic` here, and a
program keeps the disk it had reached when it stopped.

`pages` counts the physical pages `Page::alloc` has taken. `Page` has no `Drop`, so
nothing ever lowers it, and once it is at `memory` the next `Page::alloc` panics. A state
with `memory` `none` is the same machine with pages that never run out, and `limit`
leads back from it. `generation` is the `GENERATION` counter of directory mutations.
-/
import HepOS.Lib.Hoare
import HepOS.HepFS.Layout

set_option autoImplicit false

namespace HepOS.HepFS

open Bytes Hoare

/-! ## Panics -/

/-- The ways a HepFS function, or the boot code that calls it, can stop the kernel. -/
inductive Panic
  | nvme_read
  | nvme_write
  | disk_full
  | inode_table_full
  | too_many_inodes
  | not_a_directory
  | not_a_file
  | filename_too_long
  | directory_full
  | file_too_large
  | stack_overflow
  | unwrap_none
  | oom
deriving DecidableEq, Repr

/-- The panics of a transfer the device refuses. -/
def Panic.off_device : Panic → Bool
  | .nvme_read | .nvme_write => true
  | _ => false

/-! ## The device -/

/-- Sector size and sector count, as the namespace reports them, and how many pages HepFS
can take. A sector divides a block: `sectors_per_block` is an exact division. -/
structure Geometry where
  lba_size : ℕ
  lba_count : ℕ
  lba_size_dvd : lba_size ∣ 4096
  memory : Option ℕ

def Geometry.sectors_per_block (g : Geometry) : ℕ := BLOCK_SIZE / g.lba_size

def Geometry.total_blocks (g : Geometry) : ℕ := g.lba_count * g.lba_size / BLOCK_SIZE

/-- The transfer of block `block` addresses only sectors the device has. -/
def Geometry.holds (g : Geometry) (block : ℕ) : Prop :=
  block * g.sectors_per_block + g.sectors_per_block ≤ g.lba_count

instance (g : Geometry) (block : ℕ) : Decidable (g.holds block) :=
  inferInstanceAs (Decidable (_ ≤ _))

/-- The device holds exactly the blocks below `total_blocks`. -/
theorem Geometry.holds_iff (g : Geometry) (block : ℕ) : g.holds block ↔ block < g.total_blocks := by
  obtain ⟨k, hk⟩ := g.lba_size_dvd
  have hpos : 0 < g.lba_size := Nat.pos_of_ne_zero (by rintro h; rw [h] at hk; omega)
  have hkpos : 0 < k := Nat.pos_of_ne_zero (by rintro h; rw [h] at hk; omega)
  have hspb : g.sectors_per_block = k := by
    rw [Geometry.sectors_per_block, BLOCK_SIZE, hk, Nat.mul_div_cancel_left _ hpos]
  have htotal : g.total_blocks = g.lba_count / k := by
    rw [Geometry.total_blocks, BLOCK_SIZE, hk, Nat.mul_comm, Nat.mul_div_mul_left _ _ hpos]
  rw [Geometry.holds, hspb, htotal, Nat.lt_iff_add_one_le, Nat.le_div_iff_mul_le hkpos,
    Nat.add_mul, Nat.one_mul]

/-- The device has the block, and the memory does not run out. -/
def Geometry.serves (g : Geometry) (block : ℕ) : Prop := g.holds block ∧ g.memory = none

/-- The content of every block. -/
abbrev Disk := ℕ → Block

/-- The machine state HepFS works on. -/
structure Fs where
  geom : Geometry
  blk : Disk
  pages : ℕ
  generation : UInt64

abbrev FsM := EStateM Panic Fs

/-- The disk with one block replaced. -/
def Disk.put (D : Disk) (b : ℕ) (p : Block) : Disk := Function.update D b p

@[simp] theorem Disk.put_same (D : Disk) (b : ℕ) (p : Block) : D.put b p b = p := by
  simp [Disk.put]

theorem Disk.put_ne (D : Disk) {b c : ℕ} (p : Block) (h : c ≠ b) : D.put b p c = D c := by
  simp [Disk.put, h]

theorem Disk.put_put_same (D : Disk) (b : ℕ) (p q : Block) : (D.put b p).put b q = D.put b q := by
  simp [Disk.put]

theorem Disk.put_comm (D : Disk) {b c : ℕ} (p q : Block) (h : b ≠ c) :
    (D.put b p).put c q = (D.put c q).put b p := by
  exact Function.update_comm h p q D

theorem Disk.put_self (D : Disk) (b : ℕ) : D.put b (D b) = D := by
  simp [Disk.put]

/-! ## Pages and block transfers -/

/-- A page is left. -/
def Fs.HasPage (s : Fs) : Prop := ∀ memory ∈ s.geom.memory, s.pages < memory

instance (s : Fs) : Decidable s.HasPage := inferInstanceAs (Decidable (∀ _ ∈ _, _))

/-- `Page::alloc`: a fresh page, zeroed. -/
def page_alloc : FsM Block := do
  let s ← get
  if s.HasPage then do
    set { s with pages := s.pages + 1 }
    pure Mem.zero
  else throw .oom

/-- `read_block`: a fresh page, filled by the device. -/
def read_block (block : ℕ) : FsM Block := do
  let _page ← page_alloc
  let s ← get
  if s.geom.holds block then pure (s.blk block) else throw .nvme_read

/-- `write_block`. -/
def write_block (block : ℕ) (page : Block) : FsM Unit := do
  let s ← get
  if s.geom.holds block then set { s with blk := s.blk.put block page } else throw .nvme_write

/-- `bump_generation`. -/
def bump_generation : FsM Unit :=
  modify (fun s => { s with generation := s.generation + 1 })

/-- `s'` is `s` with the disk `D`: the device and the generation counter are the
same, and pages may have been taken. -/
structure Fs.To (s s' : Fs) (D : Disk) : Prop where
  geom : s'.geom = s.geom
  gen : s'.generation = s.generation
  blk : s'.blk = D
  pages : s.pages ≤ s'.pages

theorem Fs.To.rfl (s : Fs) : s.To s s.blk := ⟨Eq.refl _, Eq.refl _, Eq.refl _, le_rfl⟩

theorem Fs.To.trans {s s' s'' : Fs} {D D' : Disk} (h : s.To s' D) (h' : s'.To s'' D') :
    s.To s'' D' :=
  ⟨h'.geom.trans h.geom, h'.gen.trans h.gen, h'.blk, h.pages.trans h'.pages⟩

theorem page_alloc_run {s : Fs} (h : s.HasPage) :
    page_alloc s = .ok Mem.zero { s with pages := s.pages + 1 } := by
  rw [page_alloc, bind_of_ok (show (get : FsM Fs) _ = .ok _ _ from Eq.refl _), if_pos h]
  exact Eq.refl _

theorem page_alloc_oom {s : Fs} (h : ¬ s.HasPage) : page_alloc s = .error .oom s := by
  rw [page_alloc, bind_of_ok (show (get : FsM Fs) _ = .ok _ _ from Eq.refl _), if_neg h]
  exact Eq.refl _

theorem hasPage_of_none {s : Fs} (h : s.geom.memory = none) : s.HasPage := by
  intro memory hmem
  rw [h] at hmem
  simp at hmem

theorem page_alloc_spec (s : Fs) (h : s.geom.memory = none) :
    ∃ s', page_alloc s = .ok Mem.zero s' ∧ s.To s' s.blk :=
  ⟨_, page_alloc_run (hasPage_of_none h), ⟨Eq.refl _, Eq.refl _, Eq.refl _, Nat.le_succ _⟩⟩

/-- A read of a block the device has returns its content, in a page of its own. -/
theorem read_block_run {s : Fs} {block : ℕ} (hpage : s.HasPage) (h : s.geom.holds block) :
    read_block block s = .ok (s.blk block) { s with pages := s.pages + 1 } := by
  rw [read_block, bind_of_ok (page_alloc_run hpage),
    bind_of_ok (show (get : FsM Fs) _ = .ok _ _ from Eq.refl _), if_pos h]
  exact Eq.refl _

theorem read_block_spec (s : Fs) {block : ℕ} (h : s.geom.serves block) :
    ∃ s', read_block block s = .ok (s.blk block) s' ∧ s.To s' s.blk :=
  ⟨_, read_block_run (hasPage_of_none h.2) h.1, ⟨Eq.refl _, Eq.refl _, Eq.refl _, Nat.le_succ _⟩⟩

theorem write_block_run {s : Fs} {block : ℕ} (page : Block) (h : s.geom.holds block) :
    write_block block page s = .ok () { s with blk := s.blk.put block page } := by
  rw [write_block, bind_of_ok (show (get : FsM Fs) _ = .ok _ _ from Eq.refl _), if_pos h]
  exact Eq.refl _

theorem write_block_spec (s : Fs) {block : ℕ} (page : Block) (h : s.geom.serves block) :
    ∃ s', write_block block page s = .ok () s' ∧ s.To s' (s.blk.put block page) :=
  ⟨_, write_block_run page h.1, ⟨Eq.refl _, Eq.refl _, Eq.refl _, le_rfl⟩⟩

theorem write_block_refused (s : Fs) {block : ℕ} (page : Block) (h : ¬ s.geom.holds block) :
    write_block block page s = .error .nvme_write s := by
  rw [write_block, bind_of_ok (show (get : FsM Fs) _ = .ok _ _ from Eq.refl _), if_neg h]
  exact Eq.refl _

/-! ### Transfers that returned -/

theorem page_alloc_ok {s t : Fs} {p : Block} (h : page_alloc s = .ok p t) :
    s.HasPage ∧ p = Mem.zero ∧ t = { s with pages := s.pages + 1 } := by
  by_cases hpage : s.HasPage
  · rw [page_alloc_run hpage] at h
    cases h
    exact ⟨hpage, Eq.refl _, Eq.refl _⟩
  · rw [page_alloc_oom hpage] at h
    cases h

theorem read_block_ok {s t : Fs} {block : ℕ} {p : Block} (h : read_block block s = .ok p t) :
    s.HasPage ∧ s.geom.holds block ∧ p = s.blk block ∧ t = { s with pages := s.pages + 1 } := by
  obtain ⟨_, _, hpage, hrest⟩ := exists_of_bind_ok h
  obtain ⟨hhas, -, rfl⟩ := page_alloc_ok hpage
  rw [bind_of_ok (show (get : FsM Fs) _ = .ok _ _ from Eq.refl _)] at hrest
  split_ifs at hrest with hdev <;> cases hrest
  exact ⟨hhas, hdev, Eq.refl _, Eq.refl _⟩

theorem write_block_ok {s t : Fs} {block : ℕ} {page : Block}
    (h : write_block block page s = .ok () t) :
    s.geom.holds block ∧ t = { s with blk := s.blk.put block page } := by
  rw [write_block, bind_of_ok (show (get : FsM Fs) _ = .ok _ _ from Eq.refl _)] at h
  split_ifs at h with hdev <;> cases h
  exact ⟨hdev, Eq.refl _⟩

end HepOS.HepFS
