/-
The public operations of `hepfs.rs` on top of blocks, inodes and directories.

`copy_entry` calls itself for the entries of a directory. Its first argument is the number
of stack frames that are left; running out of them is the panic `stack_overflow`. The
recursion creates a directory in every frame, so with more frames than inodes it is the
inode table that ends it.
-/
import HepOS.HepFS.Dir

set_option autoImplicit false

namespace HepOS.HepFS

open Bytes Hoare

/-! ## `format` and `probe` -/

/-- The fields of the superblock, holes included. -/
def superblock_fields (total_blocks : UInt64) : List (ℕ × ℕ) :=
  [(8, MAGIC), (4, BLOCK_SIZE), (4, 0), (8, total_blocks.toNat),
    (8, (total_blocks - UInt64.ofNat DATA_BLOCK_START).toNat), (4, MAX_INODES),
    (4, MAX_INODES - 1)]

/-- The root directory as `format` writes it. -/
def root_inode (root_blk : UInt32) : Inode :=
  { (default : Inode) with
    flags := F_DIR, size := 0, nblocks := 1, direct := (Vector.replicate 12 0).set 0 root_blk }

def format : FsM Unit := do
  let s ← get
  let total_blocks := UInt64.ofNat s.geom.total_blocks
  let sb_page ← page_alloc
  write_block SB_BLOCK (sb_page.write 0 (encodeFields (superblock_fields total_blocks)))
  let empty ← page_alloc
  each (fun i => write_block (INODE_BM_BLOCK + i) empty) (List.range (BLOCK_BM_LEN + 1))
  each (fun b => bitmap_set BLOCK_BM_BLOCK b true) (List.range DATA_BLOCK_START)
  bitmap_set INODE_BM_BLOCK 0 true
  each (fun i => write_block (INODE_TBL_BLOCK + i) empty) (List.range INODE_TBL_LEN)
  let root_blk ← alloc_block
  write_inode ROOT_INO (root_inode root_blk)
  write_block root_blk.toNat empty

def probe : FsM Bool := do
  let page ← read_block SB_BLOCK
  pure (leNat (page.read 0 8) = MAGIC)

/-! ## Creating -/

def create_file (parent : UInt32) (name : String) : FsM UInt32 := do
  bump_generation
  let ino ← alloc_inode
  write_inode ino { (default : Inode) with flags := F_FILE }
  add_dir_entry parent name ino
  pure ino

/-- The inode of an empty directory whose first block is `blk`. -/
def dir_inode (blk : UInt32) : Inode :=
  { (default : Inode) with
    flags := F_DIR, nblocks := 1, direct := (Vector.replicate 12 0).set 0 blk }

def create_dir (parent : UInt32) (name : String) : FsM UInt32 := do
  bump_generation
  let ino ← alloc_inode
  let blk ← alloc_block
  write_inode ino (dir_inode blk)
  add_dir_entry parent name ino
  pure ino

/-! ## Removing -/

/-- The loop over the entries of one table: it stops at the first zero pointer. -/
def free_table (buf : Block) : List ℕ → FsM Unit
  | [] => pure ()
  | i :: rest =>
    if buf.ptr i = 0 then pure ()
    else do
      bitmap_set BLOCK_BM_BLOCK (buf.ptr i).toNat false
      free_table buf rest

def free_indirect (inode : Inode) : FsM Unit :=
  if inode.indirect ≠ 0 then do
    let ind_buf ← read_block inode.indirect.toNat
    free_table ind_buf (List.range PTRS_PER_INDIRECT)
    bitmap_set BLOCK_BM_BLOCK inode.indirect.toNat false
  else pure ()

def free_l1_tables (dind_buf : Block) : List ℕ → FsM Unit
  | [] => pure ()
  | l1_idx :: rest =>
    if dind_buf.ptr l1_idx = 0 then pure ()
    else do
      let l1_buf ← read_block (dind_buf.ptr l1_idx).toNat
      free_table l1_buf (List.range PTRS_PER_INDIRECT)
      bitmap_set BLOCK_BM_BLOCK (dind_buf.ptr l1_idx).toNat false
      free_l1_tables dind_buf rest

def free_dindirect (inode : Inode) : FsM Unit :=
  if inode.dindirect ≠ 0 then do
    let dind_buf ← read_block inode.dindirect.toNat
    free_l1_tables dind_buf (List.range PTRS_PER_INDIRECT)
    bitmap_set BLOCK_BM_BLOCK inode.dindirect.toNat false
  else pure ()

/-- The blocks of an inode, given back to the bit map. -/
def free_blocks (inode : Inode) : FsM Unit := do
  each (fun blk => bitmap_set BLOCK_BM_BLOCK blk.toNat false) inode.blocks
  free_indirect inode
  free_dindirect inode

/-- The end of `remove` and the middle of `move_entry`: the first entry for inode `ino`
is overwritten with zeros. Returns whether there was one. -/
def clear_entry (parent : Inode) (ino : UInt32) : FsM Bool := do
  match ← scan_dir (fun e => e.inode = ino) parent.blocks with
  | some (blk, buf, i) => do
    write_block blk.toNat (buf.setEntry i default)
    pure true
  | none => pure false

/-- The test `inode.flags == F_DIR && !list_dir(ctrl, ino).is_empty()`. -/
def has_entries (ino : UInt32) (inode : Inode) : FsM Bool :=
  if inode.flags = F_DIR then do
    let entries ← list_dir ino
    pure !entries.isEmpty
  else pure false

def remove (parent_ino : UInt32) (name : String) : FsM Bool := do
  bump_generation
  match ← find_in_dir parent_ino name with
  | none => pure false
  | some ino => do
    let inode ← read_inode ino
    if ino = ROOT_INO then pure false
    else if ← has_entries ino inode then pure false
    else do
      free_blocks inode
      bitmap_set INODE_BM_BLOCK ino.toNat false
      write_inode ino { (default : Inode) with flags := F_FREE }
      let parent ← read_inode parent_ino
      let _removed ← clear_entry parent ino
      pure true

/-! ## Renaming and moving -/

def rename (parent_ino : UInt32) (old_name new_name : String) : FsM Bool := do
  bump_generation
  match ← find_in_dir parent_ino new_name with
  | some _ => pure false
  | none =>
    if 27 < (nameBytes new_name).length then pure false
    else do
      let parent ← read_inode parent_ino
      match ← scan_dir (DirEntry.named old_name) parent.blocks with
      | some (blk, buf, i) => do
        write_block blk.toNat
          (buf.setEntry i (DirEntry.mk_named (buf.entry i).inode new_name))
        pure true
      | none => pure false

def move_entry (from_parent to_parent : UInt32) (name : String) : FsM Bool := do
  bump_generation
  if from_parent = to_parent then pure false
  else do
    match ← find_in_dir to_parent name with
    | some _ => pure false
    | none => do
      match ← find_in_dir from_parent name with
      | none => pure false
      | some ino => do
        let parent ← read_inode from_parent
        if ← clear_entry parent ino then do
          add_dir_entry to_parent name ino
          pure true
        else pure false

/-! ## Copying -/

/-- The loop over the entries of a directory that is copied. -/
def copy_children (copy : String → FsM (Option UInt32)) : List (UInt32 × String) → FsM Unit
  | [] => pure ()
  | (_, child_name) :: rest => do
    let _copied ← copy child_name
    copy_children copy rest

def copy_entry : ℕ → UInt32 → UInt32 → String → String → FsM (Option UInt32)
  | 0, _, _, _, _ => throw .stack_overflow
  | frames + 1, from_parent, to_parent, name, dest_name => do
    match ← find_in_dir to_parent dest_name with
    | some _ => pure none
    | none => do
      match ← find_in_dir from_parent name with
      | none => pure none
      | some src_ino =>
        if src_ino = to_parent then pure none
        else do
          let inode ← read_inode src_ino
          if inode.flags = F_DIR then do
            let new_ino ← create_dir to_parent dest_name
            let children ← list_dir src_ino
            copy_children (fun child_name =>
              copy_entry frames src_ino new_ino child_name child_name) children
            pure (some new_ino)
          else do
            let data ← read_file src_ino
            let new_ino ← create_file to_parent dest_name
            write_file new_ino data
            pure (some new_ino)

/-- The loop of `copy_entry_unique`: `n` is the number in the name that comes next, `tries`
what is left of the hundred. -/
def copy_entry_unique_loop (frames : ℕ) (from_parent to_parent : UInt32) (name : String) :
    ℕ → ℕ → String → FsM (Option UInt32)
  | 0, _, candidate => copy_entry frames from_parent to_parent name candidate
  | tries + 1, n, candidate => do
    match ← copy_entry frames from_parent to_parent name candidate with
    | some ino => pure (some ino)
    | none =>
      let candidate := name ++ " (" ++ toString n ++ ")"
      copy_entry_unique_loop frames from_parent to_parent name tries (n + 1) candidate

def copy_entry_unique (frames : ℕ) (from_parent to_parent : UInt32) (name : String) :
    FsM (Option UInt32) :=
  copy_entry_unique_loop frames from_parent to_parent name 100 1 name

/-! ## `stat` -/

def stat (ino : UInt32) : FsM (Bool × UInt64) := do
  let inode ← read_inode ino
  pure (inode.flags = F_DIR, inode.size)

end HepOS.HepFS
