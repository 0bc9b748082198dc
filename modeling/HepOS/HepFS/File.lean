/-
`write_file` and `read_file`.

Both walk the three pointer levels with loops of different shape. The writer goes
through logical blocks in order, allocating a block (and the tables above it) where
the pointer is zero; the indirect table is edited in a page in memory and written once
after its loop, the double-indirect levels are read and written block by block, and the
inode is written last. The reader filters the direct pointers for non-zero ones, and
stops a table at its first zero entry.

A `while` over `remaining` is a recursion; `block_idx`, `ind_idx` and `counter` are
the loop counters of the source.
-/
import HepOS.HepFS.Inode

set_option autoImplicit false

namespace HepOS.HepFS

open Bytes Hoare

/-! ## Writing -/

/-- The end of every iteration: at most one block of what remains goes to a fresh zeroed
page and from there to block `blk`. Returns what remains after it. -/
def write_chunk (blk : UInt32) (remaining : List UInt8) : FsM (List UInt8) := do
  let chunk := min remaining.length BLOCK_SIZE
  let page ← page_alloc
  write_block blk.toNat (page.write 0 (remaining.take chunk))
  pure (remaining.drop chunk)

section

variable (inode : Inode)

/-- A direct pointer, allocated if it is zero. -/
def ensure_direct (block_idx : ℕ) (h : block_idx < 12) : FsM Inode :=
  if inode.direct[block_idx] = 0 then do
    let b ← alloc_block
    pure { inode with direct := inode.direct.set block_idx b, nblocks := inode.nblocks + 1 }
  else pure inode

/-- Phase 1: direct blocks. -/
def write_direct (inode : Inode) (remaining : List UInt8) (block_idx : ℕ) :
    FsM (Inode × List UInt8) :=
  if h : remaining ≠ [] ∧ block_idx < DIRECT_PTRS then do
    have hidx : block_idx < 12 := h.2
    let inode ← ensure_direct inode block_idx hidx
    let remaining ← write_chunk inode.direct[block_idx] remaining
    write_direct inode remaining (block_idx + 1)
  else pure (inode, remaining)
termination_by DIRECT_PTRS - block_idx
decreasing_by simp only [DIRECT_PTRS] at h ⊢; omega

/-- The indirect table, allocated if there is none. -/
def ensure_indirect : FsM Inode :=
  if inode.indirect = 0 then do
    let b ← alloc_block
    pure { inode with indirect := b, nblocks := inode.nblocks + 1 }
  else pure inode

/-- An entry of the indirect table held in memory, allocated if it is zero. -/
def ensure_entry (ind_buf : Block) (ind_idx : ℕ) :
    FsM (Inode × Block × UInt32) :=
  let existing := ind_buf.ptr ind_idx
  if existing ≠ 0 then pure (inode, ind_buf, existing)
  else do
    let b ← alloc_block
    pure ({ inode with nblocks := inode.nblocks + 1 }, ind_buf.setPtr ind_idx b, b)

/-- The loop of phase 2. -/
def write_indirect_loop (inode : Inode) (ind_buf : Block) (remaining : List UInt8)
    (ind_idx : ℕ) : FsM (Inode × Block × List UInt8) :=
  if _hlt : remaining ≠ [] ∧ ind_idx < PTRS_PER_INDIRECT then do
    let (inode, ind_buf, blk) ← ensure_entry inode ind_buf ind_idx
    let remaining ← write_chunk blk remaining
    write_indirect_loop inode ind_buf remaining (ind_idx + 1)
  else pure (inode, ind_buf, remaining)
termination_by PTRS_PER_INDIRECT - ind_idx
decreasing_by simp only [PTRS_PER_INDIRECT, BLOCK_SIZE] at _hlt ⊢; omega

/-- Phase 2: blocks behind the indirect table. -/
def write_indirect (remaining : List UInt8) : FsM (Inode × List UInt8) :=
  if remaining = [] then pure (inode, remaining)
  else do
    let inode ← ensure_indirect inode
    let ind_page ← read_block inode.indirect.toNat
    let (inode, ind_buf, remaining) ← write_indirect_loop inode ind_page remaining 0
    write_block inode.indirect.toNat ind_buf
    pure (inode, remaining)

/-- The double-indirect table, allocated if there is none. -/
def ensure_dindirect : FsM Inode :=
  if inode.dindirect = 0 then do
    let b ← alloc_block
    pure { inode with dindirect := b, nblocks := inode.nblocks + 1 }
  else pure inode

/-- An entry of the table in block `table`, allocated and written back if it is zero. -/
def ensure_ptr (table : UInt32) (idx : ℕ) : FsM (Inode × UInt32) := do
  let buf ← read_block table.toNat
  let existing := buf.ptr idx
  if existing ≠ 0 then pure (inode, existing)
  else do
    let b ← alloc_block
    write_block table.toNat (buf.setPtr idx b)
    pure ({ inode with nblocks := inode.nblocks + 1 }, b)

/-- The loop of phase 3. -/
def write_dindirect_loop (inode : Inode) (remaining : List UInt8) (counter : ℕ) : FsM Inode :=
  if remaining = [] then pure inode
  else if _hlt : counter < DINDIRECT_MAX_BLOCKS then do
    let l1_idx := counter / PTRS_PER_INDIRECT
    let l2_idx := counter % PTRS_PER_INDIRECT
    let (inode, l1_blk) ← ensure_ptr inode inode.dindirect l1_idx
    let (inode, data_blk) ← ensure_ptr inode l1_blk l2_idx
    let remaining ← write_chunk data_blk remaining
    write_dindirect_loop inode remaining (counter + 1)
  else throw .file_too_large
termination_by DINDIRECT_MAX_BLOCKS - counter
decreasing_by simp only [DINDIRECT_MAX_BLOCKS, PTRS_PER_INDIRECT, BLOCK_SIZE] at _hlt ⊢; omega

/-- Phase 3: blocks behind the double-indirect table. -/
def write_dindirect (remaining : List UInt8) : FsM Inode :=
  if remaining = [] then pure inode
  else do
    let inode ← ensure_dindirect inode
    write_dindirect_loop inode remaining 0

def write_file (ino : UInt32) (data : List UInt8) : FsM Unit := do
  let inode ← read_inode ino
  if inode.flags ≠ F_FILE then throw .not_a_file
  else do
    let (inode, remaining) ← write_direct inode data 0
    let (inode, remaining) ← write_indirect inode remaining
    let inode ← write_dindirect inode remaining
    write_inode ino { inode with size := UInt64.ofNat data.length }

/-! ## Reading -/

/-- One iteration of a read loop: at most one block of the `left` bytes that are still
to come. -/
def read_chunk (blk : UInt32) (left : ℕ) : FsM (List UInt8 × ℕ) := do
  let page ← read_block blk.toNat
  let chunk := min left BLOCK_SIZE
  pure (page.read 0 chunk, left - chunk)

/-- Phase 1: the direct pointers that are not zero. -/
def read_direct : List UInt32 → List UInt8 → ℕ → FsM (List UInt8 × ℕ)
  | [], out, left => pure (out, left)
  | blk :: rest, out, left =>
    if left = 0 then pure (out, left)
    else do
      let (bytes, left) ← read_chunk blk left
      read_direct rest (out ++ bytes) left

/-- The loop over the entries of one table, for phase 2 and for each level-1 table of
phase 3. -/
def read_table (buf : Block) : List ℕ → List UInt8 → ℕ → FsM (List UInt8 × ℕ)
  | [], out, left => pure (out, left)
  | i :: rest, out, left =>
    if left = 0 then pure (out, left)
    else if buf.ptr i = 0 then pure (out, left)
    else do
      let (bytes, left) ← read_chunk (buf.ptr i) left
      read_table buf rest (out ++ bytes) left

/-- Phase 2: the indirect table. -/
def read_indirect (out : List UInt8) (left : ℕ) : FsM (List UInt8 × ℕ) :=
  if 0 < left ∧ inode.indirect ≠ 0 then do
    let ind_buf ← read_block inode.indirect.toNat
    read_table ind_buf (List.range PTRS_PER_INDIRECT) out left
  else pure (out, left)

/-- The outer loop of phase 3. -/
def read_l1_tables (dind_buf : Block) : List ℕ → List UInt8 → ℕ → FsM (List UInt8 × ℕ)
  | [], out, left => pure (out, left)
  | l1_idx :: rest, out, left =>
    if left = 0 then pure (out, left)
    else if dind_buf.ptr l1_idx = 0 then pure (out, left)
    else do
      let l1_buf ← read_block (dind_buf.ptr l1_idx).toNat
      let (out, left) ← read_table l1_buf (List.range PTRS_PER_INDIRECT) out left
      read_l1_tables dind_buf rest out left

/-- Phase 3: the double-indirect table. -/
def read_dindirect (out : List UInt8) (left : ℕ) : FsM (List UInt8 × ℕ) :=
  if 0 < left ∧ inode.dindirect ≠ 0 then do
    let dind_buf ← read_block inode.dindirect.toNat
    read_l1_tables dind_buf (List.range PTRS_PER_INDIRECT) out left
  else pure (out, left)

end

def read_file (ino : UInt32) : FsM (List UInt8) := do
  let inode ← read_inode ino
  if inode.flags ≠ F_FILE then throw .not_a_file
  else do
    let (out, left) ← read_direct (inode.direct.toList.filter (· ≠ 0)) [] inode.size.toNat
    let (out, left) ← read_indirect inode out left
    let (out, _) ← read_dindirect inode out left
    pure out

end HepOS.HepFS
