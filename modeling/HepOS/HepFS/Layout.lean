/-
The on-disk layout of HepFS (`kernel/src/hepfs.rs`): constants, inodes, directory
entries and pointer tables, each with its byte encoding and the round trip.

A block is 4096 bytes. `read_inode` and `write_inode` move an inode through a cast
of 128 bytes of a block, so the encoding below is the `repr(C)` layout of the
struct, alignment holes included (four bytes after `flags` and after `nblocks`, and
the 32 bytes of `_pad`); no reader looks at the holes. A directory entry is 32 bytes:
the inode number, the length byte and 27 bytes of name. A pointer table is 1024
little-endian `u32`s.

Names and paths are `String`s. The bytes of a name are its UTF-8 bytes, and
`name_str` decodes them the way `core::str::from_utf8(..).unwrap_or("")` does.
-/
import HepOS.Lib.Bytes

set_option autoImplicit false

namespace HepOS.HepFS

open Bytes

/-! ## Constants -/

@[simp] abbrev MAGIC : ℕ := 0x4865704653000001
@[simp] abbrev BLOCK_SIZE : ℕ := 4096
@[simp] abbrev INODES_PER_BLK : ℕ := BLOCK_SIZE / 128
@[simp] abbrev MAX_INODES : ℕ := 1024
@[simp] abbrev DIRECT_PTRS : ℕ := 12

@[simp] abbrev SB_BLOCK : ℕ := 0
@[simp] abbrev INODE_BM_BLOCK : ℕ := 1
@[simp] abbrev BLOCK_BM_BLOCK : ℕ := 2
@[simp] abbrev BLOCK_BM_LEN : ℕ := 4
@[simp] abbrev INODE_TBL_BLOCK : ℕ := 6
@[simp] abbrev INODE_TBL_LEN : ℕ := 32
@[simp] abbrev DATA_BLOCK_START : ℕ := 38

@[simp] abbrev ROOT_INO : UInt32 := 0
@[simp] abbrev F_FREE : UInt32 := 0
@[simp] abbrev F_FILE : UInt32 := 1
@[simp] abbrev F_DIR : UInt32 := 2

@[simp] abbrev DIR_ENTRY_SIZE : ℕ := 32
@[simp] abbrev ENTRIES_PER_BLK : ℕ := BLOCK_SIZE / DIR_ENTRY_SIZE
@[simp] abbrev PTRS_PER_INDIRECT : ℕ := BLOCK_SIZE / 4
@[simp] abbrev DINDIRECT_MAX_BLOCKS : ℕ := PTRS_PER_INDIRECT * PTRS_PER_INDIRECT

/-- The content of one block of the disk, or of one I/O page. -/
abbrev Block := Mem BLOCK_SIZE

/-! ## Inodes -/

structure Inode where
  flags : UInt32
  size : UInt64
  nblocks : UInt32
  ctime : UInt64
  mtime : UInt64
  /-- Absolute block numbers, `0` for an unused pointer. -/
  direct : Vector UInt32 12
  indirect : UInt32
  dindirect : UInt32
deriving DecidableEq, Repr

/-- `Inode::default()`. -/
instance : Inhabited Inode :=
  ⟨⟨0, 0, 0, 0, 0, Vector.replicate 12 0, 0, 0⟩⟩

/-- The widths of the fields of an inode, holes included. -/
def inodeWidths : List ℕ :=
  [4, 4, 8, 4, 4, 8, 8] ++ List.replicate 12 4 ++ [4, 4, 32]

/-- The fields of an inode in storage order. -/
def Inode.fields (n : Inode) : List (ℕ × ℕ) :=
  [(4, n.flags.toNat), (4, 0), (8, n.size.toNat), (4, n.nblocks.toNat), (4, 0),
    (8, n.ctime.toNat), (8, n.mtime.toNat)]
  ++ n.direct.toList.map (fun p => (4, p.toNat))
  ++ [(4, n.indirect.toNat), (4, n.dindirect.toNat), (32, 0)]

/-- The 128 bytes of an inode. -/
def Inode.bytes (n : Inode) : List UInt8 := encodeFields n.fields

/-- The inode 128 bytes spell. -/
def Inode.ofBytes (bs : List UInt8) : Inode :=
  let v := decodeFields inodeWidths bs
  { flags := UInt32.ofNat (v.getD 0 0)
    size := UInt64.ofNat (v.getD 2 0)
    nblocks := UInt32.ofNat (v.getD 3 0)
    ctime := UInt64.ofNat (v.getD 5 0)
    mtime := UInt64.ofNat (v.getD 6 0)
    direct := Vector.ofFn (fun i : Fin 12 => UInt32.ofNat (v.getD (7 + i.val) 0))
    indirect := UInt32.ofNat (v.getD 19 0)
    dindirect := UInt32.ofNat (v.getD 20 0) }

theorem Inode.map_fst_fields (n : Inode) : n.fields.map Prod.fst = inodeWidths := by
  have hd : (n.direct.toList.map (fun p => ((4 : ℕ), p.toNat))).map Prod.fst
      = List.replicate 12 4 := by
    rw [List.map_map, List.eq_replicate_iff]
    simp
  simp only [Inode.fields, List.map_append, hd]
  rfl

theorem Inode.length_bytes (n : Inode) : n.bytes.length = 128 := by
  rw [Inode.bytes, length_encodeFields, Inode.map_fst_fields]
  rfl

/-- Every value fits the field it is stored in. -/
theorem Inode.fields_lt (n : Inode) : ∀ f ∈ n.fields, f.2 < 256 ^ f.1 := by
  intro f hf
  have h32 : ∀ v : UInt32, v.toNat < 256 ^ 4 := fun v => v.toNat_lt
  have h64 : ∀ v : UInt64, v.toNat < 256 ^ 8 := fun v => v.toNat_lt
  simp only [Inode.fields, List.mem_append, List.mem_cons, List.mem_map, List.not_mem_nil,
    or_false] at hf
  rcases hf with (hf | ⟨p, -, rfl⟩) | hf
  · rcases hf with rfl | rfl | rfl | rfl | rfl | rfl | rfl
    · exact h32 _
    · norm_num
    · exact h64 _
    · exact h32 _
    · norm_num
    · exact h64 _
    · exact h64 _
  · exact h32 p
  · rcases hf with rfl | rfl | rfl
    · exact h32 _
    · exact h32 _
    · norm_num

theorem Inode.ofBytes_bytes (n : Inode) : Inode.ofBytes n.bytes = n := by
  have hv : decodeFields inodeWidths n.bytes = n.fields.map Prod.snd := by
    rw [← Inode.map_fst_fields n]
    exact decodeFields_encodeFields _ n.fields_lt
  have hdir : ∀ i : Fin 12, (n.fields.map Prod.snd).getD (7 + i.val) 0 = n.direct[i].toNat := by
    intro i
    simp only [Inode.fields, List.map_append, List.map_cons, List.map_nil, List.map_map]
    rw [List.append_assoc, List.getD_append_right _ _ _ _ (by simp),
      List.getD_append _ _ _ _ (by simp), List.getD_eq_getElem _ _ (by simp)]
    simp
  have h19 : (n.fields.map Prod.snd).getD 19 0 = n.indirect.toNat := by
    simp only [Inode.fields, List.map_append, List.map_cons, List.map_nil, List.map_map]
    simp
  have h20 : (n.fields.map Prod.snd).getD 20 0 = n.dindirect.toNat := by
    simp only [Inode.fields, List.map_append, List.map_cons, List.map_nil, List.map_map]
    simp
  have hdirect : Vector.ofFn (fun i : Fin 12 =>
      UInt32.ofNat ((n.fields.map Prod.snd).getD (7 + i.val) 0)) = n.direct := by
    ext i hi
    rw [Vector.getElem_ofFn, hdir ⟨i, hi⟩]
    simp
  unfold Inode.ofBytes
  rw [hv]
  dsimp only
  rw [hdirect, h19, h20]
  simp [Inode.fields]

/-! ## Directory entries -/

structure DirEntry where
  /-- `0` for an unused slot. -/
  inode : UInt32
  name_len : UInt8
  name : Vector UInt8 27
deriving DecidableEq, Repr

/-- An unused slot: `DirEntry { inode: 0, name_len: 0, name: [0; 27] }`. -/
instance : Inhabited DirEntry := ⟨⟨0, 0, Vector.replicate 27 0⟩⟩

/-- The UTF-8 bytes of a name, `name.as_bytes()`. -/
def nameBytes (name : String) : List UInt8 := name.toByteArray.data.toList

/-- `DirEntry::name_str`: the stored bytes, or `""` when they are not UTF-8. -/
def DirEntry.name_str (e : DirEntry) : String :=
  let len := e.name_len.toNat
  (String.fromUTF8? ⟨(e.name.toList.take (min len 27)).toArray⟩).getD ""

/-- The entry that stores `name` for inode `ino`: the bytes of the name, zeros after
them. -/
def DirEntry.mk_named (ino : UInt32) (name : String) : DirEntry where
  inode := ino
  name_len := UInt8.ofNat (nameBytes name).length
  name := Vector.ofFn (fun i : Fin 27 => (nameBytes name).getD i.val 0)

/-- The 32 bytes of an entry. -/
def DirEntry.bytes (e : DirEntry) : List UInt8 :=
  u32Bytes e.inode ++ (e.name_len :: e.name.toList)

/-- The entry 32 bytes spell. -/
def DirEntry.ofBytes (bs : List UInt8) : DirEntry where
  inode := u32Of (bs.take 4)
  name_len := bs.getD 4 0
  name := Vector.ofFn (fun i : Fin 27 => bs.getD (5 + i.val) 0)

theorem DirEntry.length_bytes (e : DirEntry) : e.bytes.length = 32 := by
  simp [DirEntry.bytes]

theorem DirEntry.ofBytes_bytes (e : DirEntry) : DirEntry.ofBytes e.bytes = e := by
  have hname : Vector.ofFn (fun i : Fin 27 => e.bytes.getD (5 + i.val) 0) = e.name := by
    ext i hi
    rw [Vector.getElem_ofFn, DirEntry.bytes, List.getD_append_right _ _ _ _ (by simp; omega)]
    simp [show 5 + i - 4 = i + 1 by omega, hi]
  have hlen : e.bytes.getD 4 0 = e.name_len := by
    rw [DirEntry.bytes, List.getD_append_right _ _ _ _ (by simp)]
    simp
  have hino : u32Of (e.bytes.take 4) = e.inode := by
    rw [DirEntry.bytes, List.take_left' (by simp), u32Of_u32Bytes]
  rw [DirEntry.ofBytes, hname, hlen, hino]

theorem DirEntry.ofBytes_zero : DirEntry.ofBytes (List.replicate 32 0) = default := by decide

/-- A name of at most 27 bytes reads back from the entry that stores it. -/
theorem DirEntry.name_str_mk_named (ino : UInt32) (name : String)
    (h : (nameBytes name).length ≤ 27) : (DirEntry.mk_named ino name).name_str = name := by
  have hlen : (UInt8.ofNat (nameBytes name).length).toNat = (nameBytes name).length := by
    rw [UInt8.toNat_ofNat']
    omega
  have htake : (DirEntry.mk_named ino name).name.toList.take (nameBytes name).length
      = nameBytes name := by
    refine List.ext_getElem (by simp [h]) ?_
    intro i h1 h2
    simp [DirEntry.mk_named, h2]
  unfold DirEntry.name_str
  dsimp only
  rw [show (DirEntry.mk_named ino name).name_len = UInt8.ofNat (nameBytes name).length from rfl,
    hlen, Nat.min_eq_left h, htake]
  have harr : (⟨(nameBytes name).toArray⟩ : ByteArray) = name.toByteArray := by
    rw [nameBytes, Array.toArray_toList]
  rw [harr, String.fromUTF8?, dif_pos name.isValidUTF8]
  rfl

theorem DirEntry.length_name_str (e : DirEntry) : (nameBytes e.name_str).length ≤ 27 := by
  unfold DirEntry.name_str String.fromUTF8?
  dsimp only
  split
  · show (e.name.toList.take (min e.name_len.toNat 27)).length ≤ 27
    rw [List.length_take]
    omega
  · decide

@[simp] theorem DirEntry.inode_mk_named (ino : UInt32) (name : String) :
    (DirEntry.mk_named ino name).inode = ino := rfl

/-! ## Records inside a block -/

/-- Inode `k` of an inode-table block. -/
def Block.inode (p : Block) (k : ℕ) : Inode := Inode.ofBytes (p.read (k * 128) 128)

/-- The block with inode `k` replaced. -/
def Block.setInode (p : Block) (k : ℕ) (n : Inode) : Block := p.write (k * 128) n.bytes

/-- Entry `i` of a directory block. -/
def Block.entry (p : Block) (i : ℕ) : DirEntry :=
  DirEntry.ofBytes (p.read (i * DIR_ENTRY_SIZE) DIR_ENTRY_SIZE)

/-- The block with entry `i` replaced. -/
def Block.setEntry (p : Block) (i : ℕ) (e : DirEntry) : Block :=
  p.write (i * DIR_ENTRY_SIZE) e.bytes

/-- Pointer `i` of a pointer table. -/
def Block.ptr (p : Block) (i : ℕ) : UInt32 := u32Of (p.read (i * 4) 4)

/-- The table with pointer `i` replaced. -/
def Block.setPtr (p : Block) (i : ℕ) (b : UInt32) : Block := p.write (i * 4) (u32Bytes b)

theorem Block.inode_setInode_same (p : Block) {k : ℕ} (n : Inode) (hk : k < 32) :
    (Block.setInode p k n).inode k = n := by
  have h := Mem.read_write_same p (k * 128) n.bytes (by rw [n.length_bytes]; simp; omega)
  rw [n.length_bytes] at h
  rw [Block.inode, Block.setInode, h, Inode.ofBytes_bytes]

theorem Block.inode_setInode_ne (p : Block) {k k' : ℕ} (n : Inode) (h : k ≠ k') :
    (Block.setInode p k n).inode k' = Block.inode p k' := by
  rw [Block.inode, Block.inode, Block.setInode,
    Mem.read_write_disjoint _ _ _ _ _ (by rw [n.length_bytes]; omega)]

theorem Block.entry_setEntry_same (p : Block) {i : ℕ} (e : DirEntry) (hi : i < 128) :
    (Block.setEntry p i e).entry i = e := by
  have h := Mem.read_write_same p (i * 32) e.bytes (by rw [e.length_bytes]; simp; omega)
  rw [e.length_bytes] at h
  rw [Block.entry, Block.setEntry, h, DirEntry.ofBytes_bytes]

theorem Block.entry_setEntry_ne (p : Block) {i i' : ℕ} (e : DirEntry) (h : i ≠ i') :
    (Block.setEntry p i e).entry i' = Block.entry p i' := by
  rw [Block.entry, Block.entry, Block.setEntry,
    Mem.read_write_disjoint _ _ _ _ _ (by rw [e.length_bytes]; simp; omega)]

theorem Block.ptr_setPtr_same (p : Block) {i : ℕ} (b : UInt32) (hi : i < 1024) :
    (Block.setPtr p i b).ptr i = b := by
  have h := Mem.read_write_same p (i * 4) (u32Bytes b) (by simp; omega)
  rw [length_u32Bytes] at h
  rw [Block.ptr, Block.setPtr, h, u32Of_u32Bytes]

theorem Block.ptr_setPtr_ne (p : Block) {i i' : ℕ} (b : UInt32) (h : i ≠ i') :
    (Block.setPtr p i b).ptr i' = Block.ptr p i' := by
  rw [Block.ptr, Block.ptr, Block.setPtr,
    Mem.read_write_disjoint _ _ _ _ _ (by simp; omega)]

@[simp] theorem Block.ptr_zero (i : ℕ) : Block.ptr Mem.zero i = 0 := by
  rw [Block.ptr, Mem.read_zero, u32Of_replicate_zero]

@[simp] theorem Block.entry_zero (i : ℕ) : Block.entry Mem.zero i = default := by
  rw [Block.entry, Mem.read_zero]
  exact DirEntry.ofBytes_zero

theorem Inode.ofBytes_zero : Inode.ofBytes (List.replicate 128 0) = default := by decide

@[simp] theorem Block.inode_zero (k : ℕ) : Block.inode Mem.zero k = default := by
  rw [Block.inode, Mem.read_zero, Inode.ofBytes_zero]

end HepOS.HepFS
