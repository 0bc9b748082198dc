/-
Directories: the functions of `hepfs.rs` that read and write directory entries.

A directory keeps its entries in the blocks of its direct pointers, 128 to a block. Five
functions walk them the same way (`find_in_dir`, `remove`, `rename`, `move_entry`,
`add_dir_entry`): block by block, entry by entry, up to the first entry that passes a
test. `scan_dir` is that walk.

None of them except `list_dir` looks at `flags`: they take whatever the direct pointers
of the inode lead to for directory blocks.

A *place* is a block and an index in it. `places n` lists the places of an inode in the
order in which the walks visit them.
-/
import HepOS.HepFS.ReadFile

set_option autoImplicit false

namespace HepOS.HepFS

open Bytes Hoare Ledger List

variable {n : Inode} {buf : Block} {test : DirEntry → Bool}

/-! ## The functions -/

/-- The inner loop: the first entry of a block that passes the test. -/
def scan_block (buf : Block) (test : DirEntry → Bool) : Option ℕ :=
  (List.range ENTRIES_PER_BLK).find? (fun i => test (buf.entry i))

/-- The walk over the blocks of a directory. Returns the block and the index of the
entry, with the page the entry was found in. -/
def scan_dir (test : DirEntry → Bool) : List UInt32 → FsM (Option (UInt32 × Block × ℕ))
  | [] => pure none
  | blk :: rest => do
    let buf ← read_block blk.toNat
    match scan_block buf test with
    | some i => pure (some (blk, buf, i))
    | none => scan_dir test rest

/-- The direct pointers that are not zero. -/
def Inode.blocks (inode : Inode) : List UInt32 := inode.direct.toList.filter (· ≠ 0)

/-- The loop of `list_dir`. -/
def list_blocks : List UInt32 → List (UInt32 × String) → FsM (List (UInt32 × String))
  | [], out => pure out
  | blk :: rest, out => do
    let buf ← read_block blk.toNat
    list_blocks rest (out ++ (List.range ENTRIES_PER_BLK).filterMap (fun i =>
      if (buf.entry i).inode ≠ 0 then some ((buf.entry i).inode, (buf.entry i).name_str)
      else none))

section

variable (dir_ino : UInt32) (name : String)

def list_dir : FsM (List (UInt32 × String)) := do
  let inode ← read_inode dir_ino
  if inode.flags ≠ F_DIR then throw .not_a_directory
  else list_blocks inode.blocks []

/-- The test of `find_in_dir` and `rename`. -/
def DirEntry.named (e : DirEntry) : Bool := e.inode ≠ 0 ∧ e.name_str = name

def find_in_dir : FsM (Option UInt32) := do
  let inode ← read_inode dir_ino
  match ← scan_dir (DirEntry.named name) inode.blocks with
  | some (_, buf, i) => pure (some (buf.entry i).inode)
  | none => pure none

/-- The parts of a path: `path.split('/')` without the empty ones. -/
def path_parts (path : String) : List String :=
  ((path.toList.splitOn '/').filter (· ≠ [])).map String.ofList

/-- The loop of `lookup`. -/
def lookup_from (ino : UInt32) : List String → FsM (Option UInt32)
  | [] => pure (some ino)
  | part :: rest => do
    match ← find_in_dir ino part with
    | some ino => lookup_from ino rest
    | none => pure none

def lookup (path : String) : FsM (Option UInt32) := lookup_from ROOT_INO (path_parts path)

/-- A block of a directory, allocated and recorded in the inode on the disk if the
pointer is zero. -/
def ensure_dir_block (inode : Inode) (slot_blk : ℕ) (h : slot_blk < 12) :
    FsM Inode :=
  if inode.direct[slot_blk] = 0 then do
    let new_blk ← alloc_block
    let inode := { inode with
      direct := inode.direct.set slot_blk new_blk, nblocks := inode.nblocks + 1 }
    write_inode dir_ino inode
    pure inode
  else pure inode

/-- The loop of `add_dir_entry`. -/
def add_dir_entry_loop (dir_ino : UInt32) (name : String) (ino : UInt32) (inode : Inode)
    (slot_blk : ℕ) : FsM Unit :=
  if h : slot_blk < DIRECT_PTRS then do
    have hlt : slot_blk < 12 := h
    let inode ← ensure_dir_block dir_ino inode slot_blk hlt
    let blk := inode.direct[slot_blk]
    let buf ← read_block blk.toNat
    match scan_block buf (fun e => e.inode = 0) with
    | some i => do
      write_block blk.toNat (buf.setEntry i (DirEntry.mk_named ino name))
      write_inode dir_ino { inode with size := inode.size + UInt64.ofNat DIR_ENTRY_SIZE }
    | none => add_dir_entry_loop dir_ino name ino inode (slot_blk + 1)
  else throw .directory_full
termination_by DIRECT_PTRS - slot_blk
decreasing_by simp only [DIRECT_PTRS] at h ⊢; omega

def add_dir_entry (ino : UInt32) : FsM Unit := do
  let inode ← read_inode dir_ino
  if (nameBytes name).length ≤ 27 then add_dir_entry_loop dir_ino name ino inode 0
  else throw .filename_too_long

end

/-! ## Places -/

/-- The places of a list of blocks, in the order of the walks. -/
def placesOf (blks : List UInt32) : List (ℕ × ℕ) :=
  blks.flatMap fun b => (List.range 128).map fun i => (b.toNat, i)

/-- The places of the entries of a directory. -/
def places (n : Inode) : List (ℕ × ℕ) := placesOf n.blocks

theorem places_congr {n' : Inode} (h : n'.direct = n.direct) : places n' = places n := by
  rw [places, places, Inode.blocks, Inode.blocks, h]

/-- The entry at a place. -/
def entryAt (D : Disk) (q : ℕ × ℕ) : DirEntry := (D q.1).entry q.2

theorem placesOf_cons (b : UInt32) (rest : List UInt32) : placesOf (b :: rest)
    = ((List.range 128).map fun i => (b.toNat, i)) ++ placesOf rest := flatMap_cons

theorem mem_placesOf {blks : List UInt32} {q : ℕ × ℕ} :
    q ∈ placesOf blks ↔ q.2 < 128 ∧ ∃ b ∈ blks, b.toNat = q.1 := by
  rw [placesOf, mem_flatMap]
  constructor
  · rintro ⟨b, hb, hq⟩
    obtain ⟨i, hi, rfl⟩ := mem_map.mp hq
    exact ⟨mem_range.mp hi, b, hb, rfl⟩
  · rintro ⟨hi, b, hb, hbq⟩
    exact ⟨b, hb, mem_map.mpr ⟨q.2, mem_range.mpr hi, by rw [hbq]⟩⟩

theorem mem_blocks {b : UInt32} : b ∈ n.blocks ↔ b ≠ 0 ∧ ∃ (j : ℕ) (hj : j < 12),
    n.direct[j] = b := by
  rw [Inode.blocks, mem_filter]
  constructor
  · rintro ⟨hmem, hne⟩
    obtain ⟨j, hj, heq⟩ := getElem_of_mem hmem
    rw [Vector.length_toList] at hj
    exact ⟨by simpa using hne, j, hj, heq⟩
  · rintro ⟨hne, j, hj, rfl⟩
    exact ⟨by simp, by simpa using hne⟩

theorem mem_places {D : Disk} {q : ℕ × ℕ} :
    q ∈ places n ↔ q.2 < 128 ∧ q.1 ≠ 0 ∧ ∃ j < 12, slotOf D n (.data j) = q.1 := by
  rw [places, mem_placesOf]
  refine and_congr_right fun _ => ?_
  constructor
  · rintro ⟨b, hb, hbq⟩
    obtain ⟨hne, j, hj, hjb⟩ := mem_blocks.mp hb
    refine ⟨?_, j, hj, ?_⟩
    · rw [← hbq]
      exact toNat_ne_zero.mpr hne
    · rw [slotOf_data_direct _ _ hj, hjb, hbq]
  · rintro ⟨hne, j, hj, hslot⟩
    rw [slotOf_data_direct _ _ hj] at hslot
    refine ⟨n.direct[j], mem_blocks.mpr ⟨?_, j, hj, rfl⟩, hslot⟩
    rw [← toNat_ne_zero, hslot]
    exact hne

/-! ## The walks -/

theorem scan_block_some {i : ℕ} (h : scan_block buf test = some i) :
    i < 128 ∧ test (buf.entry i) = true := by
  have htest := List.find?_some h
  exact ⟨mem_range.mp (mem_of_find?_eq_some h), htest⟩

theorem scan_block_none (h : scan_block buf test = none)
    {i : ℕ} (hi : i < 128) : test (buf.entry i) = false := by
  rw [scan_block, List.find?_eq_none] at h
  simpa using h i (mem_range.mpr hi)

theorem scan_block_zero (h : test (buf.entry 0) = true) : scan_block buf test = some 0 := by
  rw [scan_block, show List.range ENTRIES_PER_BLK = 0 :: List.range' 1 127 from rfl,
    List.find?_cons_of_pos (p := fun i => test (buf.entry i)) h]

attribute [irreducible] scan_block

/-- What a walk finds: an entry of one of the blocks that passes the test, or none if no
entry does. -/
def ScanResult (D : Disk) (test : DirEntry → Bool) (blks : List UInt32) :
    Option (UInt32 × Block × ℕ) → Prop
  | none => ∀ q ∈ placesOf blks, test (entryAt D q) = false
  | some (blk, buf, i) => (blk.toNat, i) ∈ placesOf blks ∧ buf = D blk.toNat
      ∧ test (entryAt D (blk.toNat, i)) = true

theorem scan_dir_spec (test : DirEntry → Bool) (blks : List UInt32) : ∀ (s : Fs),
    (∀ b ∈ blks, s.geom.serves b.toNat) →
    ∃ r s', scan_dir test blks s = .ok r s' ∧ s.To s' s.blk ∧ ScanResult s.blk test blks r := by
  induction blks with
  | nil =>
    intro s _
    exact ⟨none, s, rfl, Fs.To.rfl s, fun q hq => absurd hq (by simp [placesOf])⟩
  | cons b rest ih =>
    intro s hholds
    obtain ⟨s1, hr, ht1⟩ := read_block_spec s (hholds b (by simp))
    rw [scan_dir, bind_of_ok hr]
    have hsplit : ∀ q, q ∈ placesOf (b :: rest)
        ↔ (q.2 < 128 ∧ b.toNat = q.1) ∨ q ∈ placesOf rest := by
      intro q
      rw [mem_placesOf, mem_placesOf]
      simp only [mem_cons, exists_eq_or_imp, and_or_left]
    cases hscan : scan_block (s.blk b.toNat) test with
    | some i =>
      obtain ⟨hi, htest⟩ := scan_block_some hscan
      exact ⟨some (b, s.blk b.toNat, i), s1, rfl, ht1,
        (hsplit _).mpr (.inl ⟨hi, rfl⟩), rfl, htest⟩
    | none =>
      obtain ⟨r, s2, hrest, ht2, hres⟩ := ih s1 (by
        intro b' hb'
        rw [ht1.geom]
        exact hholds b' (by simp [hb']))
      rw [ht1.blk] at ht2 hres
      refine ⟨r, s2, hrest, ht1.trans ht2, ?_⟩
      cases r with
      | none =>
        intro q hq
        rcases (hsplit q).mp hq with ⟨hi, hbq⟩ | hq'
        · rw [entryAt, ← hbq]
          exact scan_block_none hscan hi
        · exact hres q hq'
      | some r =>
        exact ⟨(hsplit _).mpr (.inr hres.1), hres.2⟩

theorem list_blocks_spec (blks : List UInt32) : ∀ (out : List (UInt32 × String)) (s : Fs),
    (∀ b ∈ blks, s.geom.serves b.toNat) →
    ∃ s', list_blocks blks out s = .ok (out ++ (placesOf blks).filterMap (fun q =>
        if (entryAt s.blk q).inode ≠ 0
        then some ((entryAt s.blk q).inode, (entryAt s.blk q).name_str) else none)) s'
            ∧ s.To s' s.blk := by
  induction blks with
  | nil =>
    intro out s _
    exact ⟨s, by simp [list_blocks, placesOf], Fs.To.rfl s⟩
  | cons b rest ih =>
    intro out s hholds
    obtain ⟨s1, hr, ht1⟩ := read_block_spec s (hholds b (by simp))
    rw [list_blocks, bind_of_ok hr]
    obtain ⟨s2, hrest, ht2⟩ := ih (out ++ (List.range ENTRIES_PER_BLK).filterMap (fun i =>
      if ((s.blk b.toNat).entry i).inode ≠ 0
      then some (((s.blk b.toNat).entry i).inode, ((s.blk b.toNat).entry i).name_str)
      else none)) s1 (by
        intro b' hb'
        rw [ht1.geom]
        exact hholds b' (by simp [hb']))
    rw [ht1.blk] at hrest ht2
    refine ⟨s2, ?_, ht1.trans ht2⟩
    rw [hrest, placesOf_cons, filterMap_append, append_assoc, filterMap_map]
    rfl

end HepOS.HepFS
