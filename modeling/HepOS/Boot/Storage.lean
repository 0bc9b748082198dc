/-
The storage phase of boot (`kmain` in `main.rs`): a test of the NVMe controller, the probe for
a file system, and the default directories and files.

The test writes `0xAB` over the first sector and reads it back. That sector is the start of the
superblock, so the magic number is gone when `probe` looks for it: `format` runs at every
boot. What is on the disk afterwards is the tree of the default files, whatever was there
before. The files and directories of earlier runs are all still there only if there were none
but the default ones.
-/
import HepOS.HepFS.Nodes

set_option autoImplicit false

namespace HepOS.Boot

open Bytes Hoare HepFS Trace List Option

variable {d j k : ℕ} {parts : List String}

/-! ## The code -/

/-- `write_bytes(virt, 0xAB, 512)`, `write_blocks(0, 1, phys)`, and back. `garbage` is what the page
held: the allocator does not clear it. -/
def smoke_test (garbage : Block) : FsM Bool := do
  let s ← get
  if s.HasPage then set { s with pages := s.pages + 1 } else throw .unwrap_none
  let s ← get
  let page := garbage.write 0 (List.replicate 512 0xAB)
  let block := (s.blk 0).write 0 (page.read 0 s.geom.lba_size)
  if 1 ≤ s.geom.lba_count then do
    set { s with blk := s.blk.put 0 block }
    let page := (page.write 0 (List.replicate 512 0x00)).write 0 (block.read 0 s.geom.lba_size)
    pure (page.byte 0 = 0xAB)
  else throw .nvme_write

def format_unless (found : Bool) : FsM Unit := if found then pure () else format

/-- `unwrap` -/
def unwrap {α : Type} : Option α → FsM α
  | some a => pure a
  | none => throw .unwrap_none

/-- `/home/desktop`, made once. -/
def ensure_desktop (home : UInt32) : FsM Unit := do
  match ← lookup "/home/desktop" with
  | some _ => pure ()
  | none => do
    let _desktop ← create_dir home "desktop"
    pure ()

/-- A default file in the root directory, made once. -/
def default_file (path name : String) (data : List UInt8) : FsM Unit := do
  match ← lookup path with
  | some _ => pure ()
  | none => do
    let ino ← create_file ROOT_INO name
    write_file ino data

def hello_txt : List UInt8 := nameBytes "Hello from HepOS!\n"

def kernel_txt (date : String) : List UInt8 :=
  nameBytes ("HepOS v0.1 | " ++ date ++ " | x86_64 exokernel\n")

/-- A picture of 64 by 64 pixels, in squares of 8. -/
def make_demo_bmp : List UInt8 :=
  [0x42, 0x4D] ++ leBytes 4 12342 ++ leBytes 4 0 ++ leBytes 4 54
    ++ leBytes 4 40 ++ leBytes 4 64 ++ leBytes 4 64 ++ leBytes 2 1 ++ leBytes 2 24
    ++ List.replicate 24 0
    ++ (List.range 64).flatMap fun row => (List.range 64).flatMap fun col =>
      if (row / 8 + col / 8) % 2 = 0 then [0xFF, 0x8E, 0x6C] else [0x1E, 0x14, 0x14]

/-- Half a second of a square wave, 24000 samples for each of two channels. -/
def make_demo_wav : List UInt8 :=
  nameBytes "RIFF" ++ leBytes 4 96036 ++ nameBytes "WAVE" ++ nameBytes "fmt " ++ leBytes 4 16
    ++ leBytes 2 1 ++ leBytes 2 2 ++ leBytes 4 48000 ++ leBytes 4 192000 ++ leBytes 2 4
    ++ leBytes 2 16 ++ nameBytes "data" ++ leBytes 4 96000
    ++ (List.range 24000).flatMap fun i =>
      if i % 109 < 54 then [0x00, 0x40, 0x00, 0x40] else [0x00, 0xC0, 0x00, 0xC0]

/-- The type of every entry is looked up for its icon. -/
def stat_all : List (UInt32 × String) → FsM Unit
  | [] => pure ()
  | (ino, _) :: rest => do
    let _stat ← stat ino
    stat_all rest

def refresh_desktop_icons : FsM Unit := do
  match ← lookup "/home/desktop" with
  | none => pure ()
  | some dir_ino => do
    let entries ← list_dir dir_ino
    stat_all entries

/-- The storage phase. -/
def storage (garbage : Block) (date : String) : FsM Unit := do
  let _ok ← smoke_test garbage
  let found ← probe
  format_unless found
  let _home ← create_dir ROOT_INO "home"
  let _etc ← create_dir ROOT_INO "etc"
  let home ← unwrap (← lookup "/home")
  ensure_desktop home
  let fno ← create_file home "hello.txt"
  write_file fno hello_txt
  let _data ← read_file fno
  let _entries ← list_dir ROOT_INO
  default_file "/kernel.txt" "kernel.txt" (kernel_txt date)
  default_file "/demo.bmp" "demo.bmp" make_demo_bmp
  default_file "/demo.wav" "demo.wav" make_demo_wav
  refresh_desktop_icons

/-! ## What is there before and after -/

/-- The paths of the directories boot makes, and of the files it writes. -/
def default_dirs : List (List String) := [[], ["home"], ["etc"], ["home", "desktop"]]

def default_files : List (List String) :=
  [["home", "hello.txt"], ["kernel.txt"], ["demo.bmp"], ["demo.wav"]]

/-- Everything that was there is still there, at the same path and with the same content, but for
the default files. -/
def Persists (v w : View) : Prop :=
  ∀ parts i, v.Leads 0 parts i → parts ∉ default_files →
    ∃ j, w.Leads 0 parts j ∧ w.flags j = v.flags i ∧ (v.flags i = F_FILE → w.bytes j = v.bytes i)

/-- There is nothing but default directories and files. -/
def OnlyDefaults (v : View) : Prop :=
  ∀ parts i, v.Leads 0 parts i → parts ∈ default_files ∨ (parts ∈ default_dirs ∧ v.flags i = F_DIR)

/-- The tree boot leaves behind. -/
def default_nodes : List Node :=
  [⟨0, F_DIR, "home"⟩, ⟨0, F_DIR, "etc"⟩, ⟨1, F_DIR, "desktop"⟩, ⟨1, F_FILE, "hello.txt"⟩,
    ⟨0, F_FILE, "kernel.txt"⟩, ⟨0, F_FILE, "demo.bmp"⟩, ⟨0, F_FILE, "demo.wav"⟩]

theorem unique_default_nodes : Unique default_nodes := by decide

theorem child_default_nodes {i : ℕ} {name : String} (h : child default_nodes d name = some i) :
    (d = 0 ∧ (name = "home" ∧ i = 1 ∨ name = "etc" ∧ i = 2 ∨ name = "kernel.txt" ∧ i = 5
        ∨ name = "demo.bmp" ∧ i = 6 ∨ name = "demo.wav" ∧ i = 7))
      ∨ (d = 1 ∧ (name = "desktop" ∧ i = 3 ∨ name = "hello.txt" ∧ i = 4)) := by
  obtain ⟨k, hk, rfl⟩ := map_eq_some_iff.mp h
  obtain ⟨hlt, hget, -⟩ := List.findIdx?_eq_some_iff_getElem.mp hk
  have hlt' : k < 7 := hlt
  obtain ⟨rfl, rfl⟩ := of_decide_eq_true hget
  interval_cases k
  all_goals simp [default_nodes]

/-- Only the root and `/home` have entries. -/
theorem walk_leaf (hd : d ≠ 0 ∧ d ≠ 1) (h : walk default_nodes d parts = some j) :
    parts = [] ∧ j = d := by
  cases parts with
  | nil => exact ⟨rfl, (Option.some.inj h).symm⟩
  | cons name rest =>
    unfold walk at h
    split at h
    · obtain ⟨i, hi, -⟩ := bind_eq_some_iff.mp h
      rcases child_default_nodes hi with ⟨hd', -⟩ | ⟨hd', -⟩
      · exact absurd hd' hd.1
      · exact absurd hd' hd.2
    · simp at h

/-- **The paths of the tree** are the default ones. -/
theorem walk_default_nodes (h : walk default_nodes 0 parts = some j) :
    (parts ∈ default_dirs ∧ kindOf default_nodes j = F_DIR)
      ∨ (parts ∈ default_files ∧ kindOf default_nodes j = F_FILE) := by
  cases parts with
  | nil =>
    cases h
    exact .inl (by decide)
  | cons name rest =>
    obtain ⟨i, hi, hrest⟩ := bind_eq_some_iff.mp h
    rcases child_default_nodes hi with ⟨-, hname⟩ | ⟨hno, -⟩
    · rcases hname with ⟨rfl, rfl⟩ | ⟨rfl, rfl⟩ | ⟨rfl, rfl⟩ | ⟨rfl, rfl⟩ | ⟨rfl, rfl⟩
      · -- below `/home`
        cases rest with
        | nil =>
          cases hrest
          exact .inl (by decide)
        | cons name rest =>
          obtain ⟨i, hi, hrest⟩ := bind_eq_some_iff.mp hrest
          rcases child_default_nodes hi with ⟨hno, -⟩ | ⟨-, ⟨rfl, rfl⟩ | ⟨rfl, rfl⟩⟩
          · exact absurd hno (by decide)
          · obtain ⟨rfl, rfl⟩ := walk_leaf (by decide) hrest
            exact .inl (by decide)
          · obtain ⟨rfl, rfl⟩ := walk_leaf (by decide) hrest
            exact .inr (by decide)
      · obtain ⟨rfl, rfl⟩ := walk_leaf (by decide) hrest
        exact .inl (by decide)
      all_goals
        obtain ⟨rfl, rfl⟩ := walk_leaf (by decide) hrest
        exact .inr (by decide)
    · exact absurd hno (by decide)

theorem exists_walk_of_default_dir (h : parts ∈ default_dirs) :
    ∃ j, walk default_nodes 0 parts = some j := by
  unfold default_dirs at h
  simp only [mem_cons, not_mem_nil, or_false] at h
  rcases h with rfl | rfl | rfl | rfl
  · exact ⟨0, by decide⟩
  · exact ⟨1, by decide⟩
  · exact ⟨2, by decide⟩
  · exact ⟨3, by decide⟩

/-- **What survives a boot** that leaves the default tree. -/
theorem persists_iff {v w : View} (h : Shows w default_nodes) : Persists v w ↔ OnlyDefaults v := by
  constructor
  · intro hp parts i hleads
    by_cases hfile : parts ∈ default_files
    · exact .inl hfile
    · obtain ⟨j, hj, hflags, -⟩ := hp parts i hleads hfile
      rw [h.leads_iff unique_default_nodes] at hj
      rcases walk_default_nodes hj with ⟨hdir, hkind⟩ | ⟨hfile', -⟩
      · exact .inr ⟨hdir, by rw [← hflags, h.flags]; exact hkind⟩
      · exact absurd hfile' hfile
  · intro hd parts i hleads hfile
    rcases hd parts i hleads with hfile' | ⟨hdir, hflags⟩
    · exact absurd hfile' hfile
    · obtain ⟨j, hj⟩ := exists_walk_of_default_dir hdir
      have hkind : kindOf default_nodes j = F_DIR := by
        rcases walk_default_nodes hj with ⟨-, hkind⟩ | ⟨hfile', -⟩
        · exact hkind
        · exact absurd hfile' hfile
      refine ⟨j, (h.leads_iff unique_default_nodes _ _ _).mpr hj, ?_, ?_⟩
      · rw [h.flags, hkind, hflags]
      · intro hno
        rw [hflags] at hno
        exact absurd hno (by decide)

/-! ## The run -/

/-- A good disk that shows a tree and has room left. -/
structure At (s : Fs) (nodes : List Node) (room : ℕ) : Prop where
  covers : s.geom.covers
  inv : HepFS.Inv s.blk
  shows : Shows (view s.blk) nodes
  kinds : ∀ n ∈ nodes, n.kind ≠ F_FREE
  room : room ≤ freeCount s.blk

section

variable {s : Fs} {nodes : List Node} {room : ℕ}

theorem At.kindAt (h : At s nodes room) (i : ℕ) : HepFS.kindAt s.blk i = kindOf nodes i := by
  rw [← view_flags, h.shows.flags]

theorem At.to (h : At s nodes room) {t : Fs} (ht : s.To t s.blk) : At t nodes room := by
  obtain ⟨hc, I, hshows, hkinds, hroom⟩ := h
  exact ⟨hc.of_eq ht.geom, by rw [ht.blk]; exact I, by rw [ht.blk]; exact hshows, hkinds,
    by rw [ht.blk]; exact hroom⟩

theorem At.fewer (h : At s nodes room) (hk : k ≤ room) : At s nodes k :=
  ⟨h.covers, h.inv, h.shows, h.kinds, hk.trans h.room⟩

theorem kindOf_ne_free (hkinds : ∀ n ∈ nodes, n.kind ≠ F_FREE) (hj : j < nodes.length + 1) :
    kindOf nodes j ≠ F_FREE := by
  unfold kindOf
  by_cases h0 : j = 0
  · rw [if_pos h0]
    decide
  · rw [if_neg h0, List.getElem?_eq_getElem (show j - 1 < nodes.length by omega)]
    exact hkinds _ (getElem_mem _)

theorem kindOf_next : kindOf nodes (nodes.length + 1) = F_FREE := by
  unfold kindOf
  rw [if_neg (by omega), Nat.add_sub_cancel, List.getElem?_eq_none (le_rfl)]
  rfl

theorem At.created (h : At s nodes (room + 2)) {s' : Fs} {parent ino kind : UInt32} {name : String}
    {q : ℕ × ℕ} (hlen : nodes.length + 1 < 1024) (hkind : kind ≠ F_FREE) (hb : s.Bumped s')
    (hcreated : Created s.blk ino.toNat kind parent.toNat name q s'.blk) :
    ino = UInt32.ofNat (nodes.length + 1)
      ∧ At s' (nodes ++ [⟨parent.toNat, kind, name⟩]) room := by
  have hnat : (UInt32.ofNat (nodes.length + 1)).toNat = nodes.length + 1 := by
    rw [UInt32.toNat_ofNat']
    omega
  have hino : ino = UInt32.ofNat (nodes.length + 1) := by
    refine hcreated.ino_eq h.inv ?_ ?_
    · intro j hj
      rw [hnat] at hj
      rw [h.kindAt]
      exact kindOf_ne_free h.kinds hj
    · rw [hnat, h.kindAt]
      exact kindOf_next
  refine ⟨hino, h.covers.of_eq hb.geom, hcreated.inv, ?_, ?_, ?_⟩
  · have hview := hcreated.view_eq
    rw [hino, hnat] at hview
    rw [hview]
    exact h.shows.create hcreated.empty
  · intro n hn
    rcases mem_append.mp hn with hn | hn
    · exact h.kinds n hn
    · obtain rfl := mem_singleton.mp hn
      exact hkind
  · have := hcreated.count
    have := h.room
    omega

theorem At.create {kind : UInt32} {create : UInt32 → String → FsM UInt32}
    (h : At s nodes (room + 2)) (hcreates : Creates kind create) (parent : UInt32) (name : String)
    (hd : kindOf nodes parent.toNat = F_DIR) (hname : (nameBytes name).length ≤ 27)
    (hlen : nodes.length + 1 < 1024) :
    ∃ s', create parent name s = .ok (UInt32.ofNat (nodes.length + 1)) s'
      ∧ At s' (nodes ++ [⟨parent.toNat, kind, name⟩]) room := by
  have hroom := h.room
  obtain ⟨ino, s', hrun, hb, q, hcreated⟩ := hcreates.returns s h.covers h.inv parent name
    (by rw [h.kindAt]; exact hd) hname hlen (by rw [h.kindAt]; exact kindOf_next) (by omega)
  obtain ⟨rfl, hat⟩ := h.created hlen (by cases hcreates <;> decide) hb hcreated
  exact ⟨s', hrun, hat⟩

theorem need_le (D : Disk) (n : Inode) (hk : k ≤ 1036) : need D n k ≤ k + 1 := by
  refine countP_le_length.trans ?_
  unfold slotsFor
  rw [if_neg (show ¬ 1036 < k by omega), show (k - 1036 + 1023) / 1024 = 0 by omega]
  rw [length_append, length_map, length_range]
  split_ifs with h12
  · exact le_rfl
  · exact Nat.le_succ _

theorem At.write_file {blocks : ℕ} (h : At s nodes (room + blocks + 1)) (ino : UInt32)
    (data : List UInt8) (hf : kindOf nodes ino.toNat = F_FILE)
    (hblocks : blocksFor data.length ≤ blocks) (hmax : blocks ≤ 1036) :
    ∃ s', HepFS.write_file ino data s = .ok () s' ∧ At s' nodes room := by
  have hfile : HepFS.kindAt s.blk ino.toNat = F_FILE := by rw [h.kindAt]; exact hf
  have hneed := need_le s.blk (inodeAt s.blk ino.toNat)
    (show blocksFor data.length ≤ 1036 by omega)
  have hroom := h.room
  obtain ⟨s', hrun, ht, hwrote⟩ :=
    write_file_returns s h.covers ino data (h.inv.target hfile) (by omega)
    (by omega)
  refine ⟨s', hrun, h.covers.of_eq ht.geom, h.inv.write hwrote hfile, ?_, h.kinds, ?_⟩
  · rw [hwrote.view h.inv.acc hfile]
    exact h.shows.write _ _
  · have := hwrote.count
    omega

theorem At.lookup (h : At s nodes room) (hu : Unique nodes) (path : String)
    (hs : searches nodes 0 (path_parts path) = true) : ∃ r t, HepFS.lookup path s = .ok r t
      ∧ At t nodes room
      ∧ walk nodes 0 (path_parts path) = r.map UInt32.toNat := by
  obtain ⟨r, t, hrun, ht, hwalk⟩ := lookup_of_shows h.covers h.inv h.shows hu path hs
  exact ⟨r, t, hrun, h.to ht, hwalk⟩

theorem At.default_file {blocks : ℕ} (h : At s nodes (room + blocks + 3)) (path name : String)
    (data : List UInt8) (hu : Unique nodes)
    (hs : searches nodes 0 (path_parts path) = true) (hno : walk nodes 0 (path_parts path) = none)
    (hname : (nameBytes name).length ≤ 27) (hlen : nodes.length + 1 < 1024)
    (hblocks : blocksFor data.length ≤ blocks) (hmax : blocks ≤ 1036) :
    ∃ s', Boot.default_file path name data s = .ok () s'
      ∧ At s' (nodes ++ [⟨0, F_FILE, name⟩]) room := by
  obtain ⟨r, s1, hlook, h1, hwalk⟩ := h.lookup hu path hs
  rw [hno] at hwalk
  obtain rfl := map_eq_none_iff.mp hwalk.symm
  have h1' : At s1 nodes (room + blocks + 1 + 2) := h1
  have hroot : kindOf nodes ROOT_INO.toNat = F_DIR := if_pos rfl
  obtain ⟨s2, hcreate, h2⟩ := h1'.create .file ROOT_INO name hroot hname hlen
  have hnew : kindOf (nodes ++ [⟨ROOT_INO.toNat, F_FILE, name⟩])
    (UInt32.ofNat (nodes.length + 1)).toNat
      = F_FILE := by
    rw [UInt32.toNat_ofNat', Nat.mod_eq_of_lt (by omega), kindOf_append, if_pos rfl]
  obtain ⟨s3, hwrite, h3⟩ := h2.write_file _ data hnew hblocks hmax
  refine ⟨s3, ?_, h3⟩
  unfold Boot.default_file
  rw [bind_of_ok hlook]
  dsimp only
  rw [bind_of_ok hcreate]
  exact hwrite

theorem At.ensure_desktop (h : At s nodes (room + 2)) (hu : Unique nodes) (home : UInt32)
    (hhome : kindOf nodes home.toNat = F_DIR) (hlen : nodes.length + 1 < 1024)
    (hs : searches nodes 0 (path_parts "/home/desktop") = true)
    (hno : walk nodes 0 (path_parts "/home/desktop") = none) :
    ∃ s', Boot.ensure_desktop home s = .ok () s'
      ∧ At s' (nodes ++ [⟨home.toNat, F_DIR, "desktop"⟩]) room := by
  obtain ⟨r, s1, hlook, h1, hwalk⟩ := h.lookup hu _ hs
  rw [hno] at hwalk
  obtain rfl := map_eq_none_iff.mp hwalk.symm
  obtain ⟨s2, hcreate, h2⟩ := h1.create .dir home "desktop" hhome (by decide) hlen
  refine ⟨s2, ?_, h2⟩
  unfold Boot.ensure_desktop
  rw [bind_of_ok hlook]
  dsimp only
  rw [bind_of_ok hcreate]
  rfl

theorem At.read_file (h : At s nodes room) (ino : UInt32) (hf : kindOf nodes ino.toNat = F_FILE) :
    ∃ data t, HepFS.read_file ino s = .ok data t ∧ At t nodes room := by
  obtain ⟨t, hrun, ht⟩ := read_file_spec s h.covers ino (h.inv.target (by rw [h.kindAt]; exact hf))
  exact ⟨_, t, hrun, h.to ht⟩

theorem At.list_dir (h : At s nodes room) (ino : UInt32) (hd : kindOf nodes ino.toNat = F_DIR) :
    ∃ t, HepFS.list_dir ino s = .ok (listing s.blk (inodeAt s.blk ino.toNat)) t
      ∧ At t nodes room := by
  obtain ⟨t, hrun, ht⟩ := list_dir_spec s h.covers h.inv.acc ino (by rw [h.kindAt]; exact hd)
  exact ⟨t, hrun, h.to ht⟩

theorem At.listing_nil (h : At s nodes room) (hd : kindOf nodes d = F_DIR)
    (hno : ∀ n ∈ nodes, n.dir ≠ d) : listing s.blk (inodeAt s.blk d) = [] := by
  refine eq_nil_iff_forall_not_mem.mpr ?_
  rintro ⟨ino, name⟩ hmem
  have hentry := (mem_listing (by rw [h.kindAt]; exact hd)).mp hmem
  obtain ⟨-, n, hn, hdir, -⟩ := (h.shows.entries _ _ _).mp hentry
  exact hno n (mem_of_getElem? hn) hdir

end

/-- **The test of the controller** leaves its pattern in the superblock. -/
theorem smoke_test_spec (garbage : Block) (s : Fs) (hc : s.geom.covers) :
    ∃ s', smoke_test garbage s = .ok true s' ∧ s'.geom = s.geom ∧ (s'.blk 0).byte 0 = 0xAB := by
  have hsize : 0 < s.geom.lba_size := Nat.pos_of_dvd_of_pos s.geom.lba_size_dvd (by decide)
  have hcount : 1 ≤ s.geom.lba_count := by
    refine Nat.pos_of_ne_zero ?_
    intro h0
    have hblocks := hc.1
    rw [Geometry.total_blocks, h0, Nat.zero_mul] at hblocks
    exact absurd hblocks (by decide)
  -- the first byte a sector of a page moves is the page's first byte
  have hmoved : ∀ (to_page from_page : Block),
      (to_page.write 0 (from_page.read 0 s.geom.lba_size)).byte 0 = from_page.byte 0 := by
    intro to_page from_page
    rw [Mem.byte_write _ _ _ (by decide), Mem.length_read, if_pos ⟨le_rfl, by omega⟩]
    unfold Mem.read
    rw [getD_eq_getElem _ _ (by simpa using hsize), getElem_map, getElem_range]
  have hpattern : (garbage.write 0 (List.replicate 512 0xAB)).byte 0 = 0xAB := by
    rw [Mem.byte_write _ _ _ (by decide), length_replicate, if_pos (by decide),
      getD_replicate _ (by decide)]
  unfold smoke_test
  generalize garbage.write 0 (List.replicate 512 0xAB) = page at hpattern
  refine ⟨{ s with
      pages := s.pages + 1, blk := s.blk.put 0 ((s.blk 0).write 0 (page.read 0 s.geom.lba_size)) },
    ?_, rfl, ?_⟩
  · rw [bind_of_ok (show (get : FsM Fs) s = .ok _ _ from Eq.refl _), if_pos (hasPage_of_none hc.2),
      bind_of_ok (show (set _ : FsM PUnit) s = .ok _ _ from Eq.refl _)]
    dsimp only
    rw [bind_of_ok (show (get : FsM Fs) _ = .ok _ _ from Eq.refl _)]
    rw [if_pos hcount, bind_of_ok (show (set _ : FsM PUnit) _ = .ok _ _ from Eq.refl _),
      hmoved, hmoved, hpattern]
    exact Eq.refl _
  · dsimp only
    rw [Disk.put_same, hmoved]
    exact hpattern

/-- **`probe` finds no file system** after it. -/
theorem probe_after_test (s : Fs) (hc : s.geom.covers) (h : (s.blk 0).byte 0 = 0xAB) :
    ∃ s', probe s = .ok false s' ∧ s.To s' s.blk := by
  obtain ⟨s', hread, ht⟩ := read_block_spec s (hc.holds (show 0 < 131072 by decide))
  refine ⟨s', ?_, ht⟩
  unfold probe
  rw [bind_of_ok hread]
  have hbytes : (s.blk SB_BLOCK).read 0 8 = 0xAB :: (s.blk SB_BLOCK).read 1 7 := by
    rw [← h]
    rfl
  have hmagic : leNat ((s.blk SB_BLOCK).read 0 8) ≠ MAGIC := by
    rw [hbytes]
    unfold leNat
    have hmark : (0xAB : UInt8).toNat = 171 := rfl
    simp only [MAGIC]
    omega
  rw [decide_eq_false hmagic]
  rfl

theorem length_flatMap_eq {α β : Type} (l : List α) {f : α → List β}
    (h : ∀ a, (f a).length = k) : (l.flatMap f).length = l.length * k := by
  simp [h]

theorem length_make_demo_bmp : make_demo_bmp.length = 12342 := by
  have hpixel : ∀ row col : ℕ, (if (row / 8 + col / 8) % 2 = 0 then [0xFF, 0x8E, 0x6C]
      else [0x1E, 0x14, 0x14] : List UInt8).length = 3 := by
    intro row col
    split
    · rfl
    · rfl
  have hrow : ∀ row : ℕ, ((List.range 64).flatMap fun col =>
      (if (row / 8 + col / 8) % 2 = 0 then [0xFF, 0x8E, 0x6C]
        else [0x1E, 0x14, 0x14] : List UInt8)).length
        = 64 * 3 := by
    intro row
    rw [length_flatMap_eq _ (hpixel row), length_range]
  unfold make_demo_bmp
  rw [length_append, length_flatMap_eq _ hrow, length_range]
  rfl

theorem length_make_demo_wav : make_demo_wav.length = 96044 := by
  have hsample : ∀ i : ℕ, (if i % 109 < 54 then [0x00, 0x40, 0x00, 0x40]
      else [0x00, 0xC0, 0x00, 0xC0] : List UInt8).length = 4 := by
    intro i
    split
    · rfl
    · rfl
  unfold make_demo_wav
  rw [length_append, length_flatMap_eq _ hsample, length_range]
  rfl

theorem nameBytes_append (a b : String) : nameBytes (a ++ b) = nameBytes a ++ nameBytes b := by
  unfold nameBytes
  simp

theorem length_kernel_txt {date : String} (h : (nameBytes date).length ≤ 10) :
    (kernel_txt date).length ≤ 4096 := by
  have hhead : (nameBytes "HepOS v0.1 | ").length = 13 := by decide
  have htail : (nameBytes " | x86_64 exokernel\n").length = 20 := by decide
  unfold kernel_txt
  rw [nameBytes_append, nameBytes_append, length_append, length_append]
  omega

/-- The icons of an empty desktop. -/
theorem At.refresh_desktop_icons {s : Fs} {room : ℕ} (h : At s default_nodes room) :
    ∃ s', Boot.refresh_desktop_icons s = .ok () s' ∧ At s' default_nodes room := by
  obtain ⟨r, s1, hlook, h1, hwalk⟩ := h.lookup unique_default_nodes "/home/desktop" (by decide)
  have hthree : walk default_nodes 0 (path_parts "/home/desktop") = some 3 := by decide
  obtain ⟨ino, rfl, hino⟩ := map_eq_some_iff.mp (hwalk.symm.trans hthree)
  have hdir : kindOf default_nodes ino.toNat = F_DIR := by
    rw [hino]
    decide
  obtain ⟨s2, hlist, h2⟩ := h1.list_dir ino hdir
  rw [h1.listing_nil hdir (by rw [hino]; decide)] at hlist
  refine ⟨s2, ?_, h2⟩
  unfold Boot.refresh_desktop_icons
  rw [bind_of_ok hlook]
  dsimp only
  rw [bind_of_ok hlist]
  rfl

theorem blocksFor_le {n : ℕ} (h : n ≤ 4096 * k) : blocksFor n ≤ k := by
  unfold blocksFor
  omega

/-- **The storage phase returns**, and what is on the disk is the default tree. -/
theorem storage_spec (garbage : Block) {date : String}
    (hdate : (nameBytes date).length ≤ 10) (s : Fs) (hc : s.geom.covers) :
    ∃ s', storage garbage date s = .ok () s' ∧ At s' default_nodes 0 := by
  -- the calls in order; `k` counts the blocks that the rest still needs
  obtain ⟨s1, htest, hgeom1, hmark⟩ := smoke_test_spec garbage s hc
  have hc1 : s1.geom.covers := by rw [hgeom1]; exact hc
  obtain ⟨s2, hprobe, ht2⟩ := probe_after_test s1 hc1 hmark
  have hc2 := hc1.of_eq ht2.geom
  obtain ⟨s3, hformat, hgeom3, hinv, hview, hcount⟩ := format_spec s2 hc2
  have h3 : At s3 [] (95 + 2) := by
    refine ⟨by rw [hgeom3]; exact hc2, hinv, ?_, by simp, by omega⟩
    rw [hview]
    exact shows_root
  obtain ⟨s4, hhome, h4⟩ := h3.create .dir ROOT_INO "home" (by decide) (by decide) (by decide)
  obtain ⟨s5, hetc, h5⟩ :=
    (h4.fewer (k := 93 + 2) (by decide)).create .dir ROOT_INO "etc" (by decide)
    (by decide) (by decide)
  obtain ⟨r, s6, hlook, h6, hwalk⟩ := h5.lookup (by decide) "/home" (by decide)
  obtain rfl : r = some 1 := by
    have hone : walk [⟨0, F_DIR, "home"⟩, ⟨0, F_DIR, "etc"⟩] 0 (path_parts "/home")
      = some 1 := by decide
    obtain ⟨ino, rfl, hino⟩ := map_eq_some_iff.mp (hwalk.symm.trans hone)
    rw [← UInt32.ofNat_toNat (x := ino), hino]
    rfl
  obtain ⟨s7, hdesktop, h7⟩ := (h6.fewer (k := 91 + 2) (by decide)).ensure_desktop
    (by decide) 1 (by decide)
    (by decide) (by decide) (by decide)
  obtain ⟨s8, hcreate, h8⟩ :=
    (h7.fewer (k := 89 + 2) (by decide)).create .file 1 "hello.txt" (by decide)
    (by decide) (by decide)
  obtain ⟨s9, hwrite, h9⟩ :=
    (h8.fewer (k := 87 + 1 + 1) (by decide)).write_file 4 hello_txt (by decide)
    (by decide) (by decide)
  obtain ⟨data, s10, hread, h10⟩ := h9.read_file 4 (by decide)
  obtain ⟨s11, hlist, h11⟩ := h10.list_dir ROOT_INO (by decide)
  obtain ⟨s12, hkernel, h12⟩ := (h11.fewer (k := 83 + 1 + 3) (by decide)).default_file "/kernel.txt"
    "kernel.txt" (kernel_txt date) (by decide) (by decide) (by decide) (by decide) (by decide)
    (blocksFor_le (length_kernel_txt hdate)) (by decide)
  obtain ⟨s13, hbmp, h13⟩ := (h12.fewer (k := 76 + 4 + 3) (by decide)).default_file "/demo.bmp"
    "demo.bmp" make_demo_bmp (by decide) (by decide) (by decide) (by decide) (by decide)
    (by rw [length_make_demo_bmp]; decide) (by decide)
  obtain ⟨s14, hwav, h14⟩ := (h13.fewer (k := 49 + 24 + 3) (by decide)).default_file "/demo.wav"
    "demo.wav" make_demo_wav (by decide) (by decide) (by decide) (by decide) (by decide)
    (by rw [length_make_demo_wav]; decide) (by decide)
  obtain ⟨s15, hicons, h15⟩ := h14.refresh_desktop_icons
  refine ⟨s15, ?_, h15.fewer (Nat.zero_le _)⟩
  unfold storage
  rw [bind_of_ok htest, bind_of_ok hprobe,
    bind_of_ok (show format_unless false s2 = _ from hformat),
    bind_of_ok hhome, bind_of_ok hetc, bind_of_ok hlook,
    bind_of_ok (show unwrap (some (1 : UInt32)) s6 = .ok 1 s6 from rfl), bind_of_ok hdesktop,
    bind_of_ok (show create_file 1 "hello.txt" s7 = .ok 4 s8 from hcreate),
    bind_of_ok hwrite, bind_of_ok hread, bind_of_ok hlist, bind_of_ok hkernel, bind_of_ok hbmp,
    bind_of_ok hwav]
  exact hicons

/-- **What a boot leaves of an earlier run**: every disk is formatted, so all that was there is
still there exactly if it was no more than what boot makes. -/
theorem persists_iff_only_defaults (garbage : Block) {date : String}
    (hdate : (nameBytes date).length ≤ 10) (s : Fs) (hc : s.geom.covers) :
    ∃ s', storage garbage date s = .ok () s'
      ∧ (Persists (view s.blk) (view s'.blk) ↔ OnlyDefaults (view s.blk)) := by
  obtain ⟨s', hrun, h⟩ := storage_spec garbage hdate s hc
  exact ⟨s', hrun, persists_iff h.shows⟩

theorem only_defaults_root : OnlyDefaults View.root := by
  intro parts i hleads
  cases hleads with
  | here => exact .inr (by decide)
  | entry _ he _ => exact absurd he (by simp [View.root])

/-- Nothing is lost where there was only the root directory. -/
theorem persists_iff_only_defaults_formatted :
    ∃ s s', format unformatted = .ok () s ∧ storage Mem.zero "2026-01-31" s = .ok () s'
      ∧ Persists (view s.blk) (view s'.blk) := by
  obtain ⟨s, hformat, hreach, hview, -⟩ := exists_formatted
  obtain ⟨s', hrun, hiff⟩ := persists_iff_only_defaults Mem.zero
    (show (nameBytes "2026-01-31").length ≤ 10 by decide)
    s hreach.inv.1
  refine ⟨s, s', hformat, hrun, hiff.mpr ?_⟩
  rw [hview]
  exact only_defaults_root

/-- **A file `/a` is gone after the next boot.** -/
theorem boot_loses_file : ∃ s s' s'', format unformatted = .ok () s ∧ create_file 0 "a" s = .ok 1 s'
      ∧ storage Mem.zero "2026-01-31" s' = .ok () s''
      ∧ ¬ Persists (view s'.blk) (view s''.blk) := by
  obtain ⟨s, s', q, hformat, hcreate, -, hreach, hview, -⟩ := exists_created .file "a" (by decide)
  obtain ⟨s'', hrun, h⟩ :=
    storage_spec Mem.zero (show (nameBytes "2026-01-31").length ≤ 10 by decide)
    s' hreach.inv.1
  refine ⟨s, s', s'', hformat, hcreate, hrun, ?_⟩
  rw [persists_iff h.shows]
  intro hd
  have hleads : (view s'.blk).Leads 0 ["a"] 1 := by
    rw [hview]
    refine .entry ?_ (q := q) ?_ (.here 1)
    · rw [View.flags_create]
      rfl
    · rw [View.entry_create, if_pos ⟨rfl, rfl⟩]
  rcases hd ["a"] 1 hleads with hfile | ⟨hdir, -⟩
  · exact absurd hfile (by decide)
  · exact absurd hdir (by decide)

/-- **Boot makes the default tree**, whatever the disk held: its paths lead somewhere, no others
do. -/
theorem storage_makes_defaults (garbage : Block) {date : String}
    (hdate : (nameBytes date).length ≤ 10) (s : Fs) (hc : s.geom.covers) :
    ∃ s', storage garbage date s = .ok () s' ∧ Accounted s'.blk
      ∧ ∀ parts, (∃ i, (view s'.blk).Leads 0 parts i) ↔ parts ∈ default_dirs
        ∨ parts ∈ default_files := by
  obtain ⟨s', hrun, hat⟩ := storage_spec garbage hdate s hc
  refine ⟨s', hrun, hat.inv.accounted, fun parts => ?_⟩
  simp only [hat.shows.leads_iff unique_default_nodes]
  constructor
  · rintro ⟨i, hi⟩
    exact (walk_default_nodes hi).imp And.left And.left
  · rintro (hdir | hfile)
    · exact exists_walk_of_default_dir hdir
    · have hwalk : ∀ parts ∈ default_files, (walk default_nodes 0 parts).isSome := by decide
      exact Option.isSome_iff_exists.mp (hwalk parts hfile)

theorem storage_makes_defaults_unformatted :
    ∃ s, storage Mem.zero "2026-01-31" unformatted = .ok () s ∧ Accounted s.blk := by
  obtain ⟨s, hrun, hacc, -⟩ := @storage_makes_defaults Mem.zero "2026-01-31"
    (by decide) unformatted unformatted_covers
  exact ⟨s, hrun, hacc⟩

end HepOS.Boot
