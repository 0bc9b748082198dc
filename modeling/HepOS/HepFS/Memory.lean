/-
The physical pages HepFS uses, and the allocator they come from.

No page is ever given back, so a call that reads any block at all leaves fewer pages than there
were. The two that do not are looking up a path without a part, which is the root directory
without a look at it, and moving an entry from a directory to the same one.
-/
import HepOS.HepFS.Reach
import HepOS.HepFS.Pages
import HepOS.Pmm.Pages

set_option autoImplicit false

namespace HepOS.HepFS

open Bytes Hoare Trace Phys List

/-! ## Calls and pages -/

/-- A call of any operation of HepFS. -/
inductive Call where
  | op (o : Op)
  | lookup (path : String)
  | list_dir (dir_ino : UInt32)
  | read_inode (ino : UInt32)
  | read_file (ino : UInt32)

def Call.Returns (s s' : Fs) : Call → Prop
  | .op o => o.Returns s s'
  | .lookup path => ∃ r, HepFS.lookup path s = .ok r s'
  | .list_dir dir_ino => ∃ r, HepFS.list_dir dir_ino s = .ok r s'
  | .read_inode ino => ∃ r, HepFS.read_inode ino s = .ok r s'
  | .read_file ino => ∃ r, HepFS.read_file ino s = .ok r s'

/-- The calls that read no block. -/
def Call.Idle : Call → Prop
  | .lookup path => path_parts path = []
  | .op (.move_entry from_parent to_parent _) => from_parent = to_parent
  | _ => False

theorem Call.Returns.pages_of_idle {s s' : Fs} {c : Call} (h : c.Returns s s') (hidle : c.Idle) :
    s'.pages = s.pages := by
  cases c with
  | op o =>
    cases o with
    | move_entry from_parent to_parent name =>
      obtain ⟨r, hrun⟩ := h
      have hsame : from_parent = to_parent := hidle
      unfold HepFS.move_entry at hrun
      rw [bind_of_ok (show bump_generation s = .ok () _ from rfl), if_pos hsame] at hrun
      cases hrun
      rfl
    | _ => exact hidle.elim
  | lookup path =>
    obtain ⟨r, hrun⟩ := h
    have hparts : path_parts path = [] := hidle
    unfold HepFS.lookup at hrun
    rw [hparts] at hrun
    cases hrun
    rfl
  | _ => exact hidle.elim

theorem needs_lookup {path : String} (h : path_parts path ≠ []) : Needs (lookup path) := by
  unfold lookup
  cases hparts : path_parts path with
  | nil => exact absurd hparts h
  | cons part rest => exact (needs_find_in_dir _ _).bind _

theorem needs_move_entry {from_parent to_parent : UInt32} (name : String)
    (hne : from_parent ≠ to_parent) : Needs (move_entry from_parent to_parent name) := by
  unfold move_entry
  rw [if_neg hne]
  exact ((needs_find_in_dir _ _).bind _).bumped

/-- **Every other call takes a page.** -/
theorem Call.Returns.pages_lt {s s' : Fs} {c : Call} (h : c.Returns s s') (hidle : ¬ c.Idle) :
    s.pages < s'.pages := by
  -- every call that does anything reads a block first, into a new page
  cases c with
  | op o =>
    cases o with
    | write_file ino data =>
      exact (needs_write_file ino data).pages_lt (spends_write_file (k := 0) _ _).toSteady h
    | create_file parent name =>
      obtain ⟨_, hrun⟩ := h
      exact (needs_alloc_inode.bind _).bumped.pages_lt
        (spends_create_file (k := 0) _ _).toSteady hrun
    | create_dir parent name =>
      obtain ⟨_, hrun⟩ := h
      exact (needs_alloc_inode.bind _).bumped.pages_lt
        (spends_create_dir (k := 0) _ _).toSteady hrun
    | remove parent_ino name =>
      obtain ⟨_, hrun⟩ := h
      exact ((needs_find_in_dir _ _).bind _).bumped.pages_lt (paged_remove _ _) hrun
    | rename parent_ino old_name new_name =>
      obtain ⟨_, hrun⟩ := h
      exact ((needs_find_in_dir _ _).bind _).bumped.pages_lt (paged_rename _ _ _) hrun
    | move_entry from_parent to_parent name =>
      obtain ⟨_, hrun⟩ := h
      exact (needs_move_entry name hidle).pages_lt (paged_move_entry _ _ _) hrun
    | copy_entry frames from_parent to_parent name dest_name =>
      obtain ⟨_, hrun⟩ := h
      cases frames with
      | zero => cases hrun
      | succ frames =>
        exact ((needs_find_in_dir _ _).bind _).pages_lt (paged_copy_entry (frames + 1) _ _ _ _) hrun
  | lookup path =>
    obtain ⟨_, hrun⟩ := h
    exact (needs_lookup hidle).pages_lt (spends_lookup (k := 0) _).toSteady hrun
  | list_dir dir_ino =>
    obtain ⟨_, hrun⟩ := h
    exact (needs_list_dir _).pages_lt (spends_list_dir (k := 0) _).toSteady hrun
  | read_inode ino =>
    obtain ⟨_, hrun⟩ := h
    exact (needs_read_inode _).pages_lt (spends_read_inode (k := 0) _).toSteady hrun
  | read_file ino =>
    obtain ⟨_, hrun⟩ := h
    exact (needs_read_file _).pages_lt (paged_read_file _) hrun

/-! ## The allocator -/

/-- HepFS and the page allocator. -/
structure Machine where
  fs : Fs
  pmm : Pmm

/-- A call that returns: `alloc_page` was called for every page it took and gave one. -/
def Runs (m : Machine) (c : Call) (m' : Machine) : Prop :=
  c.Returns m.fs m'.fs ∧ alloc_pages (m'.fs.pages - m.fs.pages) m.pmm = some m'.pmm

/-- **The pages in use stay the same only over a call that reads no block.** -/
theorem allocated_kept_iff {m m' : Machine} {c : Call} (h : Runs m c m') :
    allocated m'.pmm = allocated m.pmm ↔ c.Idle := by
  obtain ⟨hret, halloc⟩ := h
  rw [allocated_alloc_pages_iff halloc]
  constructor
  · intro hzero
    by_contra hidle
    have := hret.pages_lt hidle
    omega
  · intro hidle
    rw [hret.pages_of_idle hidle]
    omega

/-- Memory with every page free. -/
def all_free : Pmm := ⟨fun _ => 0, UInt64.ofNat MAX_PAGES⟩

theorem left_all_free : left all_free = MAX_PAGES := by
  have hfree : ∀ page, is_used all_free page = false := by
    intro page
    rw [is_used_eq]
    exact BitVec.getLsbD_zero
  unfold left
  rw [Finset.filter_true_of_mem fun page _ => hfree page, Finset.card_range]

/-- The witness: looking up the root directory. -/
theorem allocated_kept_iff_root : ∃ m, Reachable m.fs ∧ Runs m (.lookup "/") m
      ∧ (allocated m.pmm = allocated m.pmm ↔ Call.Idle (.lookup "/")) := by
  obtain ⟨s, -, hreach, -⟩ := exists_formatted
  have hret : Call.Returns s s (.lookup "/") := by
    refine ⟨some ROOT_INO, ?_⟩
    rfl
  have hruns : Runs ⟨s, all_free⟩ (.lookup "/") ⟨s, all_free⟩ := by
    refine ⟨hret, ?_⟩
    rw [Nat.sub_self]
    rfl
  exact ⟨⟨s, all_free⟩, hreach, hruns, allocated_kept_iff hruns⟩

theorem read_inode_run {s : Fs} (h : Reachable s) :
    Call.Returns s { s with pages := s.pages + 1 } (.read_inode 0) := by
  have hserves : s.geom.serves (6 + (0 : UInt32).toNat / 32) := h.inv.1.holds_inode (by decide)
  exact ⟨_, bind_of_ok (read_block_run (hasPage_of_none hserves.2) hserves.1)⟩

/-- **`read_inode` keeps a page.** On a freshly formatted disk, with all the memory free, the page
it reads the inode table into is in use afterwards. -/
theorem read_inode_keeps_page :
    ∃ m m', Reachable m.fs ∧ Runs m (.read_inode 0) m' ∧ allocated m'.pmm ≠ allocated m.pmm := by
  obtain ⟨s, -, hreach, -⟩ := exists_formatted
  have hrun := read_inode_run hreach
  obtain ⟨pmm, halloc⟩ := alloc_pages_of_le 1 all_free (by
    rw [left_all_free]
    unfold MAX_PAGES
    omega)
  refine ⟨⟨s, all_free⟩, ⟨_, pmm⟩, hreach, ⟨hrun, ?_⟩, ?_⟩
  · dsimp only
    rw [Nat.add_sub_cancel_left]
    exact halloc
  · intro hsame
    exact absurd ((allocated_alloc_pages_iff halloc).mp hsame) (by decide)

/-- **No run is longer than the memory.** Every call that reads a block takes one of the pages that
are left, for good. -/
theorem Steps.length_le_left {m m' : Machine} {cs : List Call} (h : Steps Runs m cs m')
    (hidle : ∀ c ∈ cs, ¬ c.Idle) : cs.length + left m'.pmm ≤ left m.pmm := by
  induction h with
  | done m => simp
  | next hstep hrest ih =>
    have hleft := left_alloc_pages _ hstep.2
    have hlt := hstep.1.pages_lt (hidle _ mem_cons_self)
    have hrest := ih fun c hc => hidle c (mem_cons_of_mem _ hc)
    rw [length_cons]
    omega

theorem length_le_left_read : ∃ m m', Steps Runs m [.read_inode 0] m'
    ∧ 1 + left m'.pmm ≤ left m.pmm := by
  obtain ⟨s, -, hs, -⟩ := exists_formatted
  obtain ⟨p, hp⟩ := alloc_pages_of_le 1 all_free (by simp [left_all_free, MAX_PAGES])
  have h : Runs ⟨s, all_free⟩ (.read_inode 0) ⟨_, p⟩ :=
    ⟨read_inode_run hs, by simpa using hp⟩
  exact ⟨_, _, .one h, Steps.length_le_left (.one h) (by simp [Call.Idle])⟩

end HepOS.HepFS
