/-
The physical pages each function takes.

Every block that is read goes to a page of its own, and so does every block that is zeroed or
filled before it is written. `Page` has no `Drop`: no page is given back. `Spends k w x` bounds what
a call that returns has taken, and says that memory matters to it in no other way: with as many
pages as it takes it returns the same, so what is proved where memory never runs out holds on a
machine with pages enough. The bounds are of the code as it is written, whatever is on the disk.

`Needs x` says the other half: without a page left the call stops with `hepfs: OOM`.
-/
import HepOS.HepFS.WriteStep
import HepOS.HepFS.Ops

set_option autoImplicit false

namespace HepOS.HepFS

open Bytes Hoare List

/-! ## Machines with less memory -/

/-- The same machine with room for the pages `l`. -/
def Fs.on (l : Option ℕ) (s : Fs) : Fs := { s with geom := { s.geom with memory := l } }

/-- The machine with `n` pages left. -/
def Fs.limit (s : Fs) (n : ℕ) : Fs := s.on (some (s.pages + n))

theorem Fs.on_none {s : Fs} (h : s.geom.memory = none) : s.on none = s := by
  unfold Fs.on
  rw [← h]

theorem Fs.not_hasPage_limit (s : Fs) : ¬ (s.limit 0).HasPage := by
  intro h
  exact absurd (h _ rfl) (lt_irrefl _)

abbrev Paged {α : Type} (x : FsM α) : Prop := Steady Fs.pages Fs.on x

abbrev Spends {α : Type} (k : ℕ) (w : α → ℕ) (x : FsM α) : Prop := Takes Fs.pages Fs.on k w x

section

variable {α : Type} {x : FsM α} {s s' : Fs} {a : α}

/-- A run on a machine with less memory is one on the machine without a limit. -/
theorem free_of_limit (h : Paged x) {n : ℕ} (hmem : s.geom.memory = none)
    (hrun : x (s.limit n) = .ok a s') :
    x s = .ok a (s'.on none) := by
  have hfree := h.limit hrun none (by simp)
  rwa [show (s.limit n).on none = s from Fs.on_none hmem] at hfree

/-- With a page for each that the call takes, it returns the same. -/
theorem limit_of_free (h : Paged x) {n : ℕ} (hrun : x s = .ok a s') (hn : s'.pages ≤ s.pages + n) :
    x (s.limit n) = .ok a (s'.on (some (s.pages + n))) :=
  h.limit hrun _ (by simpa using hn)

theorem Spends.limit {k n : ℕ} {w : α → ℕ} (h : Spends k w x) (hrun : x s = .ok a s') (hn : k ≤ n) :
    x (s.limit n) = .ok a (s'.on (some (s.pages + n))) := by
  have := h.high hrun
  exact limit_of_free h.toSteady hrun (by omega)

/-- What a specification says, and the pages that were taken. -/
theorem Post.spent {k : ℕ} {w : α → ℕ} {Q : α → Fs → Prop} {E : Panic → Fs → Prop}
    (hx : Spends k w x) (h : Post x s Q E) :
    Post x s (fun a s' => Q a s' ∧ s'.pages + w a ≤ s.pages + k) E := by
  unfold Post at h ⊢
  cases hrun : x s with
  | ok a s' =>
    rw [hrun] at h
    exact ⟨h, hx.high hrun⟩
  | error e s' =>
    rw [hrun] at h
    exact h

end

section

variable {k : ℕ}

/-! ## Blocks and bit maps -/

theorem spends_page_alloc : Spends (k + 1) (fun _ => k) page_alloc := by
  refine ⟨⟨?_, ?_⟩, ?_⟩
  all_goals
    intro s s' a h
    obtain ⟨-, rfl, rfl⟩ := page_alloc_ok h
  · exact Nat.le_succ _
  · intro l hl
    exact page_alloc_run fun b hb => hl b hb
  · show s.pages + 1 + k ≤ s.pages + (k + 1)
    omega

theorem spends_read_block (block : ℕ) : Spends (k + 1) (fun _ => k) (read_block block) := by
  refine ⟨⟨?_, ?_⟩, ?_⟩
  all_goals
    intro s s' a h
    obtain ⟨-, hdev, rfl, rfl⟩ := read_block_ok h
  · exact Nat.le_succ _
  · intro l hl
    exact read_block_run (fun b hb => hl b hb) hdev
  · show s.pages + 1 + k ≤ s.pages + (k + 1)
    omega

theorem spends_write_block (block : ℕ) (page : Block) :
    Spends k (fun _ => k) (write_block block page) := by
  refine ⟨⟨?_, ?_⟩, ?_⟩
  all_goals
    intro s s' a h
    obtain ⟨hdev, rfl⟩ := write_block_ok h
  · exact le_rfl
  · intro l _
    exact write_block_run page hdev
  · exact le_rfl

theorem spends_bump_generation : Spends k (fun _ => k) bump_generation := by
  refine ⟨⟨?_, ?_⟩, ?_⟩
  all_goals
    intro s s' a h
    cases h
  · exact le_rfl
  · intro l _
    rfl
  · exact le_rfl

theorem spends_bitmap_alloc_go (bm_start skip : ℕ) (l : List ℕ) :
    Spends (k + l.length + 1) (fun _ => k) (bitmap_alloc.go bm_start skip l) := by
  induction l with
  | nil => exact Takes.pure (by omega)
  | cons bi rest ih =>
    apply (spends_read_block _).bind
    intro buf
    cases scan_page buf bi skip with
    | none => exact ih
    | some pos =>
      apply (spends_read_block _).bind
      intro mbuf
      apply (spends_write_block _ _).bind
      intro _
      exact Takes.pure (Nat.le_add_right _ _)

theorem spends_bitmap_alloc (bm_start bm_len skip : ℕ) :
    Spends (k + bm_len + 1) (fun _ => k) (bitmap_alloc bm_start bm_len skip) := by
  have h := spends_bitmap_alloc_go (k := k) bm_start skip (range bm_len)
  rwa [length_range] at h

theorem spends_bitmap_set (bm_start idx : ℕ) (used : Bool) :
    Spends (k + 1) (fun _ => k) (bitmap_set bm_start idx used) := by
  apply (spends_read_block _).bind
  intro buf
  exact spends_write_block _ _

theorem spends_read_inode (ino : UInt32) : Spends (k + 1) (fun _ => k) (read_inode ino) := by
  apply (spends_read_block _).bind
  intro page
  exact Takes.pure le_rfl

theorem spends_write_inode (ino : UInt32) (n : Inode) :
    Spends (k + 1) (fun _ => k) (write_inode ino n) := by
  apply (spends_read_block _).bind
  intro page
  exact spends_write_block _ _

theorem spends_alloc_block : Spends (k + 6) (fun _ => k) alloc_block := by
  apply (spends_bitmap_alloc (k := k + 1) 2 4 38).bind
  intro r
  cases r with
  | none => exact Takes.throw _
  | some blk =>
    apply spends_page_alloc.bind
    intro page
    apply (spends_write_block _ _).bind
    intro _
    exact Takes.pure le_rfl

theorem spends_alloc_inode : Spends (k + 2) (fun _ => k) alloc_inode := by
  apply (spends_bitmap_alloc (k := k) _ _ _).bind
  intro r
  cases r with
  | none => exact Takes.throw _
  | some idx => exact Takes.ite (Takes.pure le_rfl) (Takes.throw _)

/-! ## Directories -/

theorem Inode.length_blocks (n : Inode) : n.blocks.length ≤ 12 := by
  refine (length_filter_le _ _).trans ?_
  simp

theorem spends_scan_dir (test : DirEntry → Bool) (blks : List UInt32) :
    Spends (k + blks.length) (fun _ => k) (scan_dir test blks) := by
  induction blks with
  | nil => exact Takes.pure le_rfl
  | cons blk rest ih =>
    apply (spends_read_block _).bind
    intro buf
    cases scan_block buf test with
    | none => exact ih
    | some i => exact Takes.pure (Nat.le_add_right _ _)

theorem spends_list_blocks (blks : List UInt32) :
    ∀ out, Spends (k + blks.length) (fun _ => k) (list_blocks blks out) := by
  induction blks with
  | nil => exact fun out => Takes.pure le_rfl
  | cons blk rest ih =>
    intro out
    apply (spends_read_block _).bind
    intro buf
    exact ih _

theorem spends_list_dir (dir_ino : UInt32) : Spends (k + 13) (fun _ => k) (list_dir dir_ino) := by
  apply (spends_read_inode _).bind
  intro inode
  have := inode.length_blocks
  exact Takes.ite (Takes.throw _) ((spends_list_blocks _ _).lax (by omega))

theorem spends_find_in_dir (dir_ino : UInt32) (name : String) :
    Spends (k + 13) (fun _ => k) (find_in_dir dir_ino name) := by
  apply (spends_read_inode _).bind
  intro inode
  have := inode.length_blocks
  apply ((spends_scan_dir (k := k) _ _).lax (by omega)).bind
  intro r
  cases r with
  | none | some r => exact Takes.pure le_rfl

theorem spends_lookup_from (parts : List String) :
    ∀ ino, Spends (k + 13 * parts.length) (fun _ => k) (lookup_from ino parts) := by
  induction parts with
  | nil => exact fun ino => Takes.pure le_rfl
  | cons part rest ih =>
    intro ino
    apply ((spends_find_in_dir (k := k + 13 * rest.length) _ _).lax
      (by rw [length_cons]; omega)).bind
    intro r
    cases r with
    | none => exact Takes.pure (by omega)
    | some ino => exact ih ino

theorem spends_lookup (path : String) :
    Spends (k + 13 * (path_parts path).length) (fun _ => k) (lookup path) := spends_lookup_from _ _

theorem spends_ensure_dir_block (dir_ino : UInt32) (inode : Inode) (j : ℕ) (h : j < 12) :
    Spends (k + 7) (fun _ => k) (ensure_dir_block dir_ino inode j h) := by
  refine Takes.ite ?_ (Takes.pure (by omega))
  apply spends_alloc_block.bind
  intro b
  apply (spends_write_inode _ _).bind
  intro _
  exact Takes.pure le_rfl

theorem spends_add_dir_entry_loop (dir_ino : UInt32) (name : String) (ino : UInt32) (n : ℕ) :
    ∀ (inode : Inode) (j : ℕ), j + n = 12 →
      Spends (k + 1 + 8 * n) (fun _ => k) (add_dir_entry_loop dir_ino name ino inode j) := by
  induction n with
  | zero =>
    intro inode j hj
    unfold add_dir_entry_loop
    rw [dif_neg (by simp only [DIRECT_PTRS]; omega)]
    exact Takes.throw _
  | succ n ih =>
    intro inode j hj
    unfold add_dir_entry_loop
    rw [dif_pos (show j < DIRECT_PTRS by simp only [DIRECT_PTRS]; omega)]
    apply ((spends_ensure_dir_block (k := k + 1 + 8 * n + 1) _ _ _ _).lax (by omega)).bind
    intro inode'
    apply (spends_read_block _).bind
    intro buf
    cases scan_block buf (fun e => e.inode = 0) with
    | none => exact ih inode' (j + 1) (by omega)
    | some i =>
      apply (spends_write_block _ _).bind
      intro _
      exact (spends_write_inode _ _).lax (by omega)

theorem spends_add_dir_entry (dir_ino : UInt32) (name : String) (ino : UInt32) :
    Spends (k + 98) (fun _ => k) (add_dir_entry dir_ino name ino) := by
  apply (spends_read_inode _).bind
  intro inode
  exact Takes.ite (spends_add_dir_entry_loop dir_ino name ino 12 inode 0 rfl) (Takes.throw _)

theorem spends_create_file (parent : UInt32) (name : String) :
    Spends (k + 101) (fun _ => k) (create_file parent name) := by
  apply spends_bump_generation.bind
  intro _
  apply spends_alloc_inode.bind
  intro ino
  apply (spends_write_inode _ _).bind
  intro _
  apply (spends_add_dir_entry _ _ _).bind
  intro _
  exact Takes.pure le_rfl

theorem spends_create_dir (parent : UInt32) (name : String) :
    Spends (k + 107) (fun _ => k) (create_dir parent name) := by
  apply spends_bump_generation.bind
  intro _
  apply spends_alloc_inode.bind
  intro ino
  apply spends_alloc_block.bind
  intro blk
  apply (spends_write_inode _ _).bind
  intro _
  apply (spends_add_dir_entry _ _ _).bind
  intro _
  exact Takes.pure le_rfl

/-! ## Writing

Fifteen pages for each block of the content: two tables, each with a block to be allocated, and
the page that is filled. -/

theorem exists_blocksFor {data : List UInt8} (h : data ≠ []) : ∃ n, blocksFor data.length = n + 1
      ∧ blocksFor (data.drop (min data.length BLOCK_SIZE)).length = n := by
  have := length_pos_iff.mpr h
  refine ⟨blocksFor (data.drop (min data.length BLOCK_SIZE)).length, ?_, rfl⟩
  unfold blocksFor BLOCK_SIZE
  rw [length_drop]
  omega

theorem spends_write_chunk (blk : UInt32) {remaining : List UInt8} {n : ℕ}
    (h : blocksFor (remaining.drop (min remaining.length BLOCK_SIZE)).length = n) :
    Spends (k + 15 * n + 1) (fun r => k + 15 * blocksFor r.length) (write_chunk blk remaining) := by
  apply spends_page_alloc.bind
  intro page
  apply (spends_write_block _ _).bind
  intro _
  exact Takes.pure (by rw [h])

section

variable (inode : Inode)

theorem spends_ensure_direct (j : ℕ) (h : j < 12) :
    Spends (k + 6) (fun _ => k) (ensure_direct inode j h) := by
  refine Takes.ite ?_ (Takes.pure (by omega))
  apply spends_alloc_block.bind
  intro b
  exact Takes.pure le_rfl

theorem spends_write_direct (inode : Inode) (remaining : List UInt8) (idx : ℕ) :
    Spends (k + 15 * blocksFor remaining.length) (fun r => k + 15 * blocksFor r.2.length)
      (write_direct inode remaining idx) := by
  fun_induction write_direct inode remaining idx with
  | case1 inode remaining idx h hidx ih =>
    obtain ⟨n, hn, hrest⟩ := exists_blocksFor h.1
    apply ((spends_ensure_direct (k := k + 15 * n + 1) _ _ _).lax (by omega)).bind
    intro inode'
    apply (spends_write_chunk _ hrest).bind
    intro remaining'
    exact ih inode' remaining'
  | case2 inode remaining idx h => exact Takes.pure le_rfl

theorem spends_ensure_indirect : Spends (k + 6) (fun _ => k) (ensure_indirect inode) := by
  refine Takes.ite ?_ (Takes.pure (by omega))
  apply spends_alloc_block.bind
  intro b
  exact Takes.pure le_rfl

theorem spends_ensure_entry (buf : Block) (i : ℕ) :
    Spends (k + 6) (fun _ => k) (ensure_entry inode buf i) := by
  refine Takes.ite (Takes.pure (by omega)) ?_
  apply spends_alloc_block.bind
  intro b
  exact Takes.pure le_rfl

theorem spends_write_indirect_loop (inode : Inode) (buf : Block) (remaining : List UInt8) (i : ℕ) :
    Spends (k + 15 * blocksFor remaining.length) (fun r => k + 15 * blocksFor r.2.2.length)
      (write_indirect_loop inode buf remaining i) := by
  fun_induction write_indirect_loop inode buf remaining i with
  | case1 inode buf remaining i h ih =>
    obtain ⟨n, hn, hrest⟩ := exists_blocksFor h.1
    apply ((spends_ensure_entry (k := k + 15 * n + 1) _ _ _).lax (by omega)).bind
    rintro ⟨inode', buf', blk⟩
    apply (spends_write_chunk _ hrest).bind
    intro remaining'
    exact ih inode' buf' remaining'
  | case2 inode buf remaining i h => exact Takes.pure le_rfl

theorem spends_write_indirect (remaining : List UInt8) :
    Spends (k + 7 + 15 * blocksFor remaining.length) (fun r => k + 15 * blocksFor r.2.length)
      (write_indirect inode remaining) := by
  refine Takes.ite (Takes.pure (by dsimp only; omega)) ?_
  apply ((spends_ensure_indirect (k := k + 15 * blocksFor remaining.length + 1) _).lax
    (by omega)).bind
  intro inode'
  apply (spends_read_block _).bind
  intro buf
  apply (spends_write_indirect_loop _ _ _ _).bind
  rintro ⟨inode'', buf', remaining'⟩
  apply (spends_write_block _ _).bind
  intro _
  exact Takes.pure le_rfl

theorem spends_ensure_dindirect : Spends (k + 6) (fun _ => k) (ensure_dindirect inode) := by
  refine Takes.ite ?_ (Takes.pure (by omega))
  apply spends_alloc_block.bind
  intro b
  exact Takes.pure le_rfl

theorem spends_ensure_ptr (table : UInt32) (i : ℕ) :
    Spends (k + 7) (fun _ => k) (ensure_ptr inode table i) := by
  apply (spends_read_block _).bind
  intro buf
  refine Takes.ite (Takes.pure (by omega)) ?_
  apply spends_alloc_block.bind
  intro b
  apply (spends_write_block _ _).bind
  intro _
  exact Takes.pure le_rfl

theorem spends_write_dindirect_loop (inode : Inode) (remaining : List UInt8) (counter : ℕ) :
    Spends (k + 15 * blocksFor remaining.length) (fun _ => k)
        (write_dindirect_loop inode remaining counter) := by
  fun_induction write_dindirect_loop inode remaining counter with
  | case1 inode counter => exact Takes.pure (by omega)
  | case2 inode remaining counter h hlt l1_idx l2_idx ih =>
    obtain ⟨n, hn, hrest⟩ := exists_blocksFor h
    apply ((spends_ensure_ptr (k := k + 15 * n + 8) _ _ _).lax (by omega)).bind
    rintro ⟨inode', l1_blk⟩
    apply (spends_ensure_ptr _ _ _).bind
    rintro ⟨inode'', data_blk⟩
    apply (spends_write_chunk _ hrest).bind
    intro remaining'
    exact ih inode'' remaining'
  | case3 inode remaining counter h hlt => exact Takes.throw _

theorem spends_write_dindirect (remaining : List UInt8) :
    Spends (k + 6 + 15 * blocksFor remaining.length) (fun _ => k)
        (write_dindirect inode remaining) := by
  refine Takes.ite (Takes.pure (by omega)) ?_
  apply ((spends_ensure_dindirect (k := k + 15 * blocksFor remaining.length) _).lax (by omega)).bind
  intro inode'
  exact spends_write_dindirect_loop _ _ _

end

/-- The pages writing `n` blocks may take. -/
def writePages (n : ℕ) : ℕ := 15 * n + 15

theorem spends_write_file (ino : UInt32) (data : List UInt8) :
    Spends (k + writePages (blocksFor data.length)) (fun _ => k) (write_file ino data) := by
  apply ((spends_read_inode (k := k + 14 + 15 * blocksFor data.length) _).lax (by
    unfold writePages
    omega)).bind
  intro inode
  refine Takes.ite (Takes.throw _) ?_
  apply (spends_write_direct _ _ _).bind
  rintro ⟨inode₁, remaining⟩
  apply (spends_write_indirect (k := k + 7) _ _).bind
  rintro ⟨inode₂, remaining'⟩
  apply ((spends_write_dindirect (k := k + 1) _ _).lax (by dsimp only; omega)).bind
  intro inode₃
  exact spends_write_inode _ _

/-! ## Reading

One page for each block of the content and for each table. -/

theorem spends_read_chunk (blk : UInt32) {left : ℕ} (h : left ≠ 0) :
    Spends (k + blocksFor left) (fun r => k + blocksFor r.2) (read_chunk blk left) := by
  have hn : blocksFor left = blocksFor (left - min left BLOCK_SIZE) + 1 := by
    unfold blocksFor BLOCK_SIZE
    omega
  rw [hn]
  apply (spends_read_block _).bind
  intro page
  exact Takes.pure le_rfl

theorem spends_read_direct (blks : List UInt32) : ∀ (out : List UInt8) (left : ℕ),
    Spends (k + blocksFor left) (fun r => k + blocksFor r.2) (read_direct blks out left) := by
  induction blks with
  | nil => exact fun out left => Takes.pure le_rfl
  | cons blk rest ih =>
    intro out left
    rw [read_direct]
    split_ifs with h
    · exact Takes.pure le_rfl
    · apply (spends_read_chunk _ h).bind
      intro r
      exact ih _ _

theorem spends_read_table (buf : Block) (idx : List ℕ) : ∀ (out : List UInt8) (left : ℕ),
    Spends (k + blocksFor left) (fun r => k + blocksFor r.2) (read_table buf idx out left) := by
  induction idx with
  | nil => exact fun out left => Takes.pure le_rfl
  | cons i rest ih =>
    intro out left
    rw [read_table]
    split_ifs with h
    · exact Takes.pure le_rfl
    · exact Takes.pure le_rfl
    · apply (spends_read_chunk _ h).bind
      intro r
      exact ih _ _

theorem spends_read_indirect (inode : Inode) (out : List UInt8) (left : ℕ) :
    Spends (k + blocksFor left + 1) (fun r => k + blocksFor r.2)
        (read_indirect inode out left) := by
  refine Takes.ite ?_ (Takes.pure (Nat.le_succ _))
  apply (spends_read_block _).bind
  intro buf
  exact spends_read_table _ _ _ _

theorem spends_read_l1_tables (buf : Block) (idx : List ℕ) : ∀ (out : List UInt8) (left : ℕ),
    Spends (k + idx.length + blocksFor left) (fun _ => k) (read_l1_tables buf idx out left) := by
  induction idx with
  | nil => exact fun out left => Takes.pure (by omega)
  | cons i rest ih =>
    intro out left
    refine Takes.ite (Takes.pure (by omega)) (Takes.ite (Takes.pure (by omega)) ?_)
    apply ((spends_read_block (k := k + rest.length + blocksFor left) _).lax (by
      rw [length_cons]
      omega)).bind
    intro l1_buf
    apply (spends_read_table _ _ _ _).bind
    intro r
    exact ih _ _

/-- The pages reading a file may take. Only a file with a double-indirect table can have the 1024
tables behind it. -/
def readPages (n : Inode) : ℕ := blocksFor n.size.toNat + if n.dindirect = 0 then 2 else 1027

theorem spends_read_dindirect (inode : Inode) (out : List UInt8) (left : ℕ) :
    Spends (k + (if inode.dindirect = 0 then 0 else 1025) + blocksFor left) (fun _ => k)
      (read_dindirect inode out left) := by
  rw [read_dindirect]
  by_cases hd : inode.dindirect = 0
  · rw [if_pos hd, if_neg (fun h => h.2 hd)]
    exact Takes.pure (by omega)
  rw [if_neg hd]
  refine Takes.ite ?_ (Takes.pure (by omega))
  apply ((spends_read_block (k := k + 1024 + blocksFor left) _).lax (by omega)).bind
  intro buf
  have h := spends_read_l1_tables (k := k) buf (range PTRS_PER_INDIRECT) out left
  rwa [length_range] at h

/-- `read_file`, once it has the inode. -/
theorem spends_read_blocks (inode : Inode) : Spends (k + readPages inode) (fun _ => k + 1) (do
    let (out, left) ← read_direct (inode.direct.toList.filter (· ≠ 0)) [] inode.size.toNat
    let (out, left) ← read_indirect inode out left
    let (out, _) ← read_dindirect inode out left
    pure out) := by
  have hle : k + 2 + (if inode.dindirect = 0 then 0 else 1025) + blocksFor inode.size.toNat
      ≤ k + readPages inode := by
    unfold readPages
    split_ifs <;> omega
  apply ((spends_read_direct _ _ _).lax hle).bind
  rintro ⟨out, left⟩
  apply ((spends_read_indirect (k := k + 1 + if inode.dindirect = 0 then 0 else 1025) _ _ _).lax (by
    dsimp only
    omega)).bind
  rintro ⟨out', left'⟩
  apply (spends_read_dindirect _ _ _).bind
  rintro ⟨out'', left''⟩
  exact Takes.pure le_rfl

end

theorem paged_read_file (ino : UInt32) : Paged (read_file ino) := by
  apply (spends_read_inode (k := 0) _).toSteady.bind
  intro inode
  exact Steady.ite (Steady.throw _) (spends_read_blocks (k := 0) inode).toSteady

theorem pages_read_file {ino : UInt32} {s s' : Fs} {data : List UInt8}
    (h : read_file ino s = .ok data s') :
    s'.pages ≤ s.pages + readPages (inodeAt s.blk ino.toNat) := by
  obtain ⟨inode, s1, hinode, hrest⟩ := exists_of_bind_ok h
  obtain ⟨page, _, hread, hpure⟩ := exists_of_bind_ok hinode
  obtain ⟨-, -, rfl, rfl⟩ := read_block_ok hread
  cases hpure
  split_ifs at hrest with hfile
  · cases hrest
  · have := (spends_read_blocks (k := 0) _).high hrest
    unfold inodeAt
    dsimp only at this
    show _ ≤ s.pages + readPages ((s.blk (INODE_TBL_BLOCK + ino.toNat / INODES_PER_BLK)).inode
      (ino.toNat % INODES_PER_BLK))
    omega

/-! ## The other operations -/

theorem paged_format : Paged format := by
  refine Steady.get_bind ?_ ?_
  · exact fun _ _ => rfl
  intro s
  apply (spends_page_alloc (k := 0)).toSteady.bind
  intro sb_page
  apply (spends_write_block (k := 0) _ _).toSteady.bind
  intro _
  apply (spends_page_alloc (k := 0)).toSteady.bind
  intro empty
  apply (Steady.each (fun _ => (spends_write_block (k := 0) _ _).toSteady) _).bind
  intro _
  apply (Steady.each (fun _ => (spends_bitmap_set (k := 0) _ _ _).toSteady) _).bind
  intro _
  apply (spends_bitmap_set (k := 0) _ _ _).toSteady.bind
  intro _
  apply (Steady.each (fun _ => (spends_write_block (k := 0) _ _).toSteady) _).bind
  intro _
  apply (spends_alloc_block (k := 0)).toSteady.bind
  intro root_blk
  apply (spends_write_inode (k := 0) _ _).toSteady.bind
  intro _
  exact (spends_write_block (k := 0) _ _).toSteady

theorem paged_bitmap_set (bm_start idx : ℕ) (used : Bool) : Paged (bitmap_set bm_start idx used) :=
  (spends_bitmap_set (k := 0) _ _ _).toSteady

theorem paged_free_table (buf : Block) (idx : List ℕ) : Paged (free_table buf idx) := by
  induction idx with
  | nil => exact Steady.pure _
  | cons i rest ih => exact Steady.ite (Steady.pure _) ((paged_bitmap_set _ _ _).bind fun _ => ih)

theorem paged_free_indirect (inode : Inode) : Paged (free_indirect inode) := by
  refine Steady.ite ?_ (Steady.pure _)
  apply (spends_read_block (k := 0) _).toSteady.bind
  intro buf
  exact (paged_free_table _ _).bind fun _ => paged_bitmap_set _ _ _

theorem paged_free_l1_tables (buf : Block) (idx : List ℕ) : Paged (free_l1_tables buf idx) := by
  induction idx with
  | nil => exact Steady.pure _
  | cons i rest ih =>
    refine Steady.ite (Steady.pure _) ?_
    apply (spends_read_block (k := 0) _).toSteady.bind
    intro l1_buf
    apply (paged_free_table _ _).bind
    intro _
    exact (paged_bitmap_set _ _ _).bind fun _ => ih

theorem paged_free_dindirect (inode : Inode) : Paged (free_dindirect inode) := by
  refine Steady.ite ?_ (Steady.pure _)
  apply (spends_read_block (k := 0) _).toSteady.bind
  intro buf
  exact (paged_free_l1_tables _ _).bind fun _ => paged_bitmap_set _ _ _

theorem paged_free_blocks (inode : Inode) : Paged (free_blocks inode) := by
  apply (Steady.each (fun _ => paged_bitmap_set _ _ _) _).bind
  intro _
  exact (paged_free_indirect _).bind fun _ => paged_free_dindirect _

theorem spends_clear_entry {k : ℕ} (parent : Inode) (ino : UInt32) :
    Spends (k + 12) (fun _ => k) (clear_entry parent ino) := by
  have := parent.length_blocks
  apply ((spends_scan_dir (k := k) _ _).lax (by omega)).bind
  intro r
  cases r with
  | none => exact Takes.pure le_rfl
  | some r =>
    apply (spends_write_block _ _).bind
    intro _
    exact Takes.pure le_rfl

theorem spends_has_entries {k : ℕ} (ino : UInt32) (inode : Inode) :
    Spends (k + 13) (fun _ => k) (has_entries ino inode) := by
  refine Takes.ite ?_ (Takes.pure (by omega))
  apply (spends_list_dir _).bind
  intro entries
  exact Takes.pure le_rfl

theorem paged_find_in_dir (dir_ino : UInt32) (name : String) : Paged (find_in_dir dir_ino name) :=
  (spends_find_in_dir (k := 0) _ _).toSteady

theorem paged_remove (parent_ino : UInt32) (name : String) : Paged (remove parent_ino name) := by
  apply (spends_bump_generation (k := 0)).toSteady.bind
  intro _
  apply (paged_find_in_dir _ _).bind
  intro r
  cases r with
  | none => exact Steady.pure _
  | some ino =>
    apply (spends_read_inode (k := 0) _).toSteady.bind
    intro inode
    refine Steady.ite (Steady.pure _) ?_
    apply (spends_has_entries (k := 0) _ _).toSteady.bind
    intro busy
    refine Steady.ite (Steady.pure _) ?_
    apply (paged_free_blocks _).bind
    intro _
    apply (paged_bitmap_set _ _ _).bind
    intro _
    apply (spends_write_inode (k := 0) _ _).toSteady.bind
    intro _
    apply (spends_read_inode (k := 0) _).toSteady.bind
    intro parent
    exact (spends_clear_entry (k := 0) _ _).toSteady.map _

theorem paged_rename (parent_ino : UInt32) (old_name new_name : String) :
    Paged (rename parent_ino old_name new_name) := by
  apply (spends_bump_generation (k := 0)).toSteady.bind
  intro _
  apply (paged_find_in_dir _ _).bind
  intro r
  cases r with
  | some ino => exact Steady.pure _
  | none =>
    refine Steady.ite (Steady.pure _) ?_
    apply (spends_read_inode (k := 0) _).toSteady.bind
    intro parent
    apply (spends_scan_dir (k := 0) _ _).toSteady.bind
    intro r
    cases r with
    | none => exact Steady.pure _
    | some r => exact (spends_write_block (k := 0) _ _).toSteady.map _

theorem paged_move_entry (from_parent to_parent : UInt32) (name : String) :
    Paged (move_entry from_parent to_parent name) := by
  apply (spends_bump_generation (k := 0)).toSteady.bind
  intro _
  refine Steady.ite (Steady.pure _) ?_
  apply (paged_find_in_dir _ _).bind
  intro r
  cases r with
  | some ino => exact Steady.pure _
  | none =>
    apply (paged_find_in_dir _ _).bind
    intro r
    cases r with
    | none => exact Steady.pure _
    | some ino =>
      apply (spends_read_inode (k := 0) _).toSteady.bind
      intro parent
      apply (spends_clear_entry (k := 0) _ _).toSteady.bind
      intro cleared
      exact Steady.ite ((spends_add_dir_entry (k := 0) _ _ _).toSteady.map _) (Steady.pure _)

theorem paged_copy_children {copy : String → FsM (Option UInt32)} (h : ∀ name, Paged (copy name))
    (children : List (UInt32 × String)) : Paged (copy_children copy children) := by
  induction children with
  | nil => exact Steady.pure _
  | cons child rest ih => exact (h child.2).bind fun _ => ih

theorem paged_copy_entry (frames : ℕ) :
    ∀ (from_parent to_parent : UInt32) (name dest_name : String),
    Paged (copy_entry frames from_parent to_parent name dest_name) := by
  induction frames with
  | zero => exact fun _ _ _ _ => Steady.throw _
  | succ frames ih =>
    intro from_parent to_parent name dest_name
    apply (paged_find_in_dir _ _).bind
    intro r
    cases r with
    | some ino => exact Steady.pure _
    | none =>
      apply (paged_find_in_dir _ _).bind
      intro r
      cases r with
      | none => exact Steady.pure _
      | some src_ino =>
        refine Steady.ite (Steady.pure _) ?_
        apply (spends_read_inode (k := 0) _).toSteady.bind
        intro inode
        refine Steady.ite ?_ ?_
        · apply (spends_create_dir (k := 0) _ _).toSteady.bind
          intro new_ino
          apply (spends_list_dir (k := 0) _).toSteady.bind
          intro children
          exact (paged_copy_children (fun child => ih src_ino new_ino child child) _).map _
        · apply (paged_read_file _).bind
          intro data
          apply (spends_create_file (k := 0) _ _).toSteady.bind
          intro new_ino
          exact (spends_write_file (k := 0) _ _).toSteady.map _

theorem paged_copy_entry_unique_loop (frames : ℕ) (from_parent to_parent : UInt32)
    (name : String) (tries : ℕ) :
    ∀ n candidate,
      Paged (copy_entry_unique_loop frames from_parent to_parent name tries n candidate) := by
  induction tries with
  | zero => exact fun _ _ => paged_copy_entry _ _ _ _ _
  | succ tries ih =>
    intro n candidate
    apply (paged_copy_entry _ _ _ _ _).bind
    intro r
    cases r with
    | some ino => exact Steady.pure _
    | none => exact ih _ _

/-! ## Without a page -/

/-- Without a page left the call stops. -/
def Needs {α : Type} (x : FsM α) : Prop := ∀ s : Fs, ¬ s.HasPage → ∃ s', x s = .error .oom s'

section

variable {α β : Type} {x : FsM α}

/-- What comes after the first page does not matter. -/
theorem Needs.bind (h : Needs x) (f : α → FsM β) : Needs (x >>= f) := by
  intro s hs
  obtain ⟨s', hrun⟩ := h s hs
  exact ⟨s', bind_of_error hrun⟩

theorem Needs.bumped (h : Needs x) : Needs (bump_generation >>= fun _ => x) :=
  fun _ hs => h _ hs

/-- A call that needs a page and returns has taken one. -/
theorem Needs.pages_lt (h : Needs x) (hx : Paged x) {s s' : Fs} {a : α} (hrun : x s = .ok a s') :
    s.pages < s'.pages := by
  by_contra hle
  -- then it would return where no page is left
  have hlimit := limit_of_free hx (n := 0) hrun (by omega)
  obtain ⟨t, herr⟩ := h _ s.not_hasPage_limit
  exact absurd (hlimit.symm.trans herr) (by simp)

end

theorem needs_read_block (block : ℕ) : Needs (read_block block) := by
  have hpage : Needs page_alloc := fun s hs => ⟨s, page_alloc_oom hs⟩
  exact hpage.bind _

theorem needs_read_inode (ino : UInt32) : Needs (read_inode ino) := (needs_read_block _).bind _

theorem needs_alloc_inode : Needs alloc_inode := ((needs_read_block _).bind _).bind _

theorem needs_list_dir (dir_ino : UInt32) : Needs (list_dir dir_ino) := (needs_read_inode _).bind _

theorem needs_find_in_dir (dir_ino : UInt32) (name : String) : Needs (find_in_dir dir_ino name) :=
  (needs_read_inode _).bind _

theorem needs_write_file (ino : UInt32) (data : List UInt8) : Needs (write_file ino data) :=
  (needs_read_inode _).bind _

theorem needs_read_file (ino : UInt32) : Needs (read_file ino) := (needs_read_inode _).bind _

end HepOS.HepFS
