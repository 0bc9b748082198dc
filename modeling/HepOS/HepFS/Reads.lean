/-
The functions that only read blocks.

What reading a block has and `do` keeps, all of them have: that they leave the disk alone, say, or
that they take pages and give none back.
-/
import HepOS.HepFS.Ops

set_option autoImplicit false

namespace HepOS.HepFS

structure Reading (P : ∀ {α : Type}, FsM α → Prop) : Prop where
  pure : ∀ {α : Type} (a : α), P (Pure.pure a : FsM α)
  throw : ∀ {α : Type} (e : Panic), P (MonadExcept.throw e : FsM α)
  bind : ∀ {α β : Type} {x : FsM α} {f : α → FsM β}, P x → (∀ a, P (f a)) → P (x >>= f)
  read_block : ∀ block, P (read_block block)

namespace Reading

variable {P : ∀ {α : Type}, FsM α → Prop} (h : Reading P)
include h

omit h in
theorem ite {α : Type} {p : Prop} [Decidable p] {x y : FsM α} (hx : P x) (hy : P y) :
    P (if p then x else y) := by
  split
  · exact hx
  · exact hy

theorem read_inode (ino : UInt32) : P (HepFS.read_inode ino) := by
  apply h.bind (h.read_block _)
  intro page
  exact h.pure _

/-! ## Directories -/

theorem scan_dir (test : DirEntry → Bool) (blks : List UInt32) : P (HepFS.scan_dir test blks) := by
  induction blks with
  | nil => exact h.pure _
  | cons blk rest ih =>
    apply h.bind (h.read_block _)
    intro buf
    cases scan_block buf test with
    | none => exact ih
    | some i => exact h.pure _

theorem list_blocks (blks : List UInt32) : ∀ out, P (HepFS.list_blocks blks out) := by
  induction blks with
  | nil => exact fun out => h.pure _
  | cons blk rest ih =>
    intro out
    apply h.bind (h.read_block _)
    intro buf
    exact ih _

theorem list_dir (dir_ino : UInt32) : P (HepFS.list_dir dir_ino) := by
  apply h.bind (h.read_inode _)
  intro inode
  apply ite
  · exact h.throw _
  · exact h.list_blocks _ _

theorem find_in_dir (dir_ino : UInt32) (name : String) : P (HepFS.find_in_dir dir_ino name) := by
  apply h.bind (h.read_inode _)
  intro inode
  apply h.bind (h.scan_dir _ _)
  intro r
  cases r with
  | none | some r => exact h.pure _

theorem lookup_from (parts : List String) : ∀ ino, P (HepFS.lookup_from ino parts) := by
  induction parts with
  | nil => exact fun ino => h.pure _
  | cons part rest ih =>
    intro ino
    apply h.bind (h.find_in_dir _ _)
    intro r
    cases r with
    | none => exact h.pure _
    | some ino => exact ih ino

theorem lookup (path : String) : P (HepFS.lookup path) := h.lookup_from _ _

/-! ## Files -/

theorem read_chunk (blk : UInt32) (left : ℕ) : P (HepFS.read_chunk blk left) := by
  apply h.bind (h.read_block _)
  intro page
  exact h.pure _

theorem read_direct (blks : List UInt32) : ∀ out left, P (HepFS.read_direct blks out left) := by
  induction blks with
  | nil => exact fun out left => h.pure _
  | cons blk rest ih =>
    intro out left
    apply ite
    · exact h.pure _
    · apply h.bind (h.read_chunk _ _)
      intro r
      exact ih _ _

theorem read_table (buf : Block) (idx : List ℕ) : ∀ out left,
    P (HepFS.read_table buf idx out left) := by
  induction idx with
  | nil => exact fun out left => h.pure _
  | cons i rest ih =>
    intro out left
    apply ite
    · exact h.pure _
    apply ite
    · exact h.pure _
    · apply h.bind (h.read_chunk _ _)
      intro r
      exact ih _ _

theorem read_indirect (inode : Inode) (out : List UInt8) (left : ℕ) :
    P (HepFS.read_indirect inode out left) := by
  apply ite
  · apply h.bind (h.read_block _)
    intro buf
    exact h.read_table _ _ _ _
  · exact h.pure _

theorem read_l1_tables (buf : Block) (idx : List ℕ) : ∀ out left,
    P (HepFS.read_l1_tables buf idx out left) := by
  induction idx with
  | nil => exact fun out left => h.pure _
  | cons i rest ih =>
    intro out left
    apply ite
    · exact h.pure _
    apply ite
    · exact h.pure _
    · apply h.bind (h.read_block _)
      intro l1_buf
      apply h.bind (h.read_table _ _ _ _)
      intro r
      exact ih _ _

theorem read_dindirect (inode : Inode) (out : List UInt8) (left : ℕ) :
    P (HepFS.read_dindirect inode out left) := by
  apply ite
  · apply h.bind (h.read_block _)
    intro buf
    exact h.read_l1_tables _ _ _ _
  · exact h.pure _

/-- Everything `read_file` does once it has the inode. -/
theorem read_blocks (inode : Inode) : P (do
    let (out, left) ← HepFS.read_direct (inode.direct.toList.filter (· ≠ 0)) [] inode.size.toNat
    let (out, left) ← HepFS.read_indirect inode out left
    let (out, _) ← HepFS.read_dindirect inode out left
    Pure.pure out) := by
  apply h.bind (h.read_direct _ _ _)
  rintro ⟨out, left⟩
  apply h.bind (h.read_indirect _ _ _)
  rintro ⟨out', left'⟩
  apply h.bind (h.read_dindirect _ _ _)
  rintro ⟨out'', left''⟩
  exact h.pure _

theorem read_file (ino : UInt32) : P (HepFS.read_file ino) := by
  apply h.bind (h.read_inode _)
  intro inode
  apply ite
  · exact h.throw _
  · exact h.read_blocks inode

end Reading

end HepOS.HepFS
