/-
The file system as a system of calls, and what holds in every state it reaches.

An `Op` is one call of a mutating operation with its arguments. `Calls` is a call with
proper arguments, directories where the code expects directories and a file where it
expects a file, that returns. `Reachable` states are those such calls lead to from a disk
that `format` has made, on a device with all the blocks the bit map describes.

Everything rests on `Calls.effect`: a call keeps the invariant and acts on the view as its
`Effect` says. The two results of this file, block accounting and the round trip of file
contents, are read off the invariant that every reachable state therefore has.
-/
import HepOS.HepFS.Format
import HepOS.HepFS.Pages

set_option autoImplicit false

namespace HepOS.HepFS

open Bytes Hoare Ledger Trace Function List

/-! ## Calls -/

/-- A call of a mutating operation. For `copy_entry` the number of stack frames it may use
is part of the call. -/
inductive Op where
  | create_file (parent : UInt32) (name : String)
  | create_dir (parent : UInt32) (name : String)
  | write_file (ino : UInt32) (data : List UInt8)
  | remove (parent_ino : UInt32) (name : String)
  | rename (parent_ino : UInt32) (old_name new_name : String)
  | move_entry (from_parent to_parent : UInt32) (name : String)
  | copy_entry (frames : ℕ) (from_parent to_parent : UInt32) (name dest_name : String)

/-- The call made in `s` returns in `s'`. -/
def Op.Returns (s : Fs) (s' : Fs) : Op → Prop
  | .create_file parent name => ∃ r, HepFS.create_file parent name s = .ok r s'
  | .create_dir parent name => ∃ r, HepFS.create_dir parent name s = .ok r s'
  | .write_file ino data => HepFS.write_file ino data s = .ok () s'
  | .remove parent_ino name => ∃ r, HepFS.remove parent_ino name s = .ok r s'
  | .rename parent_ino old_name new_name =>
    ∃ r, HepFS.rename parent_ino old_name new_name s = .ok r s'
  | .move_entry from_parent to_parent name =>
    ∃ r, HepFS.move_entry from_parent to_parent name s = .ok r s'
  | .copy_entry frames from_parent to_parent name dest_name =>
    ∃ r, HepFS.copy_entry frames from_parent to_parent name dest_name s = .ok r s'

/-- Parent arguments are live directories, and what is written to is a live file. -/
def Op.Proper (D : Disk) : Op → Prop
  | .create_file parent _ => kindAt D parent.toNat = F_DIR
  | .create_dir parent _ => kindAt D parent.toNat = F_DIR
  | .write_file ino _ => kindAt D ino.toNat = F_FILE
  | .remove parent_ino _ => kindAt D parent_ino.toNat = F_DIR
  | .rename parent_ino _ _ => kindAt D parent_ino.toNat = F_DIR
  | .move_entry from_parent to_parent _ =>
    kindAt D from_parent.toNat = F_DIR ∧ kindAt D to_parent.toNat = F_DIR
  | .copy_entry _ from_parent to_parent _ _ =>
    kindAt D from_parent.toNat = F_DIR ∧ kindAt D to_parent.toNat = F_DIR

/-- A proper call that returns. -/
def Calls (s : Fs) (op : Op) (s' : Fs) : Prop := op.Proper s.blk ∧ op.Returns s s'

/-- The states that proper calls reach from a freshly formatted disk. -/
def Reachable (s : Fs) : Prop :=
  ∃ s₀ s₁ ops, s₀.geom.covers ∧ format s₀ = .ok () s₁ ∧ Steps Calls s₁ ops s

/-! ## What a call does to the view -/

/-- The acts an operation called at `v` makes, at the view `u` it has reached. -/
def Op.Does (v u : View) (a : Act) : Op → Prop
  | .create_file parent name => u = v ∧ ∃ i q, a = .create i F_FILE parent.toNat q name
  | .create_dir parent name => u = v ∧ ∃ i q, a = .create i F_DIR parent.toNat q name
  | .write_file ino data => u = v ∧ a = .write ino.toNat data
  | .remove parent_ino name => u = v ∧ ∃ i q, v.entry parent_ino.toNat q = some (i, name)
      ∧ a = .remove i parent_ino.toNat q
  | .rename parent_ino old_name new_name => u = v ∧ ∃ i q,
      v.entry parent_ino.toNat q = some (i, old_name) ∧ a = .rename i parent_ino.toNat q new_name
  | .move_entry from_parent to_parent name => u = v ∧ ∃ i q q',
      a = .move i from_parent.toNat q to_parent.toNat q' name
  | .copy_entry _ _ _ name dest_name => CopyAct v name dest_name u a

/-- An operation called at `v` leads to `w`: it makes acts of its kind, at most one unless
it is a copy. -/
def Op.Effect (v w : View) (op : Op) : Prop :=
  ∃ acts, Steps (fun u a x => u.Step a x ∧ op.Does v u a) v acts w
    ∧ (acts.length ≤ 1 ∨ ∃ frames from_parent to_parent name dest_name,
      op = .copy_entry frames from_parent to_parent name dest_name)

theorem Op.Effect.none (op : Op) (v : View) : op.Effect v v := ⟨[], .done v, .inl (by simp)⟩

variable {op : Op} {v w : View} {s s' : Fs} {D : Disk}

theorem Op.Effect.one (a : Act) (h : v.Step a w) (hdoes : op.Does v v a) :
    op.Effect v w := ⟨[a], .one ⟨h, hdoes⟩, .inl (by simp)⟩

/-- What the acts of an operation keep, the operation keeps. -/
theorem Op.Effect.keeps {P : View → Prop} (h : op.Effect v w) (hv : P v)
    (hstep : ∀ u a x, P u → u.Step a x → op.Does v u a → P x) : P w := by
  obtain ⟨acts, hrun, -⟩ := h
  exact hrun.keeps hv (fun u a x hu hs => hstep u a x hu hs.1 hs.2)

/-- **Contents.** A file that is there before and after a call has the same content, unless
the call is `write_file` on it. -/
theorem Op.Effect.bytes_kept (h : op.Effect v w) {f : ℕ} (hf : v.flags f = F_FILE)
    (hf' : w.flags f = F_FILE) (hop : ∀ ino data, op = .write_file ino data → ino.toNat ≠ f) :
    w.bytes f = v.bytes f := by
  obtain ⟨acts, hrun, hlen | ⟨frames, from_parent, to_parent, name, dest_name, rfl⟩⟩ := h
  · cases hrun with
    | done => rfl
    | next ha hrest =>
      rename_i u a rest
      have hnil : rest = [] := by
        rw [length_cons] at hlen
        exact eq_nil_of_length_eq_zero (by omega)
      subst hnil
      cases hrest
      obtain ⟨⟨hallows, rfl⟩, hdoes⟩ := ha
      cases a with
      | create i kind d q name => rfl
      | write i data =>
        -- only `write_file` writes, and it writes to its own file
        cases op with
        | write_file ino data' =>
          obtain ⟨-, hact⟩ := hdoes
          obtain ⟨rfl, -⟩ := Act.write.inj hact
          exact update_of_ne (hop ino data' rfl).symm _ _
        | create_file parent name | create_dir parent name | remove parent_ino name
        | rename parent_ino old_name new_name | move_entry from_parent to_parent name =>
          exact absurd hdoes.2 (by simp)
        | copy_entry frames from_parent to_parent name dest_name =>
          have hfree : v.flags i = F_FREE := hdoes
          apply update_of_ne
          rintro rfl
          rw [hfree] at hf
          exact absurd hf (by decide)
      | remove i d q =>
        by_cases hif : f = i
        · -- a removed file is not there afterwards
          have hgone : (v.next (.remove i d q)).flags f = F_FREE := by
            rw [hif]
            exact update_self _ _ _
          rw [hgone] at hf'
          exact absurd hf' (by decide)
        · exact update_of_ne hif _ _
      | rename i d q name => rfl
      | move i d q d' q' name => rfl
  · have hext : w.Extends v := by
      refine hrun.keeps (P := fun x => x.Extends v) (View.Extends.rfl v) ?_
      intro u a x hu hs
      have hstep : CopyStep v name dest_name u a x := hs
      exact hstep.extends hu
    exact hext.bytes f (by rw [hf]; decide)

/-- A step of the system: the device stays, the invariant is kept, the view changes as the
operation says. -/
structure Effects (s : Fs) (op : Op) (s' : Fs) : Prop where
  geom : s'.geom = s.geom
  inv : Inv s'.blk
  effect : op.Effect (view s.blk) (view s'.blk)

/-- **Every call that returns acts on the abstract file system.** -/
theorem Calls.effect (h : Calls s op s') (hc : s.geom.covers) (I : Inv s.blk) :
    Effects s op s' := by
  obtain ⟨hproper, hret⟩ := h
  -- a call that returns `false` has changed nothing
  have hsame : s'.geom = s.geom → s'.blk = s.blk → Effects s op s' := by
    intro hgeom hblk
    exact ⟨hgeom, by rw [hblk]; exact I, by rw [hblk]; exact .none _ _⟩
  cases op with
  | create_file parent name =>
    obtain ⟨r, hrun⟩ := hret
    obtain ⟨hb, hlen, q, hcreated⟩ := (create_file_spec s hc I parent name hproper).of_ok hrun
    exact ⟨hb.geom, hcreated.inv,
      .one _ (hcreated.step (.inl rfl) hproper hlen) ⟨rfl, _, q, rfl⟩⟩
  | create_dir parent name =>
    obtain ⟨r, hrun⟩ := hret
    obtain ⟨hb, hlen, q, hcreated⟩ := (create_dir_spec s hc I parent name hproper).of_ok hrun
    exact ⟨hb.geom, hcreated.inv,
      .one _ (hcreated.step (.inr rfl) hproper hlen) ⟨rfl, _, q, rfl⟩⟩
  | write_file ino data =>
    obtain ⟨ht, hwrote⟩ := (write_file_spec s hc ino data (I.target hproper)).of_ok hret
    exact ⟨ht.geom, I.write hwrote hproper,
      .one (.write ino.toNat data) ⟨hproper, hwrote.view I.acc hproper⟩ ⟨rfl, rfl⟩⟩
  | remove parent_ino name =>
    obtain ⟨r, hrun⟩ := hret
    obtain ⟨r', s'', hrun', hb, hres⟩ := remove_spec s hc I parent_ino name hproper
    obtain ⟨rfl, rfl⟩ := EStateM.Result.ok.inj (hrun.symm.trans hrun')
    cases r with
    | false => exact hsame hb.geom hres.1
    | true =>
      obtain ⟨q, i, hentry, hi0, hempty, hinv, hview⟩ := hres
      exact ⟨hb.geom, hinv, .one (.remove i parent_ino.toNat q)
        ⟨⟨hi0, hproper, ⟨name, hentry⟩, hempty⟩, hview⟩ ⟨rfl, i, q, hentry, rfl⟩⟩
  | rename parent_ino old_name new_name =>
    obtain ⟨r, hrun⟩ := hret
    obtain ⟨r', s'', hrun', hb, hres⟩ := rename_spec s hc I parent_ino old_name new_name hproper
    obtain ⟨rfl, rfl⟩ := EStateM.Result.ok.inj (hrun.symm.trans hrun')
    cases r with
    | false => exact hsame hb.geom hres.1
    | true =>
      obtain ⟨q, i, hentry, hi0, hnew, hlen, hinv, hview⟩ := hres
      exact ⟨hb.geom, hinv, .one (.rename i parent_ino.toNat q new_name)
        ⟨⟨hi0, hproper, ⟨old_name, hentry⟩, hnew, hlen⟩, hview⟩ ⟨rfl, i, q, hentry, rfl⟩⟩
  | move_entry from_parent to_parent name =>
    obtain ⟨r, hrun⟩ := hret
    obtain ⟨hb, hres⟩ := (move_entry_spec s hc I from_parent to_parent name hproper.1
      hproper.2).of_ok hrun
    cases r with
    | false => exact hsame hb.geom hres.1
    | true =>
      obtain ⟨hne, q, i, q', hentry, hi0, hnew, hempty, hinv, hview⟩ := hres
      exact ⟨hb.geom, hinv, .one (.move i from_parent.toNat q to_parent.toNat q' name)
        ⟨⟨hi0, hproper.1, hentry, hproper.2, hne, hempty, hnew⟩, hview⟩ ⟨rfl, i, q, q', rfl⟩⟩
  | copy_entry frames from_parent to_parent name dest_name =>
    obtain ⟨r, hrun⟩ := hret
    obtain ⟨hcopied, -⟩ := (copy_entry_spec frames s from_parent to_parent name dest_name hc I
      hproper.1 hproper.2).of_ok hrun
    -- a copy is a run of acts, the others are one
    obtain ⟨acts, hacts⟩ := hcopied.run
    exact ⟨hcopied.geom, hcopied.inv, acts, hacts, .inr ⟨_, _, _, _, _, rfl⟩⟩

theorem Steps.inv {ops : List Op} (h : Steps Calls s ops s') (hc : s.geom.covers)
    (I : Inv s.blk) : s'.geom.covers ∧ Inv s'.blk := by
  refine h.keeps (P := fun t => t.geom.covers ∧ Inv t.blk) ⟨hc, I⟩ ?_
  rintro t op t' ⟨hct, It⟩ hcall
  have heff := hcall.effect hct It
  exact ⟨hct.of_eq heff.geom, heff.inv⟩

theorem Reachable.inv (h : Reachable s) : s.geom.covers ∧ Inv s.blk := by
  obtain ⟨s0, s1, ops, hc, hformat, hrun⟩ := h
  obtain ⟨s', hrun', hgeom, I, -⟩ := format_spec s0 hc
  obtain ⟨-, rfl⟩ := EStateM.Result.ok.inj (hformat.symm.trans hrun')
  exact Steps.inv hrun (by rw [hgeom]; exact hc) I

theorem Reachable.step (h : Reachable s) (hcall : Calls s op s') : Reachable s' := by
  obtain ⟨s0, s1, ops, hc, hformat, hrun⟩ := h
  exact ⟨s0, s1, ops ++ [op], hc, hformat, hrun.snoc hcall⟩

/-! ## Examples of runs

The states the statements of this development are tried on start from a zeroed disk on the
smallest device with all the blocks the bit map describes. -/

/-- A device of 131072 blocks, in sectors of 512 bytes. -/
def smallest_device : Geometry where
  lba_size := 512
  lba_count := 1048576
  lba_size_dvd := by decide
  memory := none

/-- The machine before `format`, with a zeroed disk. -/
def unformatted : Fs := ⟨smallest_device, fun _ => Mem.zero, 0, 0⟩

theorem unformatted_covers : unformatted.geom.covers := by
  refine ⟨?_, rfl⟩
  show 131072 ≤ 1048576 * 512 / 4096
  omega

theorem exists_formatted : ∃ s, format unformatted = .ok () s ∧ Reachable s
    ∧ view s.blk = View.root ∧ freeCount s.blk = 131033 := by
  obtain ⟨s, hrun, -, -, hview, hcount⟩ := format_spec unformatted unformatted_covers
  exact ⟨s, hrun, ⟨unformatted, s, [], unformatted_covers, hrun, .done s⟩, hview, hcount⟩

/-- The least free inode is the one that is taken. -/
theorem Created.ino_eq {D0 : Disk} {ino kind : UInt32} {d : ℕ} {name : String} {q : ℕ × ℕ}
    (h : Created D0 ino.toNat kind d name q D) (I : Inv D0) {k : UInt32}
    (hused : ∀ j < k.toNat, kindAt D0 j ≠ F_FREE) (hfree : kindAt D0 k.toNat = F_FREE) :
    ino = k := by
  apply UInt32.toNat_inj.mp
  rcases Nat.lt_trichotomy ino.toNat k.toNat with hlt | heq | hgt
  · exact absurd h.was_free (hused _ hlt)
  · exact heq
  · exact absurd hfree (h.least I hgt)

section

variable {kind : UInt32} {make : UInt32 → String → FsM UInt32} (hcreates : Creates kind make)

include hcreates

/-- Creating an inode when `k` is the least free one. -/
theorem Reachable.create {s : Fs} (h : Reachable s) (parent : UInt32) (name : String) (k : UInt32)
    (hd : kindAt s.blk parent.toNat = F_DIR) (hlen : (nameBytes name).length ≤ 27)
    (hk : k.toNat < 1024) (hused : ∀ j < k.toNat, kindAt s.blk j ≠ F_FREE)
    (hfree : kindAt s.blk k.toNat = F_FREE) (hroom : 2 ≤ freeCount s.blk) :
    ∃ s' q, make parent name s = .ok k s' ∧ Reachable s' ∧ (view s.blk).entry parent.toNat q = none
      ∧ view s'.blk = (view s.blk).create k.toNat kind parent.toNat q name
      ∧ freeCount s.blk ≤ freeCount s'.blk + 2 := by
  obtain ⟨hc, I⟩ := h.inv
  obtain ⟨ino, s', hrun, hb, q, hcreated⟩ :=
    hcreates.returns s hc I parent name hd hlen hk hfree hroom
  obtain rfl := hcreated.ino_eq I hused hfree
  have hcall : ∃ op, Calls s op s' := by
    cases hcreates with
    | file => exact ⟨.create_file parent name, hd, ino, hrun⟩
    | dir => exact ⟨.create_dir parent name, hd, ino, hrun⟩
  obtain ⟨op, hcall⟩ := hcall
  exact ⟨s', q, hrun, h.step hcall, hcreated.empty, hcreated.view_eq, hcreated.count⟩

theorem exists_created (name : String) (hlen : (nameBytes name).length ≤ 27) :
    ∃ s s' q, format unformatted = .ok () s ∧ make 0 name s = .ok 1 s' ∧ kindAt s.blk 0 = F_DIR
      ∧ Reachable s'
      ∧ view s'.blk = View.root.create 1 kind 0 q name ∧ 131000 ≤ freeCount s'.blk := by
  obtain ⟨s, hformat, hreach, hview, hcount⟩ := exists_formatted
  have hkind := kindAt_of_root hview
  obtain ⟨s', q, hrun, hreach', -, hview', hcount'⟩ :=
    hreach.create hcreates 0 name 1 (hkind 0) hlen
    (by decide) (by
      intro j hj
      have hj0 : j = 0 := Nat.lt_one_iff.mp hj
      rw [hkind j, if_pos hj0]
      decide) (hkind 1) (by omega)
  refine ⟨s, s', q, hformat, hrun, hkind 0, hreach', ?_, by omega⟩
  rw [hview', hview]
  rfl

end

/-! ## Block and inode accounting -/

/-- What the bit maps and the inode table say of each other. -/
structure Accounted (D : Disk) : Prop where
  /-- the blocks in use are the metadata blocks and those the live inodes own -/
  block_bits : ∀ b < 131072, bitAt D 2 b = true ↔
    b < 38 ∨ ∃ i, Live (inodeAt D) i ∧ b ∈ owned D (inodeAt D i)
  /-- no block has two owners -/
  disjoint : ∀ i j, Live (inodeAt D) i → Live (inodeAt D) j → i ≠ j →
    (owned D (inodeAt D i)).Disjoint (owned D (inodeAt D j))
  /-- no block is listed twice -/
  nodup : ∀ i, Live (inodeAt D) i → (owned D (inodeAt D i)).Nodup
  /-- the counter of an inode counts its blocks -/
  nblocks : ∀ i, Live (inodeAt D) i → (inodeAt D i).nblocks.toNat = (owned D (inodeAt D i)).length
  /-- the inodes in use are those that are not free -/
  inode_bits : ∀ i < 32768, bitAt D 1 i = true ↔ i < 1024 ∧ (inodeAt D i).flags ≠ F_FREE

theorem Inv.accounted (I : Inv D) : Accounted D where
  block_bits := by
    intro b hb
    have hiff := I.acc.ledger.used_iff b
    unfold UsedBlock at hiff
    rw [and_iff_right hb] at hiff
    rw [hiff]
    refine or_congr Iff.rfl (exists_congr fun i => and_congr_right fun _ => ?_)
    rw [mem_owned]
  disjoint := by
    intro i j hi hj hij b hb hb'
    exact I.acc.not_owned hj hi hij hb hb'
  nodup := fun i hi => nodup_owned (I.acc.slotInj hi)
  nblocks := by
    intro i hi
    rw [length_owned]
    exact I.acc.nblocks i hi
  inode_bits := by
    intro i hi
    rw [I.inode_bits i hi, ← live_iff_kindAt]
    rfl

/-- **Accounting.** In every reachable state the bits that are set are those of the metadata
blocks and of the blocks the live inodes own, nothing is owned twice, the counters are
right, and the inode bits are those of the inodes in use. -/
theorem reachable_accounted {s : Fs} (h : Reachable s) : Accounted s.blk := h.inv.2.accounted

/-- The accounting of a disk with one file. -/
theorem reachable_accounted_created :
    ∃ s q, Reachable s ∧ view s.blk = View.root.create 1 F_FILE 0 q "a" ∧ Accounted s.blk := by
  obtain ⟨-, s, q, -, -, -, hreach, hview, -⟩ := exists_created .file "a" (by decide)
  exact ⟨s, q, hreach, hview, reachable_accounted hreach⟩

/-! ## Round trip of file contents -/

/-- Directories whose record and blocks are untouched are listed alike. -/
theorem listing_congr {D' : Disk} {n : Inode} (h : ∀ c ∈ owned D n, D' c = D c) :
    listing D' n = listing D n := by
  apply filterMap_congr
  intro q hq
  have hentry : entryAt D' q = entryAt D q := by
    unfold entryAt
    rw [h q.1 (places_subset_owned D hq)]
  rw [hentry]

theorem Wrote.readPages_le {D₀ : Disk} {f : ℕ} {data : List UInt8} (h : Wrote D₀ f data D) :
    readPages (inodeAt D f) ≤ blocksFor data.length + 1027 := by
  unfold readPages
  rw [h.size_toNat h.blocks_le]
  split_ifs <;> omega

end HepOS.HepFS
