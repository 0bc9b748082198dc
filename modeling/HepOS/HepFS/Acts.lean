/-
The abstract machine: what HepFS does, one change at a time.

An `Act` is one change of an abstract file system. `Allows` is what is true whenever HepFS
makes that change, `next` is what the change does. Every operation of `hepfs.rs` is a run of
this machine: most of them are one act or none, and `copy_entry` is as many as there are
entries in what it copies. Nothing here says that a moved directory does not end up below
itself or that a name is new; the guards say what the code makes sure of and no more.
-/
import HepOS.HepFS.Links
import HepOS.Lib.Trace

set_option autoImplicit false

namespace HepOS.HepFS

open Bytes Ledger Trace Function

variable {v w : View} {i : ℕ}

/-! ## Acts -/

inductive Act where
  /-- the free inode `i` becomes a `kind`, linked as `name` at place `q` of `d` -/
  | create (i : ℕ) (kind : UInt32) (d : ℕ) (q : ℕ × ℕ) (name : String)
  /-- the content of the file `i` is replaced -/
  | write (i : ℕ) (data : List UInt8)
  /-- the inode `i`, linked at place `q` of `d`, is freed -/
  | remove (i d : ℕ) (q : ℕ × ℕ)
  /-- the inode `i`, linked at place `q` of `d`, gets another name -/
  | rename (i d : ℕ) (q : ℕ × ℕ) (name : String)
  /-- the entry for `i` goes from place `q` of `d` to place `q'` of `d'` -/
  | move (i d : ℕ) (q : ℕ × ℕ) (d' : ℕ) (q' : ℕ × ℕ) (name : String)

/-- No entry of `d` has this name. -/
def View.Unnamed (v : View) (d : ℕ) (name : String) : Prop :=
  ∀ q i, v.entry d q ≠ some (i, name)

/-- What holds when HepFS makes the change. -/
def View.Allows (v : View) : Act → Prop
  | .create i kind d q name => (kind = F_FILE ∨ kind = F_DIR) ∧ v.flags i = F_FREE
      ∧ v.flags d = F_DIR ∧ v.entry d q = none ∧ (∀ t, v.entry i t = none) ∧ v.bytes i = []
      ∧ (nameBytes name).length ≤ 27
  | .write i _ => v.flags i = F_FILE
  | .remove i d q => i ≠ 0 ∧ v.flags d = F_DIR ∧ (∃ name, v.entry d q = some (i, name))
      ∧ (v.flags i = F_DIR → ∀ t, v.entry i t = none)
  | .rename i d q name => i ≠ 0 ∧ v.flags d = F_DIR ∧ (∃ old, v.entry d q = some (i, old))
      ∧ v.Unnamed d name ∧ (nameBytes name).length ≤ 27
  | .move i d q d' q' name => i ≠ 0 ∧ v.flags d = F_DIR ∧ v.entry d q = some (i, name)
      ∧ v.flags d' = F_DIR ∧ d ≠ d' ∧ v.entry d' q' = none ∧ v.Unnamed d' name

def View.next (v : View) : Act → View
  | .create i kind d q name => v.create i kind d q name
  | .write i data => v.write i data
  | .remove i d q => v.remove i d q
  | .rename i d q name => v.setEntry d q (some (i, name))
  | .move i d q d' q' name => v.move i d q d' q' name

/-- One step of the abstract machine. -/
def View.Step (v : View) (a : Act) (w : View) : Prop := v.Allows a ∧ w = v.next a

theorem View.Linked.write (h : v.Linked) (i : ℕ) (data : List UInt8) :
    (v.write i data).Linked := ⟨h.root, h.ledger⟩

/-- **Every act keeps every inode linked once.** -/
theorem View.Step.linked {a : Act} (h : v.Step a w) (hv : v.Linked) : w.Linked := by
  obtain ⟨hallows, rfl⟩ := h
  cases a with
  | create i kind d q name =>
    obtain ⟨hkind, hfree, hd, hempty, hnone, -⟩ := hallows
    exact hv.create hkind hfree hd hempty hnone
  | write i data => exact hv.write i data
  | remove i d q =>
    obtain ⟨hi0, hd, ⟨name, hentry⟩, hempty⟩ := hallows
    exact hv.remove hi0 hd hentry hempty
  | rename i d q name =>
    obtain ⟨-, -, ⟨old, hentry⟩, -⟩ := hallows
    exact hv.rename hentry
  | move i d q d' q' name =>
    obtain ⟨hi0, hd, hentry, hd', hne, hempty, -⟩ := hallows
    exact hv.move hi0 hd hentry hd' hne hempty

/-! ## Views that only grow -/

/-- `w` has everything `v` has: inodes keep their use and content, entries stay. -/
structure View.Extends (w v : View) : Prop where
  flags : ∀ i, v.flags i ≠ F_FREE → w.flags i = v.flags i
  bytes : ∀ i, v.flags i ≠ F_FREE → w.bytes i = v.bytes i
  entry : ∀ d q x, v.entry d q = some x → w.entry d q = some x

theorem View.Extends.rfl (v : View) : v.Extends v :=
  ⟨fun _ _ => Eq.refl _, fun _ _ => Eq.refl _, fun _ _ _ h => h⟩

theorem View.Extends.free (h : w.Extends v) (hi : w.flags i = F_FREE) : v.flags i = F_FREE := by
  by_contra hne
  rw [h.flags i hne] at hi
  exact hne hi

theorem View.Extends.dir (h : w.Extends v) (hi : v.flags i = F_DIR) : w.flags i = F_DIR := by
  rw [h.flags i (by rw [hi]; decide), hi]

theorem View.Extends.create {u : View} (h : u.Extends v) {kind : UInt32} {d : ℕ}
    {q : ℕ × ℕ} {name : String} (hfree : u.flags i = F_FREE) (hempty : u.entry d q = none) :
    (u.create i kind d q name).Extends v := by
  have hne : ∀ j, v.flags j ≠ F_FREE → j ≠ i := by
    rintro j hj rfl
    exact hj (h.free hfree)
  refine ⟨?_, h.bytes, ?_⟩
  · intro j hj
    rw [View.flags_create, if_neg (hne j hj)]
    exact h.flags j hj
  · intro d' q' x hx
    have hu := h.entry d' q' x hx
    rw [View.create, View.entry_setEntry_ne]
    · exact hu
    · rintro ⟨rfl, rfl⟩
      rw [hempty] at hu
      simp at hu

theorem View.Extends.write {u : View} (h : u.Extends v) (hfree : v.flags i = F_FREE)
    (data : List UInt8) : (u.write i data).Extends v := by
  refine ⟨h.flags, ?_, h.entry⟩
  intro j hj
  have hne : j ≠ i := by
    rintro rfl
    exact hj hfree
  exact (update_of_ne hne _ _).trans (h.bytes j hj)

/-! ## What `write_file` does to the view -/

/-- A write that returned did not exceed the pointers of an inode. -/
theorem Wrote.blocks_le {D₀ D : Disk} {f : ℕ} {data : List UInt8} (h : Wrote D₀ f data D) :
    blocksFor data.length ≤ 1049612 := by
  by_contra hgt
  have hslot := (h.data 1049612 (by omega)).1
  have hmem := mem_allSlots_data_iff.mp (mem_allSlots_of_ne_zero hslot)
  omega

section

variable {D₀ D : Disk} {f : ℕ} {data : List UInt8}

theorem Wrote.kind (h : Wrote D₀ f data D) (hf : kindAt D₀ f = F_FILE) : kindAt D f = F_FILE := by
  have hlt := (live_of_file hf).1
  rw [kindAt_of_lt _ hlt] at hf ⊢
  rw [h.flags, hf]

theorem Wrote.apply_other (h : Wrote D₀ f data D) (A : Acc D₀ (inodeAt D₀))
    (hf : Live (inodeAt D₀) f) (hi : Live (inodeAt D₀) i) (hne : i ≠ f) {c : ℕ}
    (hc : c ∈ owned D₀ (inodeAt D₀ i)) : D c = D₀ c := by
  have hused : UsedBlock D₀ c := by
    obtain ⟨s, rfl, hs⟩ := mem_owned.mp hc
    exact A.ledger.used_of_held hi hs
  exact h.frame c (A.owned_range hi hc).1 hused (A.not_owned hf hi hne hc)

/-- **`write_file` replaces the content of the file and nothing else.** -/
theorem Wrote.view (h : Wrote D₀ f data D) (A : Acc D₀ (inodeAt D₀))
    (hf : kindAt D₀ f = F_FILE) : view D = (HepFS.view D₀).write f data := by
  have hlive := live_of_file hf
  have hkind := h.kind hf
  have hdir : ∀ E : Disk, kindAt E f = F_FILE → (HepFS.view E).entry f = fun _ => none := by
    intro E hE
    funext q
    exact view_entry_of_not_dir (by rw [hE]; decide) q
  rw [view_update A h.other (fun i hi hne c hc => h.apply_other A hlive hi hne hc), View.write]
  refine View.ext ?_ ?_ ?_
  · dsimp only
    rw [hkind, ← hf]
    exact update_eq_self f _
  · dsimp only
    rw [hdir D hkind, ← hdir D₀ hf]
    exact update_eq_self f _
  · dsimp only
    rw [view_bytes_of_file hkind, h.content (live_of_file hkind) h.blocks_le]

theorem Inv.write (I : Inv D₀) (h : Wrote D₀ f data D) (hf : kindAt D₀ f = F_FILE) : Inv D := by
  have hview := h.view I.acc hf
  refine ⟨h.acc, ?_, ?_⟩
  · intro j hj
    rw [bitAt_congr (h.low (1 + j / 32768) (by omega)), ← view_flags, hview]
    exact I.inode_bits j hj
  · rw [hview]
    exact I.linked.write f data

end

end HepOS.HepFS
