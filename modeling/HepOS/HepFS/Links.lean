/-
The operations on abstract file systems, and that they keep every inode linked once.

These are the four ways HepFS changes the directory structure: `create` puts a new inode
into an empty place, `remove` takes an inode out of its place and frees it, `rename` gives
an entry another name, `move` carries an entry to another place. `View.Linked` is kept by
all of them: creation is an allocation in the ledger of links, removal a clearing, and a
move is a clearing followed by an allocation of the same resource.
-/
import HepOS.HepFS.Entry

set_option autoImplicit false

namespace HepOS.HepFS

open Ledger Function

variable {d d' : ℕ} {q q' : ℕ × ℕ} (v : View)

/-! ## The operations -/

/-- Inode `i` becomes a `kind`. -/
def View.setFlags (i : ℕ) (kind : UInt32) : View :=
  { v with flags := update v.flags i kind }

/-- Inode `i` becomes a `kind`, linked as `name` at place `q` of directory `d`. -/
def View.create (i : ℕ) (kind : UInt32) (d : ℕ) (q : ℕ × ℕ) (name : String) : View :=
  (v.setFlags i kind).setEntry d q (some (i, name))

/-- Inode `i`, which is linked at place `q` of directory `d`, is freed. -/
def View.remove (i d : ℕ) (q : ℕ × ℕ) : View :=
  View.setEntry { v.setFlags i F_FREE with bytes := update v.bytes i [] } d q none

/-- The entry at place `q` of directory `d` is carried to place `q'` of directory `d'`. -/
def View.move (i d : ℕ) (q : ℕ × ℕ) (d' : ℕ) (q' : ℕ × ℕ) (name : String) : View :=
  (v.setEntry d q none).setEntry d' q' (some (i, name))

/-- The content of file `i` is replaced. -/
def View.write (i : ℕ) (data : List UInt8) : View :=
  { v with bytes := update v.bytes i data }

/-! ## What the places hold -/

section

variable {v : View} {d : ℕ} {q : ℕ × ℕ} {x : Option (ℕ × String)}

theorem View.entry_setEntry_same (v : View) (d : ℕ) (q : ℕ × ℕ) (x : Option (ℕ × String)) :
    (v.setEntry d q x).entry d q = x := by
  simp [View.setEntry]

theorem View.entry_setEntry_ne (v : View) (x : Option (ℕ × String))
    (h : ¬ (d' = d ∧ q' = q)) : (v.setEntry d q x).entry d' q' = v.entry d' q' := by
  rw [View.setEntry]
  dsimp only
  by_cases hd : d' = d
  · subst hd
    have hq : q' ≠ q := fun hq => h ⟨rfl, hq⟩
    rw [update_self, update_of_ne hq]
  · rw [update_of_ne hd]

theorem View.entry_setEntry (v : View) (d : ℕ) (q : ℕ × ℕ) (x : Option (ℕ × String)) (d' : ℕ)
    (q' : ℕ × ℕ) :
    (v.setEntry d q x).entry d' q' = if d' = d ∧ q' = q then x else v.entry d' q' := by
  by_cases h : d' = d ∧ q' = q
  · rw [if_pos h, h.1, h.2, View.entry_setEntry_same]
  · rw [if_neg h, View.entry_setEntry_ne v x h]

theorem View.flags_setEntry (v : View) (d : ℕ) (q : ℕ × ℕ) (x : Option (ℕ × String)) :
    (v.setEntry d q x).flags = v.flags := rfl

theorem View.flags_create (v : View) (i : ℕ) (kind : UInt32) (d : ℕ) (q : ℕ × ℕ) (name : String)
    (j : ℕ) : (v.create i kind d q name).flags j = if j = i then kind else v.flags j :=
  update_apply _ _ _ _

theorem View.entry_create (v : View) (i : ℕ) (kind : UInt32) (d : ℕ) (q : ℕ × ℕ) (name : String)
    (d' : ℕ) (q' : ℕ × ℕ) : (v.create i kind d q name).entry d' q'
      = if d' = d ∧ q' = q then some (i, name) else v.entry d' q' :=
  View.entry_setEntry _ _ _ _ _ _

theorem View.entry_create_iff {v : View} {i j d d' : ℕ} {kind : UInt32} {q t : ℕ × ℕ}
    {name n : String} :
    (v.create i kind d q name).entry d' t = some (j, n)
      ↔ if d' = d ∧ t = q then j = i ∧ n = name else v.entry d' t = some (j, n) := by
  rw [View.entry_create]
  split_ifs
  · rw [Option.some.injEq, Prod.mk.injEq, eq_comm, @eq_comm _ name]
  · exact Iff.rfl

theorem View.flags_remove (v : View) (i d : ℕ) (q : ℕ × ℕ) (j : ℕ) :
    (v.remove i d q).flags j = if j = i then F_FREE else v.flags j :=
  update_apply _ _ _ _

theorem View.held_setEntry_same (v : View) (d : ℕ) (q : ℕ × ℕ) (x : Option (ℕ × String)) :
    (v.setEntry d q x).held d q = (x.map Prod.fst).getD 0 := by
  rw [View.held, View.entry_setEntry_same]

theorem View.held_setEntry_ne (v : View) (x : Option (ℕ × String))
    (h : ¬ (d' = d ∧ q' = q)) : (v.setEntry d q x).held d' q' = v.held d' q' := by
  rw [View.held, View.held, View.entry_setEntry_ne v x h]

theorem View.held_of_entry {i : ℕ} {name : String} (h : v.entry d q = some (i, name)) :
    v.held d q = i := by
  rw [View.held, h]
  rfl

theorem View.held_of_none (h : v.entry d q = none) : v.held d q = 0 := by
  rw [View.held, h]
  rfl

end

/-! ## Links are kept -/

section

variable {v : View} {i d : ℕ} {q : ℕ × ℕ} {name : String}

theorem View.Linked.of_entry (h : v.Linked) (hd : v.flags d = F_DIR)
    (he : v.entry d q = some (i, name)) (hi0 : i ≠ 0) : v.flags i ≠ F_FREE := by
  have hheld := View.held_of_entry he
  have := h.ledger.used_of_held hd (by rw [hheld]; exact hi0)
  rwa [hheld] at this

theorem View.Linked.create (h : v.Linked) {kind : UInt32} (hkind : kind = F_FILE ∨ kind = F_DIR)
    (hi : v.flags i = F_FREE) (hd : v.flags d = F_DIR) (hq : v.entry d q = none)
    (hnone : ∀ q, v.entry i q = none) : (v.create i kind d q name).Linked := by
  have hi0 : i ≠ 0 := by
    rintro rfl
    rw [h.root] at hi
    exact absurd hi (by decide)
  have hfree : kind ≠ F_FREE := by
    rcases hkind with rfl | rfl
    · decide
    · decide
  have hdi : d ≠ i := by
    rintro rfl
    rw [hi] at hd
    exact absurd hd (by decide)
  have hflags := v.flags_create i kind d q name
  -- the new inode joins as an owner if it is a directory; it holds nothing yet
  have hown : Consistent (fun j => (v.create i kind d q name).flags j = F_DIR) v.held
      (fun j => v.flags j ≠ F_FREE) (· = 0) := by
    rcases hkind with rfl | rfl
    · refine h.ledger.congr ?_ (fun _ _ _ => rfl) (fun _ => Iff.rfl)
      intro j
      rw [hflags]
      by_cases hji : j = i
      · rw [if_pos hji, hji, hi]
        exact iff_of_false (by decide) (by decide)
      · rw [if_neg hji]
    · refine h.ledger.enrol (i := i) ?_ (fun _ _ _ => rfl) ?_
      · intro j
        rw [hflags]
        by_cases hji : j = i
        · simp [hji]
        · simp [hji]
      · intro t
        exact View.held_of_none (hnone t)
  refine ⟨?_, ?_⟩
  · rw [hflags, if_neg (Ne.symm hi0)]
    exact h.root
  · refine hown.alloc ?_ hi0 (not_not.mpr hi) ?_ ?_ ?_
      (View.held_of_none hq) ?_
    · rw [hflags, if_neg hdi]
      exact hd
    · rw [View.create, View.held_setEntry_same]
      rfl
    · intro t ht
      rw [View.create, View.held_setEntry_ne _ _ (fun hc => ht hc.2)]
      rfl
    · intro j _ hjd t
      rw [View.create, View.held_setEntry_ne _ _ (fun hc => hjd hc.1)]
      rfl
    · intro c
      rw [hflags]
      by_cases hci : c = i
      · simp [hci, hfree]
      · simp [hci]

theorem View.Linked.remove (h : v.Linked) (hi0 : i ≠ 0) (hd : v.flags d = F_DIR)
    (hq : v.entry d q = some (i, name)) (hempty : v.flags i = F_DIR → ∀ t, v.entry i t = none) :
    (v.remove i d q).Linked := by
  have hheld := View.held_of_entry hq
  have hne : v.held d q ≠ 0 := by
    rw [hheld]
    exact hi0
  have hdi : d ≠ i := by
    rintro rfl
    rw [hempty hd q] at hq
    simp at hq
  have hflags := v.flags_remove i d q
  have hslots : ∀ t, t ≠ q → (v.remove i d q).held d t = v.held d t := by
    intro t ht
    rw [View.remove, View.held_setEntry_ne _ _ (fun hc => ht hc.2)]
    rfl
  have hothers : ∀ j, j ≠ d → ∀ t, (v.remove i d q).held j t = v.held j t := by
    intro j hjd t
    rw [View.remove, View.held_setEntry_ne _ _ (fun hc => hjd hc.1)]
    rfl
  -- first the entry goes, with the old owners; then the inode, if it was one
  have hclear : Consistent (fun j => v.flags j = F_DIR) (v.remove i d q).held
      (fun j => (v.remove i d q).flags j ≠ F_FREE) (· = 0) := h.ledger.clear hd hne
    (by rw [View.remove, View.held_setEntry_same]; rfl) hslots (fun j _ hjd => hothers j hjd)
    (by
      intro c
      rw [hflags, hheld]
      by_cases hci : c = i
      · simp [hci]
      · simp [hci])
  refine ⟨?_, ?_⟩
  · rw [hflags, if_neg (Ne.symm hi0)]
    exact h.root
  · by_cases hdir : v.flags i = F_DIR
    · -- the owner that leaves holds nothing
      refine hclear.release hdir ?_ (fun _ _ _ _ => rfl) ?_
      · intro j
        rw [hflags]
        split_ifs with hji
        · exact iff_of_false (by decide) (fun hc => hc.2 hji)
        · exact ⟨fun hj => ⟨hj, hji⟩, fun hj => hj.1⟩
      · intro c
        refine ⟨fun hc => ⟨hc, ?_⟩, fun hc => hc.1⟩
        rintro ⟨t, ht, hc0⟩
        rw [hothers i (Ne.symm hdi), View.held_of_none (hempty hdir t)] at ht
        exact hc0 ht.symm
    · refine hclear.congr ?_ (fun _ _ _ => rfl) (fun _ => Iff.rfl)
      intro j
      rw [hflags]
      by_cases hji : j = i
      · rw [if_pos hji, hji]
        exact iff_of_false (by decide) hdir
      · rw [if_neg hji]

theorem View.Linked.rename (h : v.Linked) {new_name : String}
    (hq : v.entry d q = some (i, name)) : (v.setEntry d q (some (i, new_name))).Linked := by
  refine ⟨h.root, h.ledger.congr (fun _ => Iff.rfl) ?_ (fun _ => Iff.rfl)⟩
  intro j _ t
  by_cases hc : j = d ∧ t = q
  · rw [hc.1, hc.2, View.held_setEntry_same, View.held_of_entry hq]
    rfl
  · rw [View.held_setEntry_ne _ _ hc]

theorem View.Linked.move (h : v.Linked) {new_name : String} (hi0 : i ≠ 0)
    (hd : v.flags d = F_DIR) (hq : v.entry d q = some (i, name)) (hd' : v.flags d' = F_DIR)
    (hdd : d ≠ d') (hq' : v.entry d' q' = none) : (v.move i d q d' q' new_name).Linked := by
  have hheld := View.held_of_entry hq
  have hne : v.held d q ≠ 0 := by
    rw [hheld]
    exact hi0
  have hlive := h.of_entry hd hq hi0
  -- in between the inode is in no place, so count it as unused there
  have hmid : Consistent (fun j => v.flags j = F_DIR) (v.setEntry d q none).held
      (fun j => v.flags j ≠ F_FREE ∧ j ≠ i) (· = 0) := h.ledger.clear hd hne
    (by rw [View.held_setEntry_same]; rfl)
    (fun t ht => View.held_setEntry_ne _ _ (fun hc => ht hc.2))
    (fun j _ hjd t => View.held_setEntry_ne _ _ (fun hc => hjd hc.1))
    (by intro c; rw [hheld])
  refine ⟨h.root, ?_⟩
  refine hmid.alloc (s := q') hd' hi0 (fun hc => hc.2 rfl) ?_ ?_ ?_ ?_ ?_
  · rw [View.move, View.held_setEntry_same]
    rfl
  · intro t ht
    rw [View.move, View.held_setEntry_ne _ _ (fun hc => ht hc.2)]
  · intro j _ hjd t
    rw [View.move, View.held_setEntry_ne _ _ (fun hc => hjd hc.1)]
  · rw [View.held_setEntry_ne _ _ (fun hc => hdd hc.1.symm)]
    exact View.held_of_none hq'
  · intro c
    show v.flags c ≠ F_FREE ↔ _
    by_cases hci : c = i
    · simp [hci, hlive]
    · simp [hci]

end

/-! ## The whole invariant of a disk -/

/-- What holds of the disk between operations. -/
structure Inv (D : Disk) : Prop where
  acc : Acc D (inodeAt D)
  inode_bits : ∀ i < 32768, bitAt D 1 i = true ↔ kindAt D i ≠ F_FREE
  linked : (view D).Linked

theorem Inv.live_of_entry {D : Disk} (h : Inv D) {i : ℕ} {name : String}
    (he : (view D).entry d q = some (i, name)) : Live (inodeAt D) i := by
  obtain ⟨hd, -, hne, hi, -⟩ := view_entry_some.mp he
  rw [live_iff_kindAt]
  refine h.linked.of_entry hd he ?_
  rw [← hi]
  exact toNat_ne_zero.mpr hne

/-- A live file is one that `read_file` and `write_file` are specified for. -/
theorem Inv.target {s : Fs} (I : Inv s.blk) {f : ℕ} (hf : kindAt s.blk f = F_FILE) :
    Target s (inodeAt s.blk) f := by
  have hlive := live_of_file hf
  exact ⟨I.acc, hlive, by rw [← kindAt_of_lt _ hlive.1]; exact hf⟩

end HepOS.HepFS
