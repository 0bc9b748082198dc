/-
What a copy uses up.

An inode for everything it creates, the blocks of the contents with their tables, and the
blocks of the directories: the first one when the directory is made, another one whenever an
entry finds no empty place. `grow` counts the latter for a directory with so many empty places
and so many entries to come.
-/
import HepOS.HepFS.Sources

set_option autoImplicit false

namespace HepOS.HepFS

open Bytes Hoare Ledger Trace List

/-! ## Empty places -/

/-- The places of a directory without an entry. -/
def emptyPlaces (D : Disk) (n : Inode) : List (ℕ × ℕ) :=
  (places n).filter fun q => (entryAt D q).inode = 0

/-- How many entries the directory `d` takes before it needs another block. -/
def freePlaces (D : Disk) (d : ℕ) : ℕ := (emptyPlaces D (inodeAt D d)).length

/-- The empty places after one more entry. -/
def placesAfter (f : ℕ) : ℕ := if f = 0 then 127 else f - 1

/-- The blocks a directory with `f` empty places takes for `n` more entries. -/
def grow (f n : ℕ) : ℕ := (n - f + 127) / 128

theorem grow_succ (f n : ℕ) : grow f (n + 1) = grow f 1 + grow (placesAfter f) n := by
  unfold grow placesAfter
  split
  · omega
  · omega

theorem grow_anti {f f' : ℕ} (h : f ≤ f') (n : ℕ) : grow f' n ≤ grow f n := by
  unfold grow
  omega

section

variable {D D₀ : Disk} {d : ℕ} {q : ℕ × ℕ}

theorem mem_emptyPlaces {n : Inode} : q ∈ emptyPlaces D n ↔ q ∈ places n
    ∧ (entryAt D q).inode = 0 := by
  simp [emptyPlaces]

theorem freePlaces_eq_zero : freePlaces D d = 0 ↔ NoPlace D (inodeAt D d) := by
  rw [freePlaces, length_eq_zero_iff, eq_nil_iff_forall_not_mem]
  refine forall_congr' fun q => ?_
  rw [mem_emptyPlaces]
  exact not_and

theorem empty_iff (hd : kindAt D d = F_DIR) (hq : q ∈ places (inodeAt D d)) :
    (entryAt D q).inode = 0 ↔ (view D).entry d q = none := by
  constructor
  · intro h0
    rw [Option.eq_none_iff_forall_ne_some]
    rintro ⟨i, name⟩ he
    exact (view_entry_some.mp he).2.2.1 h0
  · intro hnone
    by_contra hne
    have he := view_entry_some.mpr ⟨hd, hq, hne, rfl, rfl⟩
    rw [hnone] at he
    simp at he

theorem Kept.freePlaces {D' : Disk} {touched : ℕ → Prop} (K : Kept D D' touched)
    (hd : Live (inodeAt D) d) (ht : ¬ touched d) : freePlaces D' d = freePlaces D d := by
  have hsame : emptyPlaces D' (inodeAt D d) = emptyPlaces D (inodeAt D d) := by
    refine filter_congr ?_
    intro q hq
    rw [entryAt, entryAt, K.blocks d hd ht _ (places_subset_owned D hq)]
  rw [HepFS.freePlaces, HepFS.freePlaces, K.record d hd ht, hsame]

/-- A list of empty places is not longer than the number of them. -/
theorem length_le_freePlaces {l : List (ℕ × ℕ)} (hnodup : l.Nodup)
    (h : ∀ q ∈ l, q ∈ places (inodeAt D d) ∧ (entryAt D q).inode = 0) : l.length ≤ freePlaces D d :=
  (subperm_of_subset hnodup fun q hq => mem_emptyPlaces.mpr (h q hq)).length_le

theorem nodup_block (b : ℕ) : ((List.range 128).map fun x => (b, x)).Nodup :=
  nodup_range.map fun _ _ h => (Prod.mk.inj h).2

theorem Stores.freePlaces {e : DirEntry} (h : Stores D₀ d q e D) (A : Acc D₀ (inodeAt D₀))
    (hd : kindAt D₀ d = F_DIR) : placesAfter (freePlaces D₀ d) ≤ freePlaces D d := by
  have hlive := live_of_dir hd
  obtain ⟨hview, hnone⟩ := h.view_eq hd
  have hd' : kindAt D d = F_DIR := by
    rw [← view_flags, hview]
    exact hd
  have hempty : ∀ t, t ≠ q → t ∈ places (inodeAt D d) → (view D₀).entry d t = none →
      (entryAt D t).inode = 0 := by
    intro t htq ht hold
    rw [empty_iff hd' ht, hview, View.entry_setEntry_ne _ _ (fun hc => htq hc.2)]
    exact hold
  rcases h.bits with ⟨hq, -⟩ | ⟨hfull, b, hb, ⟨j, hj, hslot⟩, -⟩
  · -- no new block: the other empty places are still there
    have hq0 : q ∈ emptyPlaces D₀ (inodeAt D₀ d) :=
      mem_emptyPlaces.mpr ⟨hq, (empty_iff hd hq).mpr hnone⟩
    have hnodup : (emptyPlaces D₀ (inodeAt D₀ d)).Nodup :=
      (nodup_placesOf (A.nodup_blocks hlive)).filter _
    have hle := length_le_freePlaces (hnodup.erase q) (by
      intro t ht
      obtain ⟨htq, ht0⟩ := hnodup.mem_erase_iff.mp ht
      obtain ⟨hplace, h0⟩ := mem_emptyPlaces.mp ht0
      have hplace' : t ∈ places (inodeAt D d) := by
        obtain ⟨hx, hne, j, hj, hslot⟩ := (mem_places).mp hplace
        exact (mem_places).mpr ⟨hx, hne, j, hj, by rw [h.slots _ (by rw [hslot]; exact hne), hslot]⟩
      exact ⟨hplace', hempty t htq hplace' ((empty_iff hd hplace).mp h0)⟩)
    rw [length_erase_of_mem hq0] at hle
    have hpos := length_pos_of_mem hq0
    unfold placesAfter
    rw [if_neg (by rw [HepFS.freePlaces]; omega)]
    exact hle
  · -- the new block is empty but for the entry
    have hge := hb.ge
    have hzero := freePlaces_eq_zero.mpr hfull
    rw [placesAfter, if_pos hzero]
    have hnodup := (nodup_block b).erase q
    refine le_trans ?_ (length_le_freePlaces hnodup ?_)
    · have hlen := le_length_erase (l := (List.range 128).map fun x => (b, x)) (a := q)
      simpa using hlen
    · intro t ht
      obtain ⟨htq, hmem⟩ := (nodup_block b).mem_erase_iff.mp ht
      obtain ⟨x, hx, rfl⟩ := mem_map.mp hmem
      have hplace : (b, x) ∈ places (inodeAt D d) :=
        (mem_places).mpr ⟨mem_range.mp hx, by show b ≠ 0; omega, j, hj, hslot⟩
      refine ⟨hplace, hempty _ htq hplace ?_⟩
      rw [Option.eq_none_iff_forall_ne_some]
      rintro ⟨i, name⟩ he
      exact A.owned_ne_fresh hlive hb (places_subset_owned D₀ (view_entry_some.mp he).2.1) rfl

theorem Stores.takes {e : DirEntry} (h : Stores D₀ d q e D) :
    freeCount D₀ ≤ freeCount D + grow (HepFS.freePlaces D₀ d) 1 := by
  rcases h.bits with ⟨-, hbits⟩ | ⟨hfull, b, hb, -, hbits⟩
  · rw [freeCount_congr hbits]
    omega
  · rw [← freeCount_of_set hb.mem hbits, freePlaces_eq_zero.mpr hfull]
    exact le_rfl

end

theorem freePlaces_newDir {D : Disk} {i : ℕ} {b : UInt32} (I : Inv D) (hi : FreshInode D i)
    (hb : Fresh D b.toNat) : 128 ≤ freePlaces (newDir D i b) i := by
  have hge := hb.ge
  have hfree := I.free_of_fresh hi
  have hview := I.view_newDir hi hb
  obtain ⟨A, -, hbare⟩ := I.bare_newDir hi
  have hlive := live_of_dir hbare
  have hdir : kindAt (newDir D i b) i = F_DIR := by
    rw [← view_flags, hview]
    exact Function.update_self _ _ _
  have hslot : slotOf (newDir D i b) (inodeAt (newDir D i b) i) (.data 0) = b.toNat := by
    rw [newDir, A.slotOf_growDir hlive (by omega) (hb.newInode hi _) (next_direct (by omega)
      direct_bare_newDir (fun i hi => absurd hi (Nat.not_lt_zero i))), Function.update_self]
  have hle := length_le_freePlaces (nodup_block b.toNat) (by
    intro t ht
    obtain ⟨x, hx, rfl⟩ := mem_map.mp ht
    have hplace : (b.toNat, x) ∈ places (inodeAt (newDir D i b) i) :=
      (mem_places).mpr
        ⟨mem_range.mp hx, by show b.toNat ≠ 0; omega, 0, by omega, hslot⟩
    refine ⟨hplace, (empty_iff hdir hplace).mpr ?_⟩
    rw [hview]
    exact view_entry_of_not_dir (by rw [hfree]; decide) _)
  simpa using hle

/-! ## Free inodes -/

/-- The number of inodes that are not in use. -/
def freeInodes (D : Disk) : ℕ := ((Finset.range 1024).filter fun i => kindAt D i = F_FREE).card

theorem freeInodes_congr {D D' : Disk} (h : (view D').flags = (view D).flags) :
    freeInodes D' = freeInodes D := by
  have hkind : ∀ i, kindAt D' i = kindAt D i := fun i => by rw [← view_flags, h, view_flags]
  rw [freeInodes, freeInodes]
  simp only [hkind]

theorem exists_free_of_freeInodes {D : Disk} (h : 0 < freeInodes D) :
    ∃ i < 1024, kindAt D i = F_FREE := by
  obtain ⟨i, hi⟩ := Finset.card_pos.mp h
  rw [Finset.mem_filter, Finset.mem_range] at hi
  exact ⟨i, hi⟩

theorem Created.freeInodes {D₀ D : Disk} {i d : ℕ} {kind : UInt32} {name : String} {q : ℕ × ℕ}
    (h : Created D₀ i kind d name q D) (hkind : kind ≠ F_FREE) :
    freeInodes D₀ = freeInodes D + 1 := by
  have hflags : ∀ j, kindAt D j = if j = i then kind else kindAt D₀ j := by
    intro j
    rw [← view_flags, h.view_eq, View.flags_create]
    rfl
  have hmem : i ∈ (Finset.range 1024).filter fun i => kindAt D₀ i = F_FREE :=
    Finset.mem_filter.mpr ⟨Finset.mem_range.mpr h.fresh.lt, h.was_free⟩
  have herase : ((Finset.range 1024).filter fun i => kindAt D i = F_FREE)
      = ((Finset.range 1024).filter fun i => kindAt D₀ i = F_FREE).erase i := by
    ext j
    rw [Finset.mem_erase, Finset.mem_filter, Finset.mem_filter, hflags]
    by_cases hji : j = i
    · simp [hji, hkind]
    · simp [hji]
  have hpos := Finset.card_pos.mpr ⟨i, hmem⟩
  rw [HepFS.freeInodes, HepFS.freeInodes, herase, Finset.card_erase_of_mem hmem]
  omega

/-! ## The sums -/

/-- The blocks for one inode of the source: the content and its tables, or the directory. -/
def ownBlocks (D : Disk) (x : ℕ) : ℕ :=
  if kindAt D x = F_DIR then 1 + grow 128 (firsts [] (children D x)).length
  else (slotsFor (blocksFor (content D (inodeAt D x)).length)).length

/-- The inodes a copy of `x` takes. -/
def copyInodes (D : Disk) (k x : ℕ) : ℕ := treeSum D (fun _ => 1) k x

/-- The blocks a copy of `x` takes, without those of the directory it is put in. -/
def copyBlocks (D : Disk) (k x : ℕ) : ℕ := treeSum D (ownBlocks D) k x

/-- The pages for one inode of the source: the checks, the creation, and what is read and
written, or a look for each entry. -/
def ownPages (D : Disk) (x : ℕ) : ℕ :=
  if kindAt D x = F_DIR then 147 + 13 * (children D x).length
  else 128 + readPages (inodeAt D x) + writePages (blocksFor (content D (inodeAt D x)).length)

/-- The pages a copy of `x` may take. -/
def copyPages (D : Disk) (k x : ℕ) : ℕ := treeSum D (ownPages D) k x

/-- Inodes and blocks suffice for a copy of `x` into the directory `d`. -/
def FitsCopy (D : Disk) (k d x : ℕ) : Prop :=
  copyInodes D k x ≤ freeInodes D ∧ copyBlocks D k x + grow (freePlaces D d) 1 ≤ freeCount D

section

variable {D D' : Disk} {touched : ℕ → Prop} {x : ℕ} (K : Kept D D' touched) (I : Inv D)

include K I in
theorem Kept.ownBlocks (hx : Live (inodeAt D) x) (ht : ¬ touched x) :
    ownBlocks D' x = ownBlocks D x := by
  rw [HepFS.ownBlocks, HepFS.ownBlocks, K.kindAt hx ht, K.children hx ht, K.content I.acc hx ht]

include K I in
theorem Kept.ownPages (hx : Live (inodeAt D) x) (ht : ¬ touched x) :
    ownPages D' x = ownPages D x := by
  rw [HepFS.ownPages, HepFS.ownPages, K.kindAt hx ht, K.children hx ht, K.content I.acc hx ht,
    K.record x hx ht]

variable (hx : Live (inodeAt D) x) (hout : ∀ z, Reaches D x z → ¬ touched z)

include K I hx hout in
theorem Kept.copyPages (k : ℕ) : copyPages D' k x = copyPages D k x :=
  K.treeSum I k hx hout fun z hz => K.ownPages I (hz.live I hx) (hout z hz)

include K I hx hout in
theorem Kept.copyInodes (k : ℕ) : copyInodes D' k x = copyInodes D k x :=
  K.treeSum I k hx hout fun _ _ => Eq.refl _

include K I hx hout in
theorem Kept.copyBlocks (k : ℕ) : copyBlocks D' k x = copyBlocks D k x :=
  K.treeSum I k hx hout fun z hz => K.ownBlocks I (hz.live I hx) (hout z hz)

end

/-- A content fits into a file: it was read from one. -/
theorem blocksFor_content (D : Disk) (n : Inode) : blocksFor (content D n).length ≤ 1049612 := by
  have hcount : dataCount D n ≤ 1049612 := by
    rw [dataCount]
    exact le_trans countP_le_length (Nat.le_of_eq length_range)
  have hlen : (content D n).length ≤ 4096 * dataCount D n := by
    rw [content, length_take, length_blockBytes]
    exact Nat.min_le_right _ _
  unfold blocksFor
  omega

end HepOS.HepFS
