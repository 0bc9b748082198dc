/-
What a disk means: the abstract file system.

A `View` says which inodes are in use and as what, which entries the directories have,
and what the files contain. It knows nothing of blocks, bit maps and pointers. `view D` is
the view of a disk, and every operation of HepFS is proved to act on the view the way its
name says, so that questions about the directory tree, about names and about file contents
are answered without looking at the disk again.

`View.Linked` is the part of the HepFS invariant that lives at this level: the directory
entries hold every inode in use except the root, each exactly once. It is a ledger, with
directories as owners, places as slots and inode numbers as resources.

The second half says what the primitive changes of the disk do to the view. All rest on
`view_frame`: an inode whose own blocks and record are untouched keeps its meaning.
-/
import HepOS.HepFS.Dir

set_option autoImplicit false

namespace HepOS.HepFS

open Bytes Hoare Ledger Function

variable {c d i : ℕ} {D : Disk}

/-! ## Views -/

/-- An abstract file system. -/
@[ext] structure View where
  /-- what an inode is used as -/
  flags : ℕ → UInt32
  /-- the inode and name a place of a directory holds -/
  entry : ℕ → ℕ × ℕ → Option (ℕ × String)
  /-- the content of a file -/
  bytes : ℕ → List UInt8

/-- The inode number a place of a directory holds, `0` when it is empty. -/
def View.held (v : View) (d : ℕ) (q : ℕ × ℕ) : ℕ := ((v.entry d q).map Prod.fst).getD 0

/-- The entries link every inode in use but the root, each once. -/
structure View.Linked (v : View) : Prop where
  root : v.flags 0 = F_DIR
  ledger : Consistent (fun d => v.flags d = F_DIR) v.held (fun i => v.flags i ≠ F_FREE) (· = 0)

/-- The use of inode `i`; there are 1024 inodes. -/
def kindAt (D : Disk) (i : ℕ) : UInt32 := if i < 1024 then (inodeAt D i).flags else F_FREE

/-- The view of a disk. -/
def view (D : Disk) : View where
  flags := kindAt D
  entry d q :=
    if kindAt D d = F_DIR ∧ q ∈ places (inodeAt D d) ∧ (entryAt D q).inode ≠ 0
    then some ((entryAt D q).inode.toNat, (entryAt D q).name_str) else none
  bytes i := if kindAt D i = F_FILE then content D (inodeAt D i) else []

theorem view_flags (D : Disk) (i : ℕ) : (view D).flags i = kindAt D i := rfl

theorem kindAt_of_lt (D : Disk) (h : i < 1024) : kindAt D i = (inodeAt D i).flags := if_pos h

theorem live_iff_kindAt : Live (inodeAt D) i ↔ kindAt D i ≠ F_FREE := by
  rw [Live, kindAt]
  split_ifs with hi
  · exact and_iff_right hi
  · exact ⟨fun h => absurd h.1 hi, fun h => absurd rfl h⟩

theorem live_of_dir (h : kindAt D i = F_DIR) : Live (inodeAt D) i := by
  rw [live_iff_kindAt, h]
  decide

theorem live_of_file (h : kindAt D i = F_FILE) : Live (inodeAt D) i := by
  rw [live_iff_kindAt, h]
  decide

theorem view_entry_some {q : ℕ × ℕ} {name : String} :
    (view D).entry d q = some (i, name) ↔ kindAt D d = F_DIR ∧ q ∈ places (inodeAt D d)
      ∧ (entryAt D q).inode ≠ 0 ∧ (entryAt D q).inode.toNat = i
      ∧ (entryAt D q).name_str = name := by
  show (if _ then _ else _) = _ ↔ _
  by_cases h : kindAt D d = F_DIR ∧ q ∈ places (inodeAt D d) ∧ (entryAt D q).inode ≠ 0
  · rw [if_pos h, Option.some.injEq, Prod.mk.injEq]
    exact ⟨fun he => ⟨h.1, h.2.1, h.2.2, he.1, he.2⟩, fun he => he.2.2.2⟩
  · rw [if_neg h]
    exact ⟨fun he => absurd he (by simp), fun he => absurd ⟨he.1, he.2.1, he.2.2.1⟩ h⟩

theorem view_entry_of_not_dir (h : kindAt D d ≠ F_DIR) (q : ℕ × ℕ) :
    (view D).entry d q = none := if_neg (fun hc => h hc.1)

theorem view_bytes_of_not_file (h : kindAt D i ≠ F_FILE) : (view D).bytes i = [] := if_neg h

theorem view_bytes_of_file (h : kindAt D i = F_FILE) :
    (view D).bytes i = content D (inodeAt D i) := if_pos h

/-! ## Frames -/

section

variable {D D' : Disk}

theorem places_subset_owned (D : Disk) {n : Inode} {q : ℕ × ℕ} (hq : q ∈ places n) :
    q.1 ∈ owned D n := by
  obtain ⟨-, hne, j, -, hj⟩ := (mem_places).mp hq
  exact mem_owned.mpr ⟨.data j, hj, hne⟩

theorem slotOf_frame {n : Inode} (hB : ∀ c ∈ owned D n, D' c = D c) : slotOf D' n = slotOf D n := by
  refine slotOf_congr ?_
  intro t _ ht
  exact hB _ (mem_owned.mpr ⟨t, rfl, ht⟩)

section

variable (A : Acc D (inodeAt D))

include A

/-- **Frame.** An inode whose record and blocks are untouched keeps its entries and its
content. -/
theorem view_frame (hi : i < 1024) (hn : inodeAt D' i = inodeAt D i)
    (hB : Live (inodeAt D) i → ∀ c ∈ owned D (inodeAt D i), D' c = D c) :
    (view D').entry i = (view D).entry i ∧ (view D').bytes i = (view D).bytes i := by
  have hkind : kindAt D' i = kindAt D i := by
    rw [kindAt_of_lt _ hi, kindAt_of_lt _ hi, hn]
  refine ⟨?_, ?_⟩
  · funext q
    by_cases hd : kindAt D i = F_DIR
    · by_cases hq : q ∈ places (inodeAt D i)
      · have he : entryAt D' q = entryAt D q := by
          rw [entryAt, entryAt, hB (live_of_dir hd) _ (places_subset_owned D hq)]
        show (if _ then _ else _) = (if _ then _ else _)
        rw [hkind, hn, he]
      · have h1 : (view D).entry i q = none := if_neg (fun hc => hq hc.2.1)
        have h2 : (view D').entry i q = none := if_neg (fun hc => hq (by rw [← hn]; exact hc.2.1))
        rw [h1, h2]
    · rw [view_entry_of_not_dir hd, view_entry_of_not_dir (by rw [hkind]; exact hd)]
  · by_cases hf : kindAt D i = F_FILE
    · have hlive := live_of_file hf
      obtain ⟨m, t, hsh⟩ := A.shape i hlive
      rw [view_bytes_of_file hf, view_bytes_of_file (by rw [hkind]; exact hf), hn]
      refine content_congr hsh (slotOf_frame (hB hlive)) rfl ?_
      intro j hj
      exact hB hlive _ (mem_owned.mpr ⟨.data j, rfl, (hsh.data j).mpr hj⟩)
    · rw [view_bytes_of_not_file hf, view_bytes_of_not_file (by rw [hkind]; exact hf)]

/-- A change of one inode and its blocks changes the view at that inode only. -/
theorem view_update {d : ℕ} (hn : ∀ i < 1024, i ≠ d → inodeAt D' i = inodeAt D i)
    (hB : ∀ i, Live (inodeAt D) i → i ≠ d → ∀ c ∈ owned D (inodeAt D i), D' c = D c) :
    view D' = { flags := update (view D).flags d (kindAt D' d)
                entry := update (view D).entry d ((view D').entry d)
                bytes := update (view D).bytes d ((view D').bytes d) } := by
  have hbig : ∀ (E : Disk) (i : ℕ), ¬ i < 1024 → kindAt E i = F_FREE := fun E i hi => if_neg hi
  have hkind : ∀ i, i ≠ d → kindAt D' i = kindAt D i := by
    intro i hid
    by_cases hi : i < 1024
    · rw [kindAt_of_lt _ hi, kindAt_of_lt _ hi, hn i hi hid]
    · rw [hbig _ _ hi, hbig _ _ hi]
  have hframe : ∀ i, i ≠ d →
      (view D').entry i = (view D).entry i ∧ (view D').bytes i = (view D).bytes i := by
    intro i hid
    by_cases hi : i < 1024
    · exact view_frame A hi (hn i hi hid) (fun hlive => hB i hlive hid)
    · have hz : ∀ E : Disk, (∀ q, (view E).entry i q = none) ∧ (view E).bytes i = [] := by
        intro E
        have hfree := hbig E i hi
        exact ⟨fun q => view_entry_of_not_dir (by rw [hfree]; decide) q,
          view_bytes_of_not_file (by rw [hfree]; decide)⟩
      refine ⟨?_, by rw [(hz D').2, (hz D).2]⟩
      funext q
      rw [(hz D').1, (hz D).1]
  refine View.ext ?_ ?_ ?_
  · exact eq_update_iff.mpr ⟨rfl, hkind⟩
  · exact eq_update_iff.mpr ⟨rfl, fun i hid => (hframe i hid).1⟩
  · exact eq_update_iff.mpr ⟨rfl, fun i hid => (hframe i hid).2⟩

/-- The same when what the inode means does not change either. -/
theorem view_unchanged (hn : ∀ i < 1024, i ≠ d → inodeAt D' i = inodeAt D i)
    (hB : ∀ i, Live (inodeAt D) i → i ≠ d → ∀ c ∈ owned D (inodeAt D i), D' c = D c)
    (hkind : kindAt D' d = kindAt D d) (hentry : (view D').entry d = (view D).entry d)
    (hbytes : (view D').bytes d = (view D).bytes d) : view D' = view D := by
  rw [view_update A hn hB, hkind, hentry, hbytes]
  refine View.ext ?_ ?_ ?_
  all_goals exact update_eq_self d _

theorem Acc.not_owned (hd : Live (inodeAt D) d)
    (hi : Live (inodeAt D) i) (hid : i ≠ d) (hc : c ∈ owned D (inodeAt D i)) :
    c ∉ owned D (inodeAt D d) := by
  intro hc'
  obtain ⟨s, hs, hc0⟩ := mem_owned.mp hc
  obtain ⟨s', hs', -⟩ := mem_owned.mp hc'
  have hne : slotOf D (inodeAt D i) s ≠ 0 := by rw [hs]; exact hc0
  exact hid (A.ledger.inj i d hi hd s s' hne (hs.trans hs'.symm)).1

theorem Acc.owned_range (hi : Live (inodeAt D) i) (hc : c ∈ owned D (inodeAt D i)) :
    38 ≤ c ∧ c < 131072 := by
  obtain ⟨s, hs, hc0⟩ := mem_owned.mp hc
  have hr := A.range hi (by rw [hs]; exact hc0)
  rwa [hs] at hr

theorem Acc.owned_ne_fresh (hi : Live (inodeAt D) i) {b : ℕ}
    (hb : Fresh D b) (hc : c ∈ owned D (inodeAt D i)) : c ≠ b := by
  obtain ⟨s, hs, -⟩ := mem_owned.mp hc
  rw [← hs]
  exact A.slot_ne_fresh hb hi s

end

end

end HepOS.HepFS
