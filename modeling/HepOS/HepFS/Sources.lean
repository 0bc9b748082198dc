/-
What `copy_entry` reads of its source.

`copy_entry` is given names, and for every name `find_in_dir` takes the first entry with it in
the order of the listing. So the copy goes on from a directory to the inodes its names stand
for, which are all the entries if no name stands there twice. `Walk` is one such step and
`Reaches` any number of them; where nothing that is reached is touched, the same is reached
afterwards. `treeSum` adds something up over all that is reached, down to a depth.
-/
import HepOS.HepFS.Frame

set_option autoImplicit false

namespace HepOS.HepFS

open Bytes Hoare Ledger Trace List

/-! ## The first entry of a name -/

/-- The inode of the first entry with the name. -/
def firstNamed (l : List (UInt32 × String)) (name : String) : Option UInt32 :=
  (l.find? (fun e => e.2 = name)).map Prod.fst

section

variable {l l' : List (UInt32 × String)} {name : String} {ino : UInt32}

theorem firstNamed_mem (h : firstNamed l name = some ino) : (ino, name) ∈ l := by
  obtain ⟨⟨i, n⟩, hfind, rfl⟩ := Option.map_eq_some_iff.mp h
  have hn : n = name := by simpa using List.find?_some hfind
  rw [← hn]
  exact mem_of_find?_eq_some hfind

theorem firstNamed_eq_none : firstNamed l name = none ↔ name ∉ l.map Prod.snd := by
  rw [firstNamed, Option.map_eq_none_iff, List.find?_eq_none, mem_map]
  constructor
  · rintro h ⟨e, he, hname⟩
    exact h e he (by simpa using hname)
  · intro h e he hname
    exact h ⟨e, he, by simpa using hname⟩

theorem firstNamed_cons (e : UInt32 × String) :
    firstNamed (e :: l) name = if e.2 = name then some e.1 else firstNamed l name := by
  rw [firstNamed, List.find?_cons]
  by_cases h : e.2 = name
  · simp [h]
  · simp [h, firstNamed]

theorem firstNamed_append_cons (h : name ∉ l.map Prod.snd) :
    firstNamed (l ++ (ino, name) :: l') name = some ino := by
  rw [firstNamed, List.find?_append, List.find?_eq_none.mpr]
  · simp
  · intro e he hname
    exact h (mem_map.mpr ⟨e, he, by simpa using hname⟩)

end

/-- `scan_dir` finds the first entry that passes, in the order of the places. -/
theorem scan_dir_first (test : DirEntry → Bool) (blks : List UInt32) : ∀ (s : Fs),
    (∀ b ∈ blks, s.geom.serves b.toNat) → ∃ r s', scan_dir test blks s = .ok r s' ∧ s.To s' s.blk
      ∧ r.map (fun x => x.2.1.entry x.2.2) = ((placesOf blks).map (entryAt s.blk)).find? test := by
  induction blks with
  | nil =>
    intro s _
    exact ⟨none, s, rfl, Fs.To.rfl s, rfl⟩
  | cons b rest ih =>
    intro s hholds
    obtain ⟨s1, hr, ht1⟩ := read_block_spec s (hholds b (by simp))
    rw [scan_dir, bind_of_ok hr]
    have hhere : (((List.range 128).map fun i => (b.toNat, i)).map (entryAt s.blk)).find? test
        = (scan_block (s.blk b.toNat) test).map (s.blk b.toNat).entry := by
      rw [map_map, List.find?_map, scan_block]
      rfl
    rw [placesOf_cons, map_append, List.find?_append, hhere]
    cases hscan : scan_block (s.blk b.toNat) test with
    | some i => exact ⟨some (b, s.blk b.toNat, i), s1, rfl, ht1, rfl⟩
    | none =>
      obtain ⟨r, s2, hrun, ht2, hres⟩ := ih s1 (by
        intro c hc
        rw [ht1.geom]
        exact hholds c (mem_cons_of_mem b hc))
      rw [ht1.blk] at ht2 hres
      exact ⟨r, s2, hrun, ht1.trans ht2, hres⟩

theorem firstNamed_listing (D : Disk) (n : Inode) (name : String) : firstNamed (listing D n) name
      = (((places n).map (entryAt D)).find? (DirEntry.named name)).map DirEntry.inode := by
  have hkey : ∀ l : List (ℕ × ℕ), (l.filterMap (listedAt D)).find? (fun e => e.2 = name)
      = ((l.map (entryAt D)).find? (DirEntry.named name)).map (fun e => (e.inode, e.name_str)) := by
    intro l
    induction l with
    | nil => rfl
    | cons q rest ih =>
      rw [map_cons, List.find?_cons, filterMap_cons]
      by_cases h0 : (entryAt D q).inode ≠ 0
      · rw [listedAt, if_pos h0, List.find?_cons]
        by_cases hn : (entryAt D q).name_str = name
        · simp [DirEntry.named, h0, hn]
        · simp [DirEntry.named, hn, ih]
      · rw [listedAt, if_neg h0]
        simp only [ih]
        simp [DirEntry.named, h0]
  rw [firstNamed, listing_eq, hkey, Option.map_map]
  rfl

/-- **`find_in_dir` takes the first entry of the listing with the name.** -/
theorem find_in_dir_first (s : Fs) (hc : s.geom.covers) (A : Acc s.blk (inodeAt s.blk))
    (dir_ino : UInt32) (hd : Live (inodeAt s.blk) dir_ino.toNat) (name : String) :
    ∃ s', find_in_dir dir_ino name s
      = .ok (firstNamed (listing s.blk (inodeAt s.blk dir_ino.toNat)) name) s'
      ∧ s.To s' s.blk := by
  obtain ⟨s1, hr, ht1⟩ := read_inode_spec s dir_ino (hc.holds_inode hd.1)
  obtain ⟨r, s2, hscan, ht2, hres⟩ := scan_dir_first (DirEntry.named name)
    (inodeAt s.blk dir_ino.toNat).blocks s1 (by
      rw [ht1.geom]
      exact A.holds_blocks hc hd)
  rw [ht1.blk] at ht2 hres
  refine ⟨s2, ?_, ht1.trans ht2⟩
  rw [find_in_dir, bind_of_ok hr, bind_of_ok hscan, firstNamed_listing]
  have hplaces : places (inodeAt s.blk dir_ino.toNat)
      = placesOf (inodeAt s.blk dir_ino.toNat).blocks := rfl
  rw [hplaces, ← hres]
  cases r with
  | none => rfl
  | some x => rfl

/-! ## Steps of the walk -/

/-- The entries that are the first of their name, when the names in `seen` have stood before. -/
def firsts : List String → List (UInt32 × String) → List (UInt32 × String)
  | _, [] => []
  | seen, e :: rest => if e.2 ∈ seen then firsts seen rest else e :: firsts (e.2 :: seen) rest

theorem mem_firsts {l : List (UInt32 × String)} {e : UInt32 × String} : ∀ {seen : List String},
    e ∈ firsts seen l ↔ e.2 ∉ seen ∧ firstNamed l e.2 = some e.1 := by
  induction l with
  | nil =>
    intro seen
    simp [firsts, firstNamed]
  | cons a rest ih =>
    intro seen
    rw [firsts, firstNamed_cons]
    by_cases hseen : a.2 ∈ seen
    · rw [if_pos hseen, ih]
      refine and_congr_right fun hnot => ?_
      rw [if_neg (fun h => hnot (by rw [← h]; exact hseen))]
    · rw [if_neg hseen, mem_cons, ih, mem_cons, not_or]
      by_cases hname : a.2 = e.2
      · rw [if_pos hname, Option.some.injEq]
        constructor
        · rintro (rfl | ⟨⟨hne, -⟩, -⟩)
          · exact ⟨hseen, rfl⟩
          · exact absurd hname.symm hne
        · rintro ⟨-, hino⟩
          exact .inl (Prod.ext hino.symm hname.symm)
      · rw [if_neg hname]
        constructor
        · rintro (rfl | ⟨⟨-, hnot⟩, hfirst⟩)
          · exact absurd rfl hname
          · exact ⟨hnot, hfirst⟩
        · rintro ⟨hnot, hfirst⟩
          exact .inr ⟨⟨fun h => hname h.symm, hnot⟩, hfirst⟩

/-- What `list_dir` returns for a directory; nothing for a file. -/
def children (D : Disk) (x : ℕ) : List (UInt32 × String) :=
  if kindAt D x = F_DIR then listing D (inodeAt D x) else []

/-- A copy of the directory `x` goes on to `y`. -/
def Walk (D : Disk) (x y : ℕ) : Prop := ∃ e ∈ firsts [] (children D x), e.1.toNat = y

/-- A copy of `x` comes to `y`. -/
def Reaches (D : Disk) (x y : ℕ) : Prop := Relation.ReflTransGen (Walk D) x y

section

variable {D D' : Disk} {x y : ℕ} {touched : ℕ → Prop}

theorem children_of_dir (h : kindAt D x = F_DIR) :
    children D x = listing D (inodeAt D x) := if_pos h

theorem mem_children {e : UInt32 × String} :
    e ∈ children D x ↔ ∃ q, (view D).entry x q = some (e.1.toNat, e.2) := by
  unfold children
  split_ifs with hd
  · exact mem_listing hd
  · constructor
    · intro h
      simp at h
    · rintro ⟨q, hq⟩
      exact absurd (view_entry_some.mp hq).1 hd

theorem exists_child {q : ℕ × ℕ} {name : String} (h : (view D).entry x q = some (y, name)) :
    ∃ ino : UInt32, ino.toNat = y ∧ (ino, name) ∈ children D x := by
  obtain ⟨-, -, -, hy, -⟩ := view_entry_some.mp h
  exact ⟨_, hy, mem_children.mpr ⟨q, by rw [hy]; exact h⟩⟩

theorem mem_child_names {name : String} :
    name ∈ (children D x).map Prod.snd ↔ ∃ q y, (view D).entry x q = some (y, name) := by
  rw [mem_map]
  constructor
  · rintro ⟨e, he, rfl⟩
    obtain ⟨q, hq⟩ := mem_children.mp he
    exact ⟨q, _, hq⟩
  · rintro ⟨q, y, hq⟩
    obtain ⟨ino, -, hmem⟩ := exists_child hq
    exact ⟨_, hmem, rfl⟩

theorem mem_of_mem_firsts {l : List (UInt32 × String)} {e : UInt32 × String} {seen : List String}
    (h : e ∈ firsts seen l) : e ∈ l := firstNamed_mem (mem_firsts.mp h).2

theorem walk_of_mem {e : UInt32 × String} (h : e ∈ firsts [] (children D x)) : Walk D x e.1.toNat :=
  ⟨e, h, rfl⟩

theorem Walk.live (I : Inv D) (h : Walk D x y) : Live (inodeAt D) y := by
  obtain ⟨e, he, rfl⟩ := h
  obtain ⟨q, hq⟩ := mem_children.mp (mem_of_mem_firsts he)
  exact I.live_of_entry hq

theorem Reaches.live (I : Inv D) (hx : Live (inodeAt D) x) (h : Reaches D x y) :
    Live (inodeAt D) y := by
  induction h with
  | refl => exact hx
  | tail _ hstep _ => exact hstep.live I

theorem Kept.children (K : Kept D D' touched) (hx : Live (inodeAt D) x) (ht : ¬ touched x) :
    children D' x = children D x := by
  rw [HepFS.children, HepFS.children, K.kindAt hx ht, K.listing hx ht]

/-- What is reached after a change outside the region was reached before. -/
theorem Kept.reaches (K : Kept D D' touched) (I : Inv D) (hx : Live (inodeAt D) x)
    (hout : ∀ z, Reaches D x z → ¬ touched z) (h : Reaches D' x y) : Reaches D x y := by
  induction h with
  | refl => exact .refl
  | tail _ hstep ih =>
    refine ih.tail ?_
    rwa [Walk, K.children (ih.live I hx) (hout _ ih)] at hstep

end

/-! ## Sums over what is reached -/

/-- The sum of `own` over what a copy of `x` comes to, down to the depth `k`. -/
def treeSum (D : Disk) (own : ℕ → ℕ) : ℕ → ℕ → ℕ
  | 0, _ => 0
  | k + 1, x => own x + ((firsts [] (children D x)).map fun e => treeSum D own k e.1.toNat).sum

/-- A copy of `x` uses `k` frames at most. -/
def Shallow (D : Disk) : ℕ → ℕ → Prop
  | 0, _ => False
  | k + 1, x => ∀ e ∈ firsts [] (children D x), Shallow D k e.1.toNat

section

variable {D D' : Disk} {touched : ℕ → Prop} (K : Kept D D' touched) (I : Inv D)

include K I in
theorem Kept.treeSum {own own' : ℕ → ℕ} (k : ℕ) : ∀ {x : ℕ}, Live (inodeAt D) x →
    (∀ z, Reaches D x z → ¬ touched z) → (∀ z, Reaches D x z → own' z = own z) →
    treeSum D' own' k x = treeSum D own k x := by
  induction k with
  | zero =>
    intro x _ _ _
    rfl
  | succ k ih =>
    intro x hx hout hown
    rw [HepFS.treeSum, HepFS.treeSum, K.children hx (hout x .refl), hown x .refl]
    congr 2
    refine map_congr_left ?_
    intro e he
    have hstep := walk_of_mem he
    exact ih (hstep.live I) (fun z hz => hout z (hz.head hstep))
      (fun z hz => hown z (hz.head hstep))

include K I in
theorem Kept.shallow (k : ℕ) : ∀ {x : ℕ}, Live (inodeAt D) x →
    (∀ z, Reaches D x z → ¬ touched z) → (Shallow D' k x ↔ Shallow D k x) := by
  induction k with
  | zero =>
    intro x _ _
    exact Iff.rfl
  | succ k ih =>
    intro x hx hout
    rw [Shallow, Shallow, K.children hx (hout x .refl)]
    refine forall₂_congr ?_
    intro e he
    have hstep := walk_of_mem he
    exact ih (hstep.live I) (fun z hz => hout z (hz.head hstep))

end

end HepOS.HepFS
