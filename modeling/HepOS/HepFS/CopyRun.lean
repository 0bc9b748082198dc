/-
`copy_entry`, run to its end.

The source of a copy does not change while it is copied: the entries are put into the
destination directory and into directories that are new, and the walk of the copy comes to
none of them (`¬ Reaches`). So the recursion can be followed on the listings as they were at the
start. A copy stops early only for want of inodes, blocks or stack.
-/
import HepOS.HepFS.CopyTree

set_option autoImplicit false

namespace HepOS.HepFS

open Bytes Hoare Ledger Trace Chains List

variable {c ino kind : UInt32} {d src : ℕ} {seen : List String} {D D₁ : Disk} {n : String}

/-! ## One inode is created -/

section

variable {D E D₁ D₂ : Disk} {d i : ℕ} {q : ℕ × ℕ} {dest : String}

/-- A directory that gets an entry keeps its blocks. -/
theorem owns_of_stores {e : DirEntry} (K : Kept D E (fun _ => False)) (hd : Live (inodeAt D) d)
    (S : Stores E d q e D₁) : ∀ c ∈ owned D (inodeAt D d), c ∈ owned D₁ (inodeAt D₁ d) := by
  intro c hc
  obtain ⟨sl, hsl, hne⟩ := mem_owned.mp hc
  rw [← K.slotOf hd id] at hsl
  exact mem_owned.mpr ⟨sl, by rw [S.slots sl (by rw [hsl]; exact hne), hsl], hne⟩

/-- **A file is copied** by creating one and writing what was read. -/
theorem CopyDone.of_file (I : Inv D) (hi : FreshInode D ino.toNat)
    (hd : kindAt D d = F_DIR) (hlen : (nameBytes dest).length ≤ 27) (hsrc : kindAt D src = F_FILE)
    (S : Stores (newFile D ino.toNat) d q (DirEntry.mk_named ino dest) D₁)
    (W : Wrote D₁ ino.toNat (content D (inodeAt D src)) D₂) :
    CopyDone D d dest src ino.toNat D₂ := by
  have hlive := live_of_dir hd
  have C := Created.of_newFile I hi hd hlen S.toAdded
  have hfile := C.kind_new
  have hkept1 : Kept D D₁ (· = d) :=
    ((I.kept_newFile hi).mono (fun _ _ h => absurd h id)).trans S.toAdded.kept
  have hkept2 := W.kept C.inv.acc (live_of_file hfile)
  have hdi := C.dir_ne hlive
  have hview : view D₂ = (view D₁).write ino.toNat (content D (inodeAt D src)) :=
    W.view C.inv.acc hfile
  have hfile2 := W.kind hfile
  have hnone : ∀ t, (view D₂).entry ino.toNat t = none :=
    view_entry_of_not_dir (by rw [hfile2]; decide)
  have hleaf : ∀ y, Below (view D₂).Link ino.toNat y → y = ino.toNat := by
    intro y hy
    refine hy.eq_of_leaf ?_
    rintro t z ⟨-, -, name, he⟩
    rw [hnone] at he
    simp at he
  have hd1 := C.live hlive
  refine ⟨C.inv.write W hfile, ?_, ?_, C.was_free, ⟨q, C.empty, ?_⟩, ?_, ?_, ?_⟩
  · have hkept : Kept D D₂ (fun j => j = d ∨ j = ino.toNat) :=
      (hkept1.mono (fun _ _ h => .inl h)).trans (hkept2.mono (fun _ _ h => .inr h))
    refine hkept.mono ?_
    rintro j hj (h | h)
    · exact h
    · exact absurd h (C.dir_ne hj)
  · intro c hc
    rw [hkept2.owned hd1 hdi]
    exact owns_of_stores (I.kept_newFile hi) hlive S c hc
  · intro t
    rw [hview]
    exact C.entry_dir t
  · intro y hy
    rw [hleaf y hy, hfile2]
    exact ⟨C.was_free, by decide⟩
  · intro y hy t t' j j' name he
    rw [hleaf y hy, hnone] at he
    simp at he
  · intro _
    refine .file hsrc hfile2 ?_
    rw [hview, view_bytes_of_file hsrc]
    exact Function.update_self _ _ _

/-- The loop over the children starts with an empty directory. -/
theorem Filled.start (C : Created D i F_DIR d dest q D₁) (hdi : d ≠ i) : Filled D₁ src i [] D₁ := by
  have hnone : ∀ t, (view D₁).entry i t = none := by
    intro t
    rw [C.view_eq, View.entry_create, if_neg (fun h => hdi h.1.symm)]
    exact view_entry_of_not_dir (by rw [C.was_free]; decide) t
  have hno : ∀ {t j name}, (view D₁).entry i t ≠ some (j, name) := by
    intro t j name he
    rw [hnone] at he
    simp at he
  refine ⟨C.inv, Kept.rfl D₁ _, C.kind_new, ?_, fun _ _ _ _ _ he => absurd he hno,
    fun _ _ _ he => absurd he hno, fun _ _ _ he => absurd he hno, fun _ _ _ _ he => absurd he hno⟩
  intro name
  constructor
  · rintro ⟨t, j, he⟩
    exact absurd he hno
  · intro h
    simp at h

/-- **A directory is copied** by creating one and filling it. -/
theorem CopyDone.of_dir (I : Inv D) (hd : kindAt D d = F_DIR)
    (hsrc : kindAt D src = F_DIR) (C : Created D i F_DIR d dest q D₁) (hkept : Kept D D₁ (· = d))
    (howns : ∀ c ∈ owned D (inodeAt D d), c ∈ owned D₁ (inodeAt D₁ d)) (hout : ¬ Reaches D src d)
    (F : Filled D₁ src i seen D₂)
    (hseen : ∀ name, name ∈ seen ↔ name ∈ (children D₁ src).map Prod.snd) :
    CopyDone D d dest src i D₂ := by
  have hlive := live_of_dir hd
  have hdi := C.dir_ne hlive
  have hd1 := C.live hlive
  have hagree2 := F.kept.agrees C.inv.acc hd1 hdi
  have hfree : ∀ {y}, kindAt D₁ y = F_FREE → kindAt D y = F_FREE := by
    intro y hy
    by_contra hne
    exact hne (C.kind_old (live_iff_kindAt.mpr hne) ▸ hy)
  refine ⟨F.inv, ?_, ?_, C.was_free, ⟨q, C.empty, ?_⟩, ?_, ?_, ?_⟩
  · -- the new directory is not live in `D`, so only `d` counts as written
    have hboth : Kept D D₂ (fun j => j = d ∨ j = i) :=
      (hkept.mono (fun _ _ h => .inl h)).trans (F.kept.mono (fun _ _ h => .inr h))
    refine hboth.mono ?_
    rintro j hj (h | h)
    · exact h
    · exact absurd h (C.dir_ne hj)
  · intro c hc
    rw [F.kept.owned hd1 hdi]
    exact howns c hc
  · intro t
    rw [hagree2.entry]
    exact C.entry_dir t
  · intro y hy
    rcases Relation.ReflTransGen.cases_head hy with rfl | ⟨j, ⟨t, -, -, name, he⟩, hjy⟩
    · exact ⟨C.was_free, by rw [F.dir]; decide⟩
    · obtain ⟨h1, h2⟩ := F.fresh t j name he y hjy
      exact ⟨hfree h1, h2⟩
  · intro y hy
    rcases Relation.ReflTransGen.cases_head hy with rfl | ⟨j, ⟨t, -, -, name, he⟩, hjy⟩
    · exact F.unique
    · exact F.below t j name he y hjy
  · -- the copied tree does not contain `d`, so creating the entry did not change it
    intro hu
    have hne : ∀ a, Below (view D).Link src a → a ≠ d := by
      rintro a ha rfl
      exact hout (reaches_of_below hu ha)
    have hagree : ∀ a, Below (view D).Link src a → (view D).Agrees (view D₁) a :=
      fun a ha => hkept.agrees I.acc (below_live I (live_of_dir hsrc) ha) (hne a ha)
    have hback : ∀ a, Below (view D₁).Link src a → Below (view D).Link src a :=
      fun a ha => below_of_agrees hagree ha
    have htree := F.tree (by
      intro y hy
      have hy' := hback y hy
      refine ⟨fun p p' k k' nm => ?_, C.dir_ne (below_live I (live_of_dir hsrc) hy')⟩
      rw [(hagree y hy').entry]
      exact hu y hy' p p' k k' nm)
    have hchildren : children D₁ src = children D src :=
      hkept.children (live_of_dir hsrc) (hne src .refl)
    refine sameTree_of_names hsrc F.dir (hu src .refl) F.unique ?_ ?_
    · intro name
      rw [F.names, hseen, hchildren, mem_child_names]
    · intro p x p' j name hp hp'
      obtain ⟨x, rfl, hmem⟩ := exists_child hp
      have hfirst := firstNamed_of_unique (hu src .refl) hmem
      rw [← hchildren] at hfirst
      have hcopy := htree p' j name hp' _ hfirst
      refine sameTree_congr hcopy (fun a ha => (hagree a ?_).symm) (fun b _ => ⟨rfl, rfl, rfl⟩)
      exact hback a (ha.head ⟨p, link_of_entry (by rw [(hagree src .refl).entry]; exact hp)⟩)

end

/-! ## The checks of `copy_entry` -/

theorem unnamed_iff {name : String} : (view D).Unnamed d name
    ↔ firstNamed (children D d) name = none := by
  rw [firstNamed_eq_none, mem_child_names]
  exact ⟨fun h ⟨q, i, he⟩ => h q i he, fun h q i he => h ⟨q, i, he⟩⟩

section

variable {s : Fs} (hc : s.geom.covers) (I : Inv s.blk) {from_parent to_parent : UInt32}
  {name dest_name : String} (hfrom : kindAt s.blk from_parent.toNat = F_DIR)
  (hto : kindAt s.blk to_parent.toNat = F_DIR)

include hc I in
theorem find_child {dir_ino : UInt32} (hd : kindAt s.blk dir_ino.toNat = F_DIR) (name : String) :
    ∃ s', find_in_dir dir_ino name s = .ok (firstNamed (children s.blk dir_ino.toNat) name) s'
      ∧ s.To s' s.blk := by
  rw [children_of_dir hd]
  exact find_in_dir_first s hc I.acc dir_ino (live_of_dir hd) name

include hc I hto in
/-- The name is taken: nothing is copied. -/
theorem copy_entry_taken (frames : ℕ) (from_parent : UInt32) (name : String)
    (htaken : firstNamed (children s.blk to_parent.toNat) dest_name = some ino) :
    ∃ s', copy_entry (frames + 1) from_parent to_parent name dest_name s = .ok none s'
      ∧ s.To s' s.blk
      ∧ s'.pages ≤ s.pages + 13 := by
  obtain ⟨s1, hfind, ht1⟩ := find_child hc I hto dest_name
  have hpages := (spends_find_in_dir (k := 0) _ _).high hfind
  rw [htaken] at hfind
  rw [copy_entry, bind_of_ok hfind]
  exact ⟨s1, rfl, ht1, by omega⟩

include hc I hfrom hto in
/-- There is no source, or it is the destination: nothing is copied. -/
theorem copy_entry_refused (frames : ℕ) (dest_name : String)
    (hno : firstNamed (children s.blk from_parent.toNat) name = none
      ∨ firstNamed (children s.blk from_parent.toNat) name = some to_parent) :
    ∃ s', copy_entry (frames + 1) from_parent to_parent name dest_name s = .ok none s'
      ∧ s.To s' s.blk
      ∧ s'.pages ≤ s.pages + 26 := by
  cases htaken : firstNamed (children s.blk to_parent.toNat) dest_name with
  | some ino =>
    obtain ⟨s', hrun, ht, hpages⟩ := copy_entry_taken hc I hto frames from_parent name htaken
    exact ⟨s', hrun, ht, by omega⟩
  | none =>
    obtain ⟨s1, hfind, ht1⟩ := find_child hc I hto dest_name
    rw [htaken] at hfind
    rw [copy_entry, bind_of_ok hfind]
    obtain ⟨s2, hfind', ht2⟩ := find_child (s := s1) (hc.of_eq ht1.geom)
      (by rw [ht1.blk]; exact I) (by rw [ht1.blk]; exact hfrom) name
    rw [ht1.blk] at hfind' ht2
    have hpages := (spends_find_in_dir (k := 0) _ _).high hfind
    have hpages' := (spends_find_in_dir (k := 0) _ _).high hfind'
    refine ⟨s2, ?_, ht1.trans ht2, by omega⟩
    dsimp only
    rw [bind_of_ok hfind']
    rcases hno with hnone | hself
    · rw [hnone]
      rfl
    · rw [hself]
      dsimp only
      rw [if_pos rfl]
      rfl

include hc I hfrom hto in
/-- The checks are passed: the branch for the kind of the source is run. -/
theorem copy_entry_accepted (frames : ℕ) {src_ino : UInt32}
    (hfree : (view s.blk).Unnamed to_parent.toNat dest_name)
    (hsrc : firstNamed (children s.blk from_parent.toNat) name = some src_ino)
    (hself : src_ino ≠ to_parent) :
    ∃ t, s.To t s.blk ∧ t.pages ≤ s.pages + 27
      ∧ copy_entry (frames + 1) from_parent to_parent name dest_name s
      = (if kindAt s.blk src_ino.toNat = F_DIR then copy_dir frames src_ino to_parent dest_name
        else copy_data src_ino to_parent dest_name) t := by
  obtain ⟨s1, hfind, ht1⟩ := find_child hc I hto dest_name
  rw [unnamed_iff.mp hfree] at hfind
  obtain ⟨s2, hfind', ht2⟩ := find_child (s := s1) (hc.of_eq ht1.geom)
    (by rw [ht1.blk]; exact I) (by rw [ht1.blk]; exact hfrom) name
  rw [ht1.blk, hsrc] at hfind'
  rw [ht1.blk] at ht2
  have ht := ht1.trans ht2
  obtain ⟨q, hq⟩ := mem_children.mp (firstNamed_mem hsrc)
  have hlive := I.live_of_entry hq
  obtain ⟨s3, hread, ht3⟩ := read_inode_spec s2 src_ino (by
    rw [ht.geom]
    exact hc.holds_inode hlive.1)
  rw [ht.blk] at hread ht3
  have hpages : s3.pages ≤ s.pages + 27 := by
    have := (spends_find_in_dir (k := 0) _ _).high hfind
    have := (spends_find_in_dir (k := 0) _ _).high hfind'
    have := (spends_read_inode (k := 0) _).high hread
    omega
  refine ⟨s3, ht.trans ht3, hpages, ?_⟩
  rw [copy_entry, bind_of_ok hfind]
  dsimp only
  rw [bind_of_ok hfind']
  dsimp only
  rw [if_neg hself, bind_of_ok hread, kindAt_of_lt _ hlive.1]
  by_cases hdir : (inodeAt s.blk src_ino.toNat).flags = F_DIR
  · rw [if_pos hdir, if_pos hdir]
    rfl
  · rw [if_neg hdir, if_neg hdir]
    rfl

end

/-! ## The loop over the children -/

/-- What a finished copy of `x` into the directory `d` has used up, if it had `checks` of the pages
before. -/
structure CopyUsed (s : Fs) (k d x checks : ℕ) (s' : Fs) : Prop where
  inodes : freeInodes s.blk ≤ freeInodes s'.blk + copyInodes s.blk k x
  blocks : freeCount s.blk ≤ freeCount s'.blk + copyBlocks s.blk k x + grow (freePlaces s.blk d) 1
  places : placesAfter (freePlaces s.blk d) ≤ freePlaces s'.blk d
  pages : s'.pages + checks ≤ s.pages + copyPages s.blk k x

/-- A copy, or what is left of it after the checks: it is done when it returns, and it stops only
if it does not fit. -/
def CopyBranch (frames checks : ℕ) (s : Fs) (to_parent src_ino : UInt32) (dest_name : String)
    (x : FsM (Option UInt32)) : Prop :=
  Post x s
    (fun r s' => s'.geom = s.geom ∧ (nameBytes dest_name).length ≤ 27
      ∧ Shallow s.blk frames src_ino.toNat ∧ ∃ new_ino, r = some new_ino
      ∧ CopyDone s.blk to_parent.toNat dest_name src_ino.toNat new_ino.toNat s'.blk
      ∧ ∀ k, Shallow s.blk k src_ino.toNat → CopyUsed s k to_parent.toNat src_ino.toNat checks s')
    (fun _ _ => (nameBytes dest_name).length ≤ 27 → ∀ k ≤ frames, Shallow s.blk k src_ino.toNat →
      ¬ FitsCopy s.blk k to_parent.toNat src_ino.toNat)

/-- A copy that passes the checks and does not come to its destination. -/
def CopyRuns (frames : ℕ) : Prop :=
  ∀ (s : Fs) (from_parent to_parent src_ino : UInt32) (name dest_name : String),
    s.geom.covers → Inv s.blk → kindAt s.blk from_parent.toNat = F_DIR →
    kindAt s.blk to_parent.toNat = F_DIR → (view s.blk).Unnamed to_parent.toNat dest_name →
    firstNamed (children s.blk from_parent.toNat) name = some src_ino →
    ¬ Reaches s.blk src_ino.toNat to_parent.toNat →
    CopyBranch frames 0 s to_parent src_ino dest_name
      (copy_entry frames from_parent to_parent name dest_name)

/-- The inodes for copies of all the entries. -/
def sumInodes (D : Disk) (k : ℕ) (l : List (UInt32 × String)) : ℕ :=
  (l.map fun e => copyInodes D k e.1.toNat).sum

/-- The blocks for copies of all the entries. -/
def sumBlocks (D : Disk) (k : ℕ) (l : List (UInt32 × String)) : ℕ :=
  (l.map fun e => copyBlocks D k e.1.toNat).sum

/-- The pages for copies of all the entries. -/
def sumPages (D : Disk) (k : ℕ) (l : List (UInt32 × String)) : ℕ :=
  (l.map fun e => copyPages D k e.1.toNat).sum

theorem copyInodes_succ (D : Disk) (k x : ℕ) :
    copyInodes D (k + 1) x = 1 + sumInodes D k (firsts [] (children D x)) := rfl

theorem copyBlocks_succ (D : Disk) (k x : ℕ) :
    copyBlocks D (k + 1) x = ownBlocks D x + sumBlocks D k (firsts [] (children D x)) := rfl

theorem copyPages_succ (D : Disk) (k x : ℕ) :
    copyPages D (k + 1) x = ownPages D x + sumPages D k (firsts [] (children D x)) := rfl

/-- Copies of the entries `l`, all read on the disk `D₁`, fit into the directory `d` on `D`. -/
def LoopFits (D₁ : Disk) (k : ℕ) (D : Disk) (d : ℕ) (l : List (UInt32 × String)) : Prop :=
  sumInodes D₁ k l ≤ freeInodes D ∧ sumBlocks D₁ k l + grow (freePlaces D d) l.length ≤ freeCount D

/-- What copies of the entries `l` have used up, when the loop came to `tries` names. -/
def LoopUsed (D₁ : Disk) (k : ℕ) (s : Fs) (d : ℕ) (l : List (UInt32 × String)) (tries : ℕ)
    (s' : Fs) : Prop :=
  freeInodes s.blk ≤ freeInodes s'.blk + sumInodes D₁ k l
    ∧ freeCount s.blk ≤ freeCount s'.blk + sumBlocks D₁ k l + grow (freePlaces s.blk d) l.length
    ∧ s'.pages ≤ s.pages + sumPages D₁ k l + 13 * tries

/-- What a copy takes is the same on two disks. -/
def SameNeeds (D D₁ : Disk) (k x : ℕ) : Prop :=
  copyInodes D k x = copyInodes D₁ k x ∧ copyBlocks D k x = copyBlocks D₁ k x
    ∧ copyPages D k x = copyPages D₁ k x

section

variable {D₁ D : Disk} {s s' s'' : Fs} {k d tries : ℕ} {e : UInt32 × String}
    {l : List (UInt32 × String)}

theorem LoopUsed.cons (h : CopyUsed s k d e.1.toNat 0 s') (hsame : SameNeeds s.blk D₁ k e.1.toNat)
    (h' : LoopUsed D₁ k s' d l tries s'') : LoopUsed D₁ k s d (e :: l) (tries + 1) s'' := by
  obtain ⟨hinodes, hblocks, hpages⟩ := hsame
  have hi := h.inodes
  have hb := h.blocks
  have hp := h.pages
  have hgrow := grow_anti h.places l.length
  have hstep := grow_succ (freePlaces s.blk d) l.length
  unfold LoopUsed sumInodes sumBlocks sumPages at *
  rw [map_cons, sum_cons, map_cons, sum_cons, map_cons, sum_cons, length_cons, hstep]
  omega

theorem LoopFits.head (h : LoopFits D₁ k D d (e :: l)) (hsame : SameNeeds D D₁ k e.1.toNat) :
    FitsCopy D k d e.1.toNat := by
  obtain ⟨hinodes, hblocks, -⟩ := hsame
  have hstep := grow_succ (freePlaces D d) l.length
  unfold LoopFits sumInodes sumBlocks at h
  unfold FitsCopy
  rw [map_cons, sum_cons, map_cons, sum_cons, length_cons, hstep] at h
  omega

theorem LoopFits.tail (h : LoopFits D₁ k s.blk d (e :: l)) (hu : CopyUsed s k d e.1.toNat 0 s')
    (hsame : SameNeeds s.blk D₁ k e.1.toNat) : LoopFits D₁ k s'.blk d l := by
  obtain ⟨hinodes, hblocks, -⟩ := hsame
  have hi := hu.inodes
  have hb := hu.blocks
  have hgrow := grow_anti hu.places l.length
  have hstep := grow_succ (freePlaces s.blk d) l.length
  unfold LoopFits sumInodes sumBlocks at *
  rw [map_cons, sum_cons, map_cons, sum_cons, length_cons, hstep] at h
  omega

end

/-- Names that are stored are short enough to be stored again. -/
theorem length_name_of_mem_children {x : ℕ} {e : UInt32 × String} (h : e ∈ children D x) :
    (nameBytes e.2).length ≤ 27 := by
  obtain ⟨q, hq⟩ := mem_children.mp h
  rw [← (view_entry_some.mp hq).2.2.2.2]
  exact DirEntry.length_name_str _

theorem firsts_cons_of_mem
    {rest : List (UInt32 × String)} (h : n ∈ seen) :
    firsts seen ((c, n) :: rest) = firsts seen rest :=
  if_pos h

theorem firsts_cons_of_not_mem {rest : List (UInt32 × String)} (h : n ∉ seen) :
    firsts seen ((c, n) :: rest) = (c, n) :: firsts (n :: seen) rest := if_neg h

theorem names_snoc {before : List (UInt32 × String)} (h : ∀ m, m ∈ seen ↔ m ∈ before.map Prod.snd)
    (m : String) :
    m ∈ n :: seen ↔ m ∈ (before ++ [(c, n)]).map Prod.snd := by
  rw [mem_cons, h, map_append, mem_append, or_comm]
  simp

theorem names_snoc_of_mem {before : List (UInt32 × String)}
    (h : ∀ m, m ∈ seen ↔ m ∈ before.map Prod.snd) (hn : n ∈ seen) (m : String) :
    m ∈ seen ↔ m ∈ (before ++ [(c, n)]).map Prod.snd := by
  rw [← names_snoc h, mem_cons]
  constructor
  · exact .inr
  · rintro (rfl | hm)
    · exact hn
    · exact hm

/-- A second entry of a name is passed over. -/
theorem Filled.taken {s : Fs} {to_parent : UInt32}
    (F : Filled D₁ src to_parent.toNat seen s.blk) (hc : s.geom.covers)
    (from_parent : UInt32) (frames : ℕ) (hn : n ∈ seen) :
    ∃ s', copy_entry (frames + 1) from_parent to_parent n n s = .ok none s' ∧ s.To s' s.blk
      ∧ s'.pages ≤ s.pages + 13 := by
  obtain ⟨q, j, hq⟩ := (F.names n).mpr hn
  obtain ⟨ino, htaken⟩ : ∃ ino, firstNamed (children s.blk to_parent.toNat) n = some ino := by
    refine Option.ne_none_iff_exists'.mp (fun hnone => ?_)
    exact unnamed_iff.mpr hnone q j hq
  exact copy_entry_taken hc F.inv F.dir frames from_parent n htaken

section

variable {frames : ℕ} {D₁ : Disk} {src new : UInt32} (hruns : CopyRuns frames) (I₁ : Inv D₁)
  (hsrc : kindAt D₁ src.toNat = F_DIR) (hnew : kindAt D₁ new.toNat = F_DIR)
  (hreg : ∀ z, Reaches D₁ src.toNat z → z ≠ new.toNat)

include hruns I₁ hsrc hnew hreg in
/-- **The loop over the children**, from the child where it has come to. -/
theorem copy_children_runs (rest : List (UInt32 × String)) :
    ∀ (before : List (UInt32 × String)) (seen : List String) (s : Fs),
    children D₁ src.toNat = before ++ rest → (∀ n, n ∈ seen ↔ n ∈ before.map Prod.snd) →
    s.geom.covers → Filled D₁ src.toNat new.toNat seen s.blk →
    Post (copy_children (fun child_name => copy_entry frames src new child_name child_name) rest) s
      (fun _ s' => s'.geom = s.geom
        ∧ (∃ seen', (∀ n, n ∈ seen' ↔ n ∈ (children D₁ src.toNat).map Prod.snd)
          ∧ Filled D₁ src.toNat new.toNat seen' s'.blk)
            ∧ (∀ e ∈ firsts seen rest, Shallow D₁ frames e.1.toNat)
        ∧ ∀ k, (∀ e ∈ firsts [] (children D₁ src.toNat), Shallow D₁ k e.1.toNat) →
          LoopUsed D₁ k s new.toNat (firsts seen rest) rest.length s')
      (fun _ _ => ∀ k ≤ frames, (∀ e ∈ firsts [] (children D₁ src.toNat), Shallow D₁ k e.1.toNat) →
        ¬ LoopFits D₁ k s.blk new.toNat (firsts seen rest)) := by
  induction rest with
  | nil =>
    intro before seen s hsplit hseen _ F
    rw [append_nil] at hsplit
    refine Post.pure ⟨rfl, ⟨seen, by rw [hsplit]; exact hseen, F⟩,
      fun e he => absurd he not_mem_nil, fun k _ => ?_⟩
    exact ⟨Nat.le_add_right _
      _, by rw [Nat.add_assoc]; exact Nat.le_add_right _ _, Nat.le_add_right _ _⟩
  | cons child rest ih =>
    obtain ⟨c, n⟩ := child
    intro before seen s hsplit hseen hc F
    have hmem : (c, n) ∈ children D₁ src.toNat := by
      rw [hsplit]
      simp
    have hsplit' : children D₁ src.toNat = (before ++ [(c, n)]) ++ rest := by
      rw [hsplit, append_assoc, singleton_append]
    rw [copy_children]
    cases frames with
    | zero =>
      -- no frame for the call: the source is deeper than that
      refine Post.of_eq_error (bind_of_error rfl) ?_
      intro k hk hshallow
      obtain ⟨ino, hino⟩ : ∃ ino, firstNamed (children D₁ src.toNat) n = some ino := by
        refine Option.ne_none_iff_exists'.mp (fun hnone => ?_)
        exact firstNamed_eq_none.mp hnone (mem_map.mpr ⟨_, hmem, rfl⟩)
      have h0 := hshallow (ino, n) (mem_firsts.mpr ⟨not_mem_nil, hino⟩)
      rw [Nat.le_zero.mp hk] at h0
      exact absurd h0 id
    | succ frames =>
      have hne : src.toNat ≠ new.toNat := hreg _ .refl
      obtain ⟨hdir, hchildren⟩ := F.source hsrc hne
      by_cases hn : n ∈ seen
      · -- the name is there already
        obtain ⟨s1, hrun, ht, htries⟩ := F.taken hc src frames hn
        refine Post.step hrun ?_
        have hrest := ih (before ++ [(c, n)]) seen s1 hsplit' (names_snoc_of_mem hseen hn)
          (hc.of_eq ht.geom) (by rw [ht.blk]; exact F)
        rw [ht.geom] at hrest
        rw [firsts_cons_of_mem hn]
        refine hrest.mono ?_ (by rw [ht.blk]; exact fun _ _ h => h)
        rintro _ s2 ⟨hgeom2, hfilled, hdepths, hused⟩
        refine ⟨hgeom2, hfilled, hdepths, fun k hshallow => ?_⟩
        obtain ⟨hi, hb, hp⟩ := hused k hshallow
        rw [ht.blk] at hi hb
        exact ⟨hi, hb, by rw [length_cons]; omega⟩
      · have hfirst : firstNamed (children D₁ src.toNat) n = some c := by
          rw [hsplit]
          exact firstNamed_append_cons (fun h => hn ((hseen n).mpr h))
        have hin : (c, n) ∈ firsts [] (children D₁ src.toNat) :=
          mem_firsts.mpr ⟨not_mem_nil, hfirst⟩
        have hwalk := walk_of_mem hin
        have hlive := hwalk.live I₁
        -- what the child's copy reads is as it was on `D₁`
        have hout : ∀ z, Reaches D₁ c.toNat z → ¬ z = new.toNat :=
          fun z hz => hreg z (hz.head hwalk)
        have hsame : ∀ k, SameNeeds s.blk D₁ k c.toNat :=
          fun k => ⟨F.kept.copyInodes I₁ hlive hout k,
            F.kept.copyBlocks I₁ hlive hout k, F.kept.copyPages I₁ hlive hout k⟩
        have hcopy := hruns s src new c n n hc F.inv hdir F.dir
          (fun q j hq => hn ((F.names n).mp ⟨q, j, hq⟩)) (by rw [hchildren]; exact hfirst)
          (fun hz => hout _ (F.kept.reaches I₁ hlive hout hz) rfl)
        have hlen := length_name_of_mem_children hmem
        rw [firsts_cons_of_not_mem hn]
        refine Post.seq (hcopy.mono (fun _ _ h => h) ?_) ?_
        · intro _ _ herr k hk hshallow hfits
          exact herr hlen k hk ((F.kept.shallow I₁ k hlive hout).mpr (hshallow _ hin))
            (hfits.head (hsame k))
        · rintro _ s1 ⟨hgeom, -, hdepth, j, -, C, hused⟩
          have F1 := F.child I₁ (live_of_dir hsrc) hnew hfirst C hn
          have hused1 : ∀ k, (∀ e ∈ firsts [] (children D₁ src.toNat), Shallow D₁ k e.1.toNat) →
              CopyUsed s k new.toNat c.toNat 0 s1 :=
            fun k hshallow => hused k ((F.kept.shallow I₁ k hlive hout).mpr (hshallow _ hin))
          refine (ih (before ++ [(c, n)]) (n :: seen) s1 hsplit' (names_snoc hseen)
            (by rw [hgeom]; exact hc) F1).mono ?_ ?_
          · rintro _ s2 ⟨hgeom2, hfilled, hdepths, hused2⟩
            refine ⟨hgeom2.trans hgeom, hfilled, ?_, fun k hshallow => ?_⟩
            · exact forall_mem_cons.mpr
                ⟨(F.kept.shallow I₁ _ hlive hout).mp hdepth, hdepths⟩
            exact LoopUsed.cons (hused1 k hshallow) (hsame k) (hused2 k hshallow)
          · intro _ _ herr k hk hshallow hfits
            exact herr k hk hshallow (hfits.tail (hused1 k hshallow) (hsame k))

end

/-! ## The two branches -/

section

variable {s : Fs} (hc : s.geom.covers) (I : Inv s.blk) {to_parent src_ino : UInt32}
  (hto : kindAt s.blk to_parent.toNat = F_DIR)

/-- A creation that stops with a name that fits and a free inode lacks a block. -/
theorem PlaceFails.lacks {k : ℕ} {e : Panic} (h : PlaceFails k D d n e)
    (hlen : (nameBytes n).length ≤ 27) (hinode : 0 < freeInodes D) :
    freeCount D < k + grow (freePlaces D d) 1 := by
  rcases h with ⟨-, hfull⟩ | ⟨-, hlong⟩ | ⟨-, hless | ⟨heq, hplace⟩⟩
  · obtain ⟨i, hi, hfree⟩ := exists_free_of_freeInodes hinode
    exact absurd hfree (hfull i hi)
  · omega
  · omega
  · rw [freePlaces_eq_zero.mpr hplace, heq]
    exact Nat.lt_succ_self k

/-- What a creation has used up, when the unlinked inode took `k` blocks. -/
theorem used_of_stores {E : Disk} {k : ℕ} {q : ℕ × ℕ} {e : DirEntry} (S : Stores E d q e D₁)
    (K : Kept D E (fun _ => False)) (A : Acc E (inodeAt E)) (hd : kindAt D d = F_DIR)
    (hcount : freeCount E + k = freeCount D) :
    freeCount D ≤ freeCount D₁ + k + grow (freePlaces D d) 1
      ∧ placesAfter (freePlaces D d) ≤ freePlaces D₁ d := by
  have hlive := live_of_dir hd
  have hblocks := S.takes
  have hplaces := S.freePlaces A (by rw [K.kindAt hlive id]; exact hd)
  rw [K.freePlaces hlive id] at hblocks hplaces
  exact ⟨by omega, hplaces⟩

include hc I hto in
/-- **The file branch.** -/
theorem copy_data_runs (frames : ℕ) (dest_name : String)
    (hsrc : kindAt s.blk src_ino.toNat = F_FILE) :
    CopyBranch (frames + 1) 27 s to_parent src_ino dest_name
        (copy_data src_ino to_parent dest_name) := by
  obtain ⟨data, hdata⟩ : ∃ data, data = content s.blk (inodeAt s.blk src_ino.toNat) := ⟨_, rfl⟩
  -- a file is one inode and the blocks of its content
  have hchildren : children s.blk src_ino.toNat = [] := if_neg (by rw [hsrc]; decide)
  have hinodes : ∀ k, copyInodes s.blk (k + 1) src_ino.toNat = 1 := by
    intro k
    rw [copyInodes_succ, hchildren]
    rfl
  have hblocks : ∀ k, copyBlocks s.blk (k + 1) src_ino.toNat
      = (slotsFor (blocksFor data.length)).length := by
    intro k
    rw [copyBlocks_succ, hchildren, ownBlocks, if_neg (by rw [hsrc]; decide), ← hdata]
    rfl
  have hpages : ∀ k, copyPages s.blk (k + 1) src_ino.toNat
      = 128 + readPages (inodeAt s.blk src_ino.toNat) + writePages (blocksFor data.length) := by
    intro k
    rw [copyPages_succ, hchildren, ownPages, if_neg (by rw [hsrc]; decide), ← hdata]
    rfl
  have hmax : blocksFor data.length ≤ 1049612 := by
    rw [hdata]
    exact blocksFor_content _ _
  obtain ⟨s1, hread, ht1⟩ := read_file_spec s hc src_ino (I.target hsrc)
  rw [← hdata] at hread
  have hread1 := pages_read_file hread
  refine Post.step hread ?_
  have hcreate := create_file_places s1 (hc.of_eq ht1.geom) (by rw [ht1.blk]; exact I)
    to_parent dest_name (by rw [ht1.blk]; exact hto)
  rw [ht1.blk] at hcreate
  refine Post.seq (Post.spent (spends_create_file (k := 0) _ _)
    (hcreate.mono (fun _ _ h => h) ?_)) ?_
  · rintro e _ herr hlen (_ | k) - hshallow ⟨hfi, hfb⟩
    · exact hshallow
    · rw [hinodes] at hfi
      have := herr.lacks hlen (by omega)
      omega
  rintro ino s2 ⟨⟨hb2, hlen, hfresh, q, S⟩, hpages2⟩
  have C := Created.of_newFile I hfresh hto hlen S.toAdded
  have hc2 : s2.geom.covers := by rw [hb2.geom, ht1.geom]; exact hc
  obtain ⟨hcount, hplaces⟩ := used_of_stores S (I.kept_newFile hfresh) (I.acc_newFile hfresh) hto
    (k := 0) (freeCount_newFile hfresh.lt)
  have hneed : need s2.blk (inodeAt s2.blk ino.toNat) (blocksFor data.length)
      = (slotsFor (blocksFor data.length)).length :=
    need_bare (by rw [C.file rfl]; exact bare_file) _
  refine Post.andThen (Post.spent (spends_write_file (k := 0) _ _)
    (write_file_spec s2 hc2 ino data (C.inv.target C.kind_new))) ?_ ?_
  · rintro e _ herr - (_ | k) - hshallow ⟨-, hfb⟩
    · exact hshallow
    · rw [hblocks] at hfb
      rcases herr with ⟨-, hfull⟩ | ⟨-, hbig⟩
      · omega
      · omega
  rintro _ s3 ⟨⟨ht3, W⟩, hpages3⟩
  have hdepth : Shallow s.blk (frames + 1) src_ino.toNat := by
    rw [Shallow, hchildren]
    exact fun e he => absurd he not_mem_nil
  refine Post.pure ⟨by rw [ht3.geom, hb2.geom, ht1.geom], hlen, hdepth, ino, rfl, ?_, ?_⟩
  · rw [hdata] at W
    exact CopyDone.of_file I hfresh hto hlen hsrc S W
  · rintro (_ | k) hshallow
    · exact absurd hshallow id
    have hwcount := W.count
    have hkept := W.kept C.inv.acc (live_of_file C.kind_new)
    refine ⟨?_, ?_, ?_, by rw [hpages]; omega⟩
    · have hsame : freeInodes s3.blk = freeInodes s2.blk :=
        freeInodes_congr (by rw [W.view C.inv.acc C.kind_new]; rfl)
      rw [hinodes, C.freeInodes (by decide), hsame]
    · rw [hblocks]
      omega
    · rw [hkept.freePlaces (C.live (live_of_dir hto)) (C.dir_ne (live_of_dir hto))]
      exact hplaces

theorem created_dir {b : UInt32} {q : ℕ × ℕ} {dest : String} (I : Inv D)
    (hi : FreshInode D ino.toNat) (hb : Fresh D b.toNat) (hd : kindAt D d = F_DIR)
    (hlen : (nameBytes dest).length ≤ 27)
    (S : Stores (newDir D ino.toNat b) d q (DirEntry.mk_named ino dest) D₁) :
    Created D ino.toNat F_DIR d dest q D₁ ∧ Kept D D₁ (· = d) := by
  have hcount := freeCount_newDir hi hb
  refine ⟨Created.of_added I hi (.inr rfl) hd hlen (I.view_newDir hi hb)
    (fun j hj => bitAt_inode_newDir hi hb hj) (by omega)
      (fun hk => absurd hk (by decide)) S.toAdded, ?_⟩
  exact ((I.kept_newDir hi hb).mono (fun _ _ h => absurd h id)).trans S.toAdded.kept

include hc I hto in
/-- **The directory branch.** -/
theorem copy_dir_runs {frames : ℕ} (hruns : CopyRuns frames) (dest_name : String)
    (hsrc : kindAt s.blk src_ino.toNat = F_DIR)
    (hout : ¬ Reaches s.blk src_ino.toNat to_parent.toNat) :
    CopyBranch (frames + 1) 27 s to_parent src_ino dest_name
        (copy_dir frames src_ino to_parent dest_name) := by
  have hlive := live_of_dir hto
  have hslive := live_of_dir hsrc
  have hne : ∀ z, Reaches s.blk src_ino.toNat z → ¬ z = to_parent.toNat := by
    rintro z hz rfl
    exact hout hz
  refine Post.andThen (Post.spent (spends_create_dir (k := 0) _ _)
    (create_dir_stores s hc I to_parent dest_name hto)) ?_ ?_
  · rintro e _ herr hlen (_ | k) - hshallow ⟨hfi, hfb⟩
    · exact hshallow
    · rw [copyInodes_succ] at hfi
      rw [copyBlocks_succ, ownBlocks, if_pos hsrc] at hfb
      have := herr.lacks hlen (by omega)
      omega
  rintro ino s1 ⟨⟨hb1, hlen, hfresh, b, q, hb, S⟩, hpages1⟩
  obtain ⟨C, hkept⟩ := created_dir I hfresh hb hto hlen S
  have hdi := C.dir_ne hlive
  have hkept0 := I.kept_newDir hfresh hb
  obtain ⟨hcount, hplaces⟩ := used_of_stores S hkept0 (I.acc_newDir hfresh hb) hto
    (freeCount_newDir hfresh hb)
  have hnewplaces : 128 ≤ freePlaces s1.blk ino.toNat := by
    have hdir0 : kindAt (newDir s.blk ino.toNat b) ino.toNat = F_DIR := by
      rw [← view_flags, I.view_newDir hfresh hb]
      exact Function.update_self _ _ _
    rw [S.toAdded.kept.freePlaces (live_of_dir hdir0) (Ne.symm hdi)]
    exact freePlaces_newDir I hfresh hb
  have hsrc1 : kindAt s1.blk src_ino.toNat = F_DIR := by
    rw [hkept.kindAt hslive (hne _ .refl)]
    exact hsrc
  have hc1 := hc.of_eq hb1.geom
  obtain ⟨s2, hlist, ht2⟩ := list_dir_spec s1 hc1 C.inv.acc src_ino hsrc1
  rw [← children_of_dir hsrc1] at hlist
  have hpages2 := (spends_list_dir (k := 0) _).high hlist
  refine Post.step hlist ?_
  have hloop := copy_children_runs hruns C.inv hsrc1 C.kind_new (by
      intro z hz
      exact C.dir_ne ((hkept.reaches I hslive hne hz).live I hslive))
    (children s1.blk src_ino.toNat) [] [] s2 rfl (fun n => Iff.rfl) (hc1.of_eq ht2.geom)
    (by rw [ht2.blk]; exact Filled.start C hdi)
  rw [ht2.geom] at hloop
  -- depth and needs of the source are the same on the disk with the new directory
  have hshallow1 : ∀ k, Shallow s.blk (k + 1) src_ino.toNat →
      ∀ e ∈ firsts [] (children s1.blk src_ino.toNat), Shallow s1.blk k e.1.toNat :=
    fun k h => (hkept.shallow I (k + 1) hslive hne).mpr h
  have hinodes : ∀ k, copyInodes s.blk (k + 1) src_ino.toNat
      = 1 + sumInodes s1.blk k (firsts [] (children s1.blk src_ino.toNat)) :=
    fun k => (hkept.copyInodes I hslive hne (k + 1)).symm
  have hblocks : ∀ k, copyBlocks s.blk (k + 1) src_ino.toNat
      = 1 + grow 128 (firsts [] (children s1.blk src_ino.toNat)).length
        + sumBlocks s1.blk k (firsts [] (children s1.blk src_ino.toNat)) := by
    intro k
    rw [← hkept.copyBlocks I hslive hne (k + 1), copyBlocks_succ, ownBlocks, if_pos hsrc1]
  have hpages : ∀ k, copyPages s.blk (k + 1) src_ino.toNat
      = 147 + 13 * (children s1.blk src_ino.toNat).length
        + sumPages s1.blk k (firsts [] (children s1.blk src_ino.toNat)) := by
    intro k
    rw [← hkept.copyPages I hslive hne (k + 1), copyPages_succ, ownPages, if_pos hsrc1]
  have hgrow := grow_anti hnewplaces (firsts [] (children s1.blk src_ino.toNat)).length
  have hfi := C.freeInodes (by decide)
  refine Post.seq (hloop.mono (fun _ _ h => h) ?_) ?_
  · rintro e _ herr - (_ | k) hk hshallow ⟨hneedi, hneedb⟩
    · exact hshallow
    · rw [hinodes] at hneedi
      rw [hblocks] at hneedb
      rw [ht2.blk] at herr
      refine herr k (by omega) (hshallow1 k hshallow) ⟨by omega, by omega⟩
  rintro _ s3 ⟨hgeom3, ⟨seen, hseen, F⟩, hdepths, hused⟩
  have hdepth : Shallow s.blk (frames + 1) src_ino.toNat :=
    (hkept.shallow I (frames + 1) hslive hne).mp hdepths
  refine Post.pure ⟨by rw [hgeom3, hb1.geom], hlen, hdepth, ino, rfl, ?_, ?_⟩
  · exact CopyDone.of_dir I hto hsrc C hkept (owns_of_stores hkept0 hlive S) hout F hseen
  · rintro (_ | k) hshallow
    · exact absurd hshallow id
    obtain ⟨hui, hub, hup⟩ := hused k (hshallow1 k hshallow)
    rw [ht2.blk] at hui hub
    refine ⟨?_, ?_, ?_, by rw [hpages]; omega⟩
    · rw [hinodes]
      omega
    · rw [hblocks]
      omega
    · rw [F.kept.freePlaces (C.live hlive) hdi]
      exact hplaces

end

/-- **`copy_entry`**, with any number of stack frames. -/
theorem copy_entry_runs (frames : ℕ) : CopyRuns frames := by
  induction frames with
  | zero =>
    intro s from_parent to_parent src_ino name dest_name _ _ _ _ _ _ _
    refine Post.throw ?_
    intro _ k hk hshallow
    rw [Nat.le_zero.mp hk] at hshallow
    exact absurd hshallow id
  | succ frames ih =>
    intro s from_parent to_parent src_ino name dest_name hc I hfrom hto hfree hfirst hout
    have hself : src_ino ≠ to_parent := by
      rintro rfl
      exact hout .refl
    obtain ⟨t, ht, hchecks, hrun⟩ := copy_entry_accepted hc I hfrom hto frames hfree hfirst hself
    obtain ⟨q, hq⟩ := mem_children.mp (firstNamed_mem hfirst)
    have hlive := I.live_of_entry hq
    have hct := hc.of_eq ht.geom
    have It : Inv t.blk := by rw [ht.blk]; exact I
    -- the checks have taken their pages
    have hwhole : ∀ {x : FsM (Option UInt32)},
      CopyBranch (frames + 1) 27 t to_parent src_ino dest_name x →
        copy_entry (frames + 1) from_parent to_parent name dest_name s = x t →
        CopyBranch (frames + 1) 0 s to_parent src_ino dest_name
          (copy_entry (frames + 1) from_parent to_parent name dest_name) := by
      intro x hbranch hx
      unfold CopyBranch Post at hbranch ⊢
      rw [hx]
      refine Post.mono hbranch ?_ (by rw [ht.blk]; exact fun _ _ h => h)
      rintro r s' ⟨hgeom, hlen, hdepth, new_ino, hr, C, hused⟩
      rw [ht.blk] at hdepth C hused
      refine ⟨hgeom.trans ht.geom, hlen, hdepth, new_ino, hr, C, fun k hshallow => ?_⟩
      obtain ⟨hi, hb, hp, hpages⟩ := hused k hshallow
      rw [ht.blk] at hi hb hp hpages
      exact ⟨hi, hb, hp, by omega⟩
    by_cases hdir : kindAt s.blk src_ino.toNat = F_DIR
    · rw [if_pos hdir] at hrun
      refine hwhole (copy_dir_runs hct It ?_ ih dest_name ?_ ?_) hrun
      all_goals rw [ht.blk]
      · exact hto
      · exact hdir
      · exact hout
    · have hfile : kindAt s.blk src_ino.toNat = F_FILE := by
        rw [kindAt_of_lt _ hlive.1] at hdir ⊢
        rcases I.acc.kind _ hlive with hfile | hdir'
        · exact hfile
        · exact absurd hdir'.1 hdir
      rw [if_neg hdir] at hrun
      refine hwhole (copy_data_runs hct It ?_ frames dest_name ?_) hrun
      all_goals rw [ht.blk]
      · exact hto
      · exact hfile

end HepOS.HepFS
