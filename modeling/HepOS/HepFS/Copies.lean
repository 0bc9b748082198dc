/-
What is true of a copy.

A copy of an entry to a place outside of it is faithful and independent. The proof is
`copy_entry_runs`; here the disks it speaks of are read back as listings, contents and blocks.
-/
import HepOS.HepFS.CopyRun

set_option autoImplicit false

namespace HepOS.HepFS

open Bytes Hoare Ledger Trace Chains List

/-! ## Faithful copies -/

/-- The inode `new_ino`, in `s'` under the name `dest_name` in the directory `to_parent`, is a
copy of what `src_ino` was in `s`, made of inodes and blocks that were not in use, and nothing
else is different. -/
structure FaithfulCopy (s : Fs) (to_parent : UInt32) (dest_name : String) (src_ino new_ino : UInt32)
    (s' : Fs) : Prop where
  tree : (view s.blk).SameTree (view s'.blk) src_ino.toNat new_ino.toNat
  inodes : ∀ y, Below (view s'.blk).Link new_ino.toNat y → kindAt s.blk y = F_FREE
  blocks : ∀ y, Below (view s'.blk).Link new_ino.toNat y → ∀ c ∈ owned s'.blk (inodeAt s'.blk y),
    bitAt s.blk 2 c = false ∧ ∀ i, Live (inodeAt s.blk) i → c ∉ owned s.blk (inodeAt s.blk i)
  kinds : ∀ i, kindAt s.blk i ≠ F_FREE → kindAt s'.blk i = kindAt s.blk i
  target : ∃ entries entries', Lists s to_parent entries ∧ Lists s' to_parent entries'
    ∧ entries'.Perm ((new_ino, dest_name) :: entries)
  listings : ∀ d, kindAt s.blk d.toNat = F_DIR → d ≠ to_parent → ∀ entries,
    Lists s d entries → Lists s' d entries
  contents : ∀ f, kindAt s.blk f.toNat = F_FILE → ∀ data, Reads s f data → Reads s' f data

section

variable {D D' : Disk} {d src new : ℕ} {dest : String}

theorem CopyDone.dir (C : CopyDone D d dest src new D') : kindAt D' d = F_DIR := by
  obtain ⟨q, -, hentry⟩ := C.entry
  exact (view_entry_some.mp (show (view D').entry d q
    = some (new, dest) by rw [hentry, if_pos rfl])).1

/-- The blocks of a copy were free: every block in use still belongs to the inode it belonged to. -/
theorem CopyDone.fresh_blocks (C : CopyDone D d dest src new D') {y : ℕ}
    (hy : Below (view D').Link new y) {c : ℕ} (hc : c ∈ owned D' (inodeAt D' y)) :
    ∀ i, Live (inodeAt D) i → c ∉ owned D (inodeAt D i) := by
  intro i hi hown
  obtain ⟨hfree, hlive⟩ := C.fresh y hy
  have hy' := live_iff_kindAt.mpr hlive
  have hiy : i ≠ y := by
    rintro rfl
    exact live_iff_kindAt.mp hi hfree
  by_cases hid : i = d
  · rw [hid] at hown hiy
    exact C.inv.acc.not_owned hy' (live_of_dir C.dir) hiy (C.owns c hown) hc
  · have hown' : c ∈ owned D' (inodeAt D' i) := by
      rw [C.kept.owned hi hid]
      exact hown
    exact C.inv.acc.not_owned hy' (C.kept.live hi hid) hiy hown' hc

theorem CopyDone.clear_bits (C : CopyDone D d dest src new D') (I : Inv D) {y : ℕ}
    (hy : Below (view D').Link new y) {c : ℕ} (hc : c ∈ owned D' (inodeAt D' y)) :
    bitAt D 2 c = false := by
  have hr := C.inv.acc.owned_range (live_iff_kindAt.mpr (C.fresh y hy).2) hc
  rw [← Bool.not_eq_true]
  intro hset
  rcases (I.accounted.block_bits c hr.2).mp hset with hlow | ⟨i, hi, hown⟩
  · omega
  · exact C.fresh_blocks hy hc i hi hown

end

theorem CopyDone.faithful {s s' : Fs} {to_parent src_ino new_ino : UInt32} {dest_name : String}
    (C : CopyDone s.blk to_parent.toNat dest_name src_ino.toNat new_ino.toNat s'.blk)
    (hc : s.geom.covers) (hc' : s'.geom.covers) (I : Inv s.blk)
    (hto : kindAt s.blk to_parent.toNat = F_DIR)
    (hu : ∀ y, Below (view s.blk).Link src_ino.toNat y → (view s.blk).NamesUnique y) :
    FaithfulCopy s to_parent dest_name src_ino new_ino s' := by
  obtain ⟨q, hempty, hentry⟩ := C.entry
  refine ⟨C.tree hu, fun y hy => (C.fresh y hy).1,
    fun y hy c hcy => ⟨C.clear_bits I hy hcy, C.fresh_blocks hy hcy⟩, ?_, ?_, ?_, ?_⟩
  · intro i hi
    by_cases hid : i = to_parent.toNat
    · rw [hid, C.dir, hto]
    · exact C.kept.kindAt (live_iff_kindAt.mpr hi) hid
  · refine ⟨_, _, (lists_iff hc I.acc hto _).mpr rfl, (lists_iff hc' C.inv.acc C.dir _).mpr rfl,
      C.inv.listing_perm C.dir ?_ ?_⟩
    · rw [map_cons, nodup_cons]
      refine ⟨fun hmem => ?_, I.nodup_listing hto⟩
      obtain ⟨⟨j, n⟩, hlisted, hj⟩ := mem_map.mp hmem
      obtain rfl : j = new_ino := hj
      obtain ⟨t, ht⟩ := (mem_listing hto).mp hlisted
      exact live_iff_kindAt.mp (I.live_of_entry ht) C.was_free
    · intro j n
      rw [mem_cons, mem_listing hto, Prod.mk.injEq]
      constructor
      · rintro (⟨rfl, rfl⟩ | ⟨t, ht⟩)
        · exact ⟨q, by rw [hentry, if_pos rfl]⟩
        · refine ⟨t, ?_⟩
          rw [hentry, if_neg (fun h => by rw [h, hempty] at ht; exact absurd ht (by simp))]
          exact ht
      · rintro ⟨t, ht⟩
        rw [hentry] at ht
        by_cases htq : t = q
        · rw [if_pos htq, Option.some.injEq, Prod.mk.injEq] at ht
          exact .inl ⟨(UInt32.toNat_inj.mp ht.1).symm, ht.2.symm⟩
        · rw [if_neg htq] at ht
          exact .inr ⟨t, ht⟩
  · intro d hd hne entries
    exact C.kept.lists hc hc' I.acc C.inv.acc hd (fun h => hne (UInt32.toNat_inj.mp h))
  · intro f hf data
    refine C.kept.reads hc hc' I C.inv hf (fun h => ?_)
    rw [h, hto] at hf
    exact absurd hf (by decide)

/-- A copy that returns an inode has passed the checks. -/
theorem checks_of_copied {s s' : Fs} (hc : s.geom.covers) (I : Inv s.blk) {frames : ℕ}
    {from_parent to_parent new_ino : UInt32} {name dest_name : String}
    (hfrom : kindAt s.blk from_parent.toNat = F_DIR) (hto : kindAt s.blk to_parent.toNat = F_DIR)
    (hrun : copy_entry frames from_parent to_parent name dest_name s = .ok (some new_ino) s') :
    (view s.blk).Unnamed to_parent.toNat dest_name
      ∧ ∃ src_ino, firstNamed (children s.blk from_parent.toNat) name = some src_ino
      ∧ src_ino ≠ to_parent := by
  cases frames with
  | zero =>
    exact absurd hrun (by simp [copy_entry, throw, throwThe, MonadExceptOf.throw, EStateM.throw])
  | succ frames =>
    constructor
    · rw [unnamed_iff]
      cases htaken : firstNamed (children s.blk to_parent.toNat) dest_name with
      | none => rfl
      | some ino =>
        obtain ⟨t, hnone, -⟩ := copy_entry_taken hc I hto frames from_parent name htaken
        exact absurd (EStateM.Result.ok.inj (hrun.symm.trans hnone)).1 (by simp)
    · cases hfirst : firstNamed (children s.blk from_parent.toNat) name with
      | none =>
        obtain ⟨t, hnone, -⟩ := copy_entry_refused hc I hfrom hto frames dest_name
          (.inl hfirst)
        exact absurd (EStateM.Result.ok.inj (hrun.symm.trans hnone)).1 (by simp)
      | some src_ino =>
        refine ⟨src_ino, rfl, ?_⟩
        rintro rfl
        obtain ⟨t, hnone, -⟩ := copy_entry_refused hc I hfrom hto frames dest_name
          (.inr hfirst)
        exact absurd (EStateM.Result.ok.inj (hrun.symm.trans hnone)).1 (by simp)

/-- **`copy_entry` makes a faithful and independent copy.** Whenever it returns an inode, that is
the root of one, as far as there are pages to read it; and it does return one, for a name that
is free and not too long, if inodes, blocks and pages suffice and the stack has a frame for
every level of the source. -/
theorem copy_entry_faithful {s : Fs} (h : Reachable s) (hnames : (view s.blk).UniqueNames)
    (from_parent to_parent src_ino : UInt32) (name dest_name : String)
    (hfrom : kindAt s.blk from_parent.toNat = F_DIR) (hto : kindAt s.blk to_parent.toNat = F_DIR)
    {q : ℕ × ℕ} (hentry : (view s.blk).entry from_parent.toNat q = some (src_ino.toNat, name))
    (hout : ¬ Below (view s.blk).Link src_ino.toNat to_parent.toNat) (n : ℕ) :
    (∀ frames new_ino s', copy_entry frames from_parent to_parent name dest_name (s.limit n)
        = .ok (some new_ino) s' →
      FaithfulCopy s to_parent dest_name src_ino new_ino (s'.on none))
    ∧ ((view s.blk).Unnamed to_parent.toNat dest_name → (nameBytes dest_name).length ≤ 27 →
      ∀ k, Shallow s.blk k src_ino.toNat → FitsCopy s.blk k to_parent.toNat src_ino.toNat →
      copyPages s.blk k src_ino.toNat ≤ n →
      ∀ frames, k ≤ frames → ∃ new_ino s',
        copy_entry frames from_parent to_parent name dest_name (s.limit n)
            = .ok (some new_ino) s') := by
  obtain ⟨hc, I⟩ := h.inv
  have hu : ∀ y, (view s.blk).NamesUnique y := fun y => hnames y
  have hfirst : firstNamed (children s.blk from_parent.toNat) name = some src_ino :=
    firstNamed_of_unique (hu _) (e := (src_ino, name)) (mem_children.mpr ⟨q, hentry⟩)
  have hreach : ¬ Reaches s.blk src_ino.toNat to_parent.toNat := fun hr => hout hr.below
  constructor
  · intro frames new_ino t hrun
    obtain ⟨s', rfl⟩ : ∃ s', s' = t.on none := ⟨_, rfl⟩
    replace hrun := free_of_limit (paged_copy_entry _ _ _ _ _) hc.2 hrun
    have hfree := (checks_of_copied hc I hfrom hto hrun).1
    obtain ⟨hgeom, -, -, j, hj, C, -⟩ :=
      (copy_entry_runs frames s from_parent to_parent src_ino name dest_name
      hc I hfrom hto hfree hfirst hreach).of_ok hrun
    cases hj
    exact C.faithful hc (by rw [hgeom]; exact hc) I hto (fun y _ => hu y)
  · intro hfree hlen k hshallow hfits hpages frames hk
    obtain ⟨r, s', hrun, -, -, -, j, rfl, -, hused⟩ :=
      (copy_entry_runs frames s from_parent to_parent src_ino name
      dest_name hc I hfrom hto hfree hfirst hreach).exists_ok
      (fun _ _ herr => herr hlen k hk hshallow hfits)
    have hleft := (hused k hshallow).pages
    exact ⟨j, _, limit_of_free (paged_copy_entry _ _ _ _ _) hrun (by omega)⟩

/-! ## An example -/

/-- An empty directory takes one inode, one block and some pages, and perhaps a block for its
entry. -/
theorem fits_empty_dir {D : Disk} {d x i k : ℕ} (hx : kindAt D x = F_DIR)
    (hempty : children D x = []) (hi : i < 1024) (hfree : kindAt D i = F_FREE)
    (hroom : 2 ≤ freeCount D) :
    Shallow D (k + 1) x ∧ FitsCopy D (k + 1) d x ∧ copyPages D (k + 1) x = 147 := by
  have hinodes : copyInodes D (k + 1) x = 1 := by
    rw [copyInodes_succ, hempty]
    rfl
  have hblocks : copyBlocks D (k + 1) x = 1 := by
    rw [copyBlocks_succ, ownBlocks, if_pos hx, hempty]
    rfl
  refine ⟨?_, ⟨?_, ?_⟩, ?_⟩
  · rw [Shallow, hempty]
    exact fun e he => absurd he not_mem_nil
  · rw [hinodes]
    exact Finset.card_pos.mpr ⟨i, Finset.mem_filter.mpr ⟨Finset.mem_range.mpr hi, hfree⟩⟩
  · rw [hblocks]
    unfold grow
    omega
  · rw [copyPages_succ, ownPages, if_pos hx, hempty]
    rfl

/-- The root directory of a formatted disk with one directory in it, which can be copied. -/
theorem exists_one_dir (name : String) (hlen : (nameBytes name).length ≤ 27) : ∃ s q, Reachable s
    ∧ (view s.blk).UniqueNames ∧ (view s.blk).Rooted
    ∧ (∀ i, kindAt s.blk i = if i = 1 then F_DIR else if i = 0 then F_DIR else F_FREE)
    ∧ (∀ d t i n, (view s.blk).entry d t = some (i, n) ↔ d = 0 ∧ t = q ∧ i = 1 ∧ n = name)
    ∧ (∀ k, Shallow s.blk (k + 1) 1 ∧ FitsCopy s.blk (k + 1) 0 1 ∧ copyPages s.blk (k + 1) 1 = 147)
    ∧ ¬ Below (view s.blk).Link 1 0 := by
  obtain ⟨-, s, q, -, -, -, hreach, hview, hcount⟩ := exists_created .dir name hlen
  have hkind := kindAt_of_root_create hview
  have hentry : ∀ d t i n, (view s.blk).entry d t = some (i, n) ↔ d = 0 ∧ t = q ∧ i = 1
      ∧ n = name := by
    intro d t i n
    rw [hview, View.entry_root_create]
  refine ⟨s, q, hreach, ?_, ?_, hkind, hentry, fun k => ?_, fun hbelow => ?_⟩
  · rw [hview]
    exact View.uniqueNames_root_create
  · rw [hview]
    exact View.rooted_root.create rfl View.linked_root rfl rfl
  · have hempty : children s.blk 1 = [] := by
      refine eq_nil_iff_forall_not_mem.mpr (fun e he => ?_)
      obtain ⟨t, ht⟩ := mem_children.mp he
      exact absurd ((hentry _ _ _ _).mp ht).1 (by decide)
    exact fits_empty_dir (hkind 1) hempty (by decide : 2 < 1024) (hkind 2) (by omega)
  · rcases Relation.ReflTransGen.cases_tail hbelow with h | ⟨c, -, t, -, hne, -⟩
    · exact absurd h (by decide)
    · exact hne rfl

/-- An empty directory of the root directory copied from `a` to `b`, with 200 pages left. -/
theorem copy_entry_faithful_dir : ∃ s, Reachable s ∧ (view s.blk).UniqueNames
    ∧ ∃ new_ino s', copy_entry 1 0 0 "a" "b" (s.limit 200) = .ok (some new_ino) s'
      ∧ FaithfulCopy s 0 "b" 1 new_ino (s'.on none) := by
  obtain ⟨s, q, hreach, hnames, -, hkind, hentry, hfits, hout⟩ := exists_one_dir "a" (by decide)
  obtain ⟨hgood, hret⟩ := copy_entry_faithful hreach hnames 0 0 1 "a" "b" (hkind 0) (hkind 0)
    ((hentry 0 q 1 "a").mpr ⟨rfl, rfl, rfl, rfl⟩) hout 200
  obtain ⟨hshallow, hroom, hpages⟩ := hfits 0
  obtain ⟨new_ino, s', hrun⟩ := hret
    (fun t i ht => absurd ((hentry _ _ _ _).mp ht).2.2.2 (by decide)) (by decide) 1 hshallow hroom
    (hpages.trans_le (by decide)) 1 le_rfl
  exact ⟨s, hreach, hnames, new_ino, s', hrun, hgood 1 new_ino s' hrun⟩

end HepOS.HepFS
