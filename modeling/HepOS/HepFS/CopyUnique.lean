/-
Pasting under a name that is free: `copy_entry_unique`.

The name itself is tried first, then the name with a number, up to a hundred. A name that is
taken costs nothing, so what counts is the first of the names that is free. Whether that one
fits in a directory entry is found out by `add_dir_entry` only, when the inode of the copy is
allocated: a name of 24 bytes or more that is taken has no number that fits.
-/
import HepOS.HepFS.CopyInto

set_option autoImplicit false

namespace HepOS.HepFS

open Bytes Hoare Ledger Trace Chains Option

/-! ## The names that are tried -/

/-- The names with the numbers `n`, `n + 1` and so on. -/
def numberedNames (name : String) : ℕ → ℕ → List String
  | 0, _ => []
  | tries + 1, n => (name ++ " (" ++ toString n ++ ")") :: numberedNames name tries (n + 1)

/-- All names `copy_entry_unique` tries, in order. -/
def pasteNames (name : String) : List String := name :: numberedNames name 100 1

/-- The first of the names that the directory `d` does not have. -/
def firstFree (D : Disk) (d : ℕ) (names : List String) : Option String :=
  names.find? fun c => (firstNamed (children D d) c).isNone

theorem unnamed_of_firstFree {D : Disk} {d : ℕ} {names : List String} {c : String}
    (h : firstFree D d names = some c) : c ∈ names ∧ (view D).Unnamed d c := by
  have hnone : (firstNamed (children D d) c).isNone = true :=
    List.find?_some (p := fun c => (firstNamed (children D d) c).isNone) h
  exact ⟨List.mem_of_find?_eq_some h, unnamed_iff.mpr (isNone_iff_eq_none.mp hnone)⟩

theorem firstFree_cons {D : Disk} {d : ℕ} {c : String} {names : List String} :
    firstFree D d (c :: names)
      = if (firstNamed (children D d) c).isNone then some c else firstFree D d names := by
  rw [firstFree, List.find?_cons]
  cases (firstNamed (children D d) c).isNone <;> rfl

/-! ## The loop -/

section

variable {s : Fs} (hc : s.geom.covers) (I : Inv s.blk) {from_parent to_parent src_ino : UInt32}
  {name : String} (hfrom : kindAt s.blk from_parent.toNat = F_DIR)
  (hto : kindAt s.blk to_parent.toNat = F_DIR)
  (hsrc : firstNamed (children s.blk from_parent.toNat) name = some src_ino)

include hc I hfrom hto hsrc in
/-- A copy to a free name returns an inode if it returns. -/
theorem copy_entry_some (hself : src_ino ≠ to_parent) (dest_name : String)
    (hfree : (view s.blk).Unnamed to_parent.toNat dest_name) (frames : ℕ) :
    Post (copy_entry frames from_parent to_parent name dest_name) s
      (fun r _ => ∃ ino, r = some ino) (fun _ _ => True) := by
  by_cases hreach : Reaches s.blk src_ino.toNat to_parent.toNat
  · exact (copy_entry_never frames s from_parent to_parent src_ino name dest_name hc I
      hfrom hto hfree
      hsrc hself hreach).mono (fun _ _ h => absurd h id) (fun _ _ h => h)
  · refine (copy_entry_runs frames s from_parent to_parent src_ino name dest_name hc I
      hfrom hto hfree
      hsrc hreach).mono ?_ (fun _ _ _ => trivial)
    rintro r s' ⟨-, -, -, ino, hr, -⟩
    exact ⟨ino, hr⟩

include hc I hfrom hto hsrc in
/-- The source is the destination: no name is any good. -/
theorem copy_entry_unique_loop_self (hself : src_ino = to_parent) (frames tries : ℕ) :
    ∀ (n : ℕ) (candidate : String) (t : Fs), s.To t s.blk → ∃ s',
      copy_entry_unique_loop (frames + 1) from_parent to_parent name tries n candidate t
        = .ok none s'
        ∧ s.To s' s.blk ∧ s'.pages ≤ t.pages + 26 * (tries + 1) := by
  have hrefused : ∀ (candidate : String) (t : Fs), s.To t s.blk → ∃ s',
      copy_entry (frames + 1) from_parent to_parent name candidate t = .ok none s' ∧ s.To s' s.blk
        ∧ s'.pages ≤ t.pages + 26 := by
    intro candidate t ht
    rw [← ht.blk] at I hfrom hto hsrc
    obtain ⟨s', hrun, ht', hpages⟩ :=
      copy_entry_refused (hc.of_eq ht.geom) I hfrom hto frames candidate
      (.inr (by rw [hsrc, hself]))
    rw [ht.blk] at ht'
    exact ⟨s', hrun, ht.trans ht', hpages⟩
  induction tries with
  | zero =>
    intro n candidate t ht
    exact hrefused candidate t ht
  | succ tries ih =>
    intro n candidate t ht
    obtain ⟨t', hrun, ht', hpages⟩ := hrefused candidate t ht
    obtain ⟨s', hrest, hs', hpages'⟩ := ih (n + 1) (name ++ " (" ++ toString n ++ ")") t' ht'
    exact ⟨s', (bind_of_ok hrun).trans hrest, hs', by omega⟩

include hc I hfrom hto hsrc in
/-- **The loop** is the copy to the first name that is free, after a look for each that is not. -/
theorem copy_entry_unique_loop_eq (hself : src_ino ≠ to_parent) (frames tries : ℕ) :
    ∀ (n : ℕ) (candidate : String) (t : Fs), s.To t s.blk →
    (firstFree s.blk to_parent.toNat (candidate :: numberedNames name tries n) = none →
      ∃ s', copy_entry_unique_loop (frames + 1) from_parent to_parent name tries n candidate t
        = .ok none s'
        ∧ s.To s' s.blk ∧ s'.pages ≤ t.pages + 13 * (tries + 1))
    ∧ ∀ c, firstFree s.blk to_parent.toNat (candidate :: numberedNames name tries n) = some c →
      ∃ t', s.To t' s.blk ∧ t'.pages ≤ t.pages + 13 * tries
        ∧ copy_entry_unique_loop (frames + 1) from_parent to_parent name tries n candidate t
          = copy_entry (frames + 1) from_parent to_parent name c t' := by
  -- the candidate is taken
  have htaken : ∀ (candidate : String) (t : Fs), s.To t s.blk →
      ¬ (firstNamed (children s.blk to_parent.toNat) candidate).isNone → ∃ s',
      copy_entry (frames + 1) from_parent to_parent name candidate t = .ok none s' ∧ s.To s' s.blk
        ∧ s'.pages ≤ t.pages + 13 := by
    intro candidate t ht hsome
    obtain ⟨ino, hino⟩ := ne_none_iff_exists'.mp (fun h => hsome (isNone_iff_eq_none.mpr h))
    obtain ⟨s', hrun, ht', hpages⟩ := copy_entry_taken (s := t) (hc.of_eq ht.geom)
      (by rw [ht.blk]; exact I) (by rw [ht.blk]; exact hto) frames from_parent name
      (by rw [ht.blk]; exact hino)
    rw [ht.blk] at ht'
    exact ⟨s', hrun, ht.trans ht', hpages⟩
  induction tries with
  | zero =>
    intro n candidate t ht
    rw [firstFree_cons, copy_entry_unique_loop]
    split_ifs with hnone
    · refine ⟨fun h => absurd h (by simp), ?_⟩
      rintro c ⟨⟩
      exact ⟨t, ht, le_rfl, rfl⟩
    · exact ⟨fun _ => htaken candidate t ht hnone,
        fun c h => absurd h (by simp [firstFree, numberedNames])⟩
  | succ tries ih =>
    intro n candidate t ht
    rw [firstFree_cons, copy_entry_unique_loop]
    split_ifs with hnone
    · refine ⟨fun h => absurd h (by simp), ?_⟩
      rintro c ⟨⟩
      refine ⟨t, ht, Nat.le_add_right _ _, ?_⟩
      rw [← ht.blk] at I hfrom hto hsrc hnone
      have hsome := copy_entry_some (hc.of_eq ht.geom) I hfrom hto hsrc hself candidate
        (unnamed_iff.mpr (isNone_iff_eq_none.mp hnone)) (frames + 1)
      cases hrun : copy_entry (frames + 1) from_parent to_parent name candidate t with
      | ok r s' =>
        obtain ⟨ino, rfl⟩ := hsome.of_ok hrun
        rw [bind_of_ok hrun]
        rfl
      | error e s' => rw [bind_of_error hrun]
    · obtain ⟨t', hrun, ht', hpages⟩ := htaken candidate t ht hnone
      obtain ⟨hall, hone⟩ := ih (n + 1) (name ++ " (" ++ toString n ++ ")") t' ht'
      constructor
      · intro h
        obtain ⟨s', hrest, hs', hpages'⟩ := hall h
        exact ⟨s', (bind_of_ok hrun).trans hrest, hs', by omega⟩
      · intro c h
        obtain ⟨t'', ht'', hpages', hrest⟩ := hone c h
        exact ⟨t'', ht'', by omega, (bind_of_ok hrun).trans hrest⟩

end

/-! ## Clean results -/

/-- What is true of a paste that returned `r`: a complete copy under a name that was free, or
nothing has changed. -/
def PasteClean (s : Fs) (to_parent src_ino : UInt32) (name : String) (r : Option UInt32)
    (s' : Fs) : Prop :=
  match r with
  | some ino => ∃ c ∈ pasteNames name, (view s.blk).Unnamed to_parent.toNat c
      ∧ FaithfulCopy s to_parent c src_ino ino s'
  | none => s'.blk = s.blk

/-- The first free name fits in an entry, the source does not lead to the destination, it is
of finite depth, and no directory in it has a name twice. -/
def PasteSafe (D : Disk) (to_parent src_ino : UInt32) (name : String) : Prop :=
  src_ino ≠ to_parent → ∀ c, firstFree D to_parent.toNat (pasteNames name) = some c →
    (nameBytes c).length ≤ 27 ∧ ¬ Reaches D src_ino.toNat to_parent.toNat
      ∧ (∃ k, Shallow D k src_ino.toNat)
      ∧ ∀ y, Below (view D).Link src_ino.toNat y → (view D).NamesUnique y

/-- The pages for a paste of a source that `k` frames suffice for: those of the copy, and of a look
for each of a hundred names. -/
def pastePages (D : Disk) (k : ℕ) (src_ino : UInt32) : ℕ := copyPages D k src_ino.toNat + 1300

/-- **When a paste is clean.** With room and pages for the copy, `copy_entry_unique` returns a
complete copy under a new name, or nothing with nothing changed, exactly if `PasteSafe` holds. -/
theorem copy_entry_unique_clean_iff {s : Fs} (h : Reachable s)
    (from_parent to_parent src_ino : UInt32) (name : String)
    (hfrom : kindAt s.blk from_parent.toNat = F_DIR) (hto : kindAt s.blk to_parent.toNat = F_DIR)
    (hsrc : firstNamed (children s.blk from_parent.toNat) name = some src_ino) {n : ℕ}
    (hn : 2626 ≤ n) (hroom : ∀ k, Shallow s.blk k src_ino.toNat →
      FitsCopy s.blk k to_parent.toNat src_ino.toNat ∧ pastePages s.blk k src_ino ≤ n) :
    (∃ m, ∀ frames, m ≤ frames → ∃ r s',
      copy_entry_unique frames from_parent to_parent name (s.limit n) = .ok r s'
      ∧ PasteClean s to_parent src_ino name r (s'.on none))
        ↔ PasteSafe s.blk to_parent src_ino name := by
  obtain ⟨hc, I⟩ := h.inv
  have hself0 := Fs.To.rfl s
  have hpaged : ∀ frames, Paged (copy_entry_unique frames from_parent to_parent name) :=
    fun frames => paged_copy_entry_unique_loop _ _ _ _ _ _ _
  -- a result that leaves pages is one of the machine with less memory
  have hlimit : ∀ {frames r s'}, copy_entry_unique frames from_parent to_parent name s = .ok r s' →
      s'.geom = s.geom → s'.pages ≤ s.pages + n → PasteClean s to_parent src_ino name r s' →
      ∃ r t, copy_entry_unique frames from_parent to_parent name (s.limit n) = .ok r t
        ∧ PasteClean s to_parent src_ino name r (t.on none) := by
    intro frames r s' hrun hgeom hle hclean
    refine ⟨r, _, limit_of_free (hpaged frames) hrun hle, ?_⟩
    show PasteClean s to_parent src_ino name r (s'.on none)
    rw [Fs.on_none (by rw [hgeom]; exact hc.2)]
    exact hclean
  constructor
  · rintro ⟨m, hm⟩ hself c hfirst
    obtain ⟨r, t', hlim, hclean⟩ := hm (m + 1) (by omega)
    obtain ⟨s', rfl⟩ : ∃ s', s' = t'.on none := ⟨_, rfl⟩
    have hrun := free_of_limit (hpaged _) hc.2 hlim
    obtain ⟨-, hfree⟩ := unnamed_of_firstFree hfirst
    obtain ⟨t, ht, -, heq⟩ :=
      (copy_entry_unique_loop_eq hc I hfrom hto hsrc hself m 100 1 name s hself0).2 c hfirst
    have hct := hc.of_eq ht.geom
    have hrun' : copy_entry (m + 1) from_parent to_parent name c t = .ok r (t'.on none) :=
      heq.symm.trans hrun
    rw [← ht.blk] at I hfrom hto hfree hsrc
    have hreach : ¬ Reaches t.blk src_ino.toNat to_parent.toNat := by
      intro hreach
      exact (copy_entry_never (m + 1) t from_parent to_parent src_ino name c hct I hfrom hto
        hfree hsrc hself
        hreach).of_ok hrun'
    have hdone :=
      (copy_entry_runs (m + 1) t from_parent to_parent src_ino name c hct I hfrom hto hfree hsrc
      hreach).of_ok hrun'
    rw [ht.blk] at hdone hreach
    obtain ⟨-, hlen, hshallow, ino, rfl, C, -⟩ := hdone
    obtain ⟨_, -, -, hfaithful⟩ := hclean
    exact ⟨hlen, hreach, ⟨_, hshallow⟩, namesUnique_of_sameTree hfaithful.tree C.unique⟩
  · intro hsafe
    by_cases hself : src_ino = to_parent
    · refine ⟨1, fun frames hframes => ?_⟩
      obtain ⟨frames, rfl⟩ := Nat.exists_eq_add_of_le' hframes
      obtain ⟨s', hrun, ht, hpages⟩ :=
        copy_entry_unique_loop_self hc I hfrom hto hsrc hself frames 100 1 name s hself0
      exact hlimit hrun ht.geom (by omega) ht.blk
    · have hloop := fun frames =>
        copy_entry_unique_loop_eq hc I hfrom hto hsrc hself frames 100 1 name s hself0
      cases hfirst : firstFree s.blk to_parent.toNat (pasteNames name) with
      | none =>
        refine ⟨1, fun frames hframes => ?_⟩
        obtain ⟨frames, rfl⟩ := Nat.exists_eq_add_of_le' hframes
        obtain ⟨s', hrun, ht, hpages⟩ := (hloop frames).1 hfirst
        exact hlimit hrun ht.geom (by omega) ht.blk
      | some c =>
        obtain ⟨hlen, hreach, ⟨k, hshallow⟩, hu⟩ := hsafe hself c hfirst
        obtain ⟨hmem, hfree⟩ := unnamed_of_firstFree hfirst
        obtain ⟨hfits, hpages⟩ := hroom k hshallow
        refine ⟨k + 1, fun frames hframes => ?_⟩
        obtain ⟨frames, rfl⟩ :=
          Nat.exists_eq_add_of_le' (Nat.le_trans (Nat.le_add_left 1 k) hframes)
        obtain ⟨t, ht, hlooks, heq⟩ := (hloop frames).2 c hfirst
        have hcopy := copy_entry_runs (frames + 1) t from_parent to_parent src_ino name c
          (hc.of_eq ht.geom) (by rw [ht.blk]; exact I)
          (by rw [ht.blk]; exact hfrom) (by rw [ht.blk]; exact hto) (by rw [ht.blk]; exact hfree)
          (by rw [ht.blk]; exact hsrc) (by rw [ht.blk]; exact hreach)
        rw [CopyBranch, ht.blk, ht.geom] at hcopy
        obtain ⟨r, s', hrun, hgeom, -, -, ino, rfl, C, hused⟩ := hcopy.exists_ok
          (fun _ _ herr => herr hlen k (by omega) hshallow hfits)
        have hcopied := (hused k hshallow).pages
        rw [ht.blk] at hcopied
        unfold pastePages at hpages
        exact hlimit (heq.trans hrun) hgeom (by omega) ⟨c, hmem, hfree,
          C.faithful hc (by rw [hgeom]; exact hc) I hto hu⟩

/-- A directory `a` of the root directory pasted beside itself, with 3000 pages left. -/
theorem copy_entry_unique_beside : ∃ s, Reachable s ∧ ∃ n, ∀ frames, n ≤ frames → ∃ r s',
    copy_entry_unique frames 0 0 "a" (s.limit 3000) = .ok r s'
        ∧ PasteClean s 0 1 "a" r (s'.on none) := by
  obtain ⟨s, q, hreach, hnames, -, hkind, hentry, hfits, hout⟩ := exists_one_dir "a" (by decide)
  have hthere := (hentry 0 q 1 "a").mpr ⟨rfl, rfl, rfl, rfl⟩
  have hfirst : firstNamed (children s.blk 0) "a" = some 1 :=
    firstNamed_of_unique (hnames 0) (e := ((1 : UInt32), "a")) (mem_children.mpr ⟨q, hthere⟩)
  refine ⟨s, hreach,
    (copy_entry_unique_clean_iff hreach 0 0 1 "a" (hkind 0) (hkind 0) hfirst (by decide) ?_).mpr ?_⟩
  · rintro (_ | k) hshallow
    · exact absurd hshallow id
    · have hpages : copyPages s.blk (k + 1) (1 : UInt32).toNat = 147 := (hfits k).2.2
      refine ⟨(hfits k).2.1, ?_⟩
      unfold pastePages
      omega
  · intro _ c hc
    have hshort : ∀ c ∈ pasteNames "a", (nameBytes c).length ≤ 27 := by decide +kernel
    exact ⟨hshort c (unnamed_of_firstFree hc).1, fun hreaches => hout hreaches.below,
      ⟨1, (hfits 0).1⟩, fun y _ => hnames y⟩

/-! ## A name that is too long with its number -/

/-- A name that is too long stops `create_file` when the inode is in use already. -/
theorem create_file_long {s : Fs} (hc : s.geom.covers) (I : Inv s.blk) (parent : UInt32)
    (name : String) (hlive : Live (inodeAt s.blk) parent.toNat)
    (hlong : 27 < (nameBytes name).length) {i : ℕ} (hi : i < 1024)
    (hfree : kindAt s.blk i = F_FREE) :
    ∃ ino s', create_file parent name s = .error .filename_too_long s' ∧ FreshInode s.blk ino
      ∧ s'.blk = newFile s.blk ino := by
  obtain ⟨s1, hbump, hb1, hblk1⟩ := bump_generation_spec s
  have hc1 := hc.of_eq hb1.geom
  obtain ⟨ino, s2, halloc, hfresh, ht2⟩ := (alloc_inode_spec s1 hc1).exists_ok (by
    rintro e t ⟨-, hfull⟩
    rw [hblk1] at hfull
    exact (I.inode_bits i (by omega)).mp (hfull i hi) hfree)
  rw [hblk1] at hfresh ht2
  have hc2 := hc1.of_eq ht2.geom
  obtain ⟨s3, hwrite, ht3⟩ := write_inode_spec s2 ino { (default : Inode) with flags := F_FILE }
    (hc2.holds_inode hfresh.lt)
  have hc3 := hc2.of_eq ht3.geom
  obtain ⟨s4, hread, ht4⟩ := read_inode_spec s3 parent (hc3.holds_inode hlive.1)
  refine ⟨ino.toNat, s4, ?_, hfresh, ?_⟩
  · have hadd : add_dir_entry parent name ino s3 = .error .filename_too_long s4 := by
      rw [add_dir_entry, bind_of_ok hread, if_neg (by omega)]
      rfl
    rw [create_file, bind_of_ok hbump, bind_of_ok halloc, bind_of_ok hwrite, bind_of_error hadd]
  · rw [ht4.blk, ht3.blk, ht2.blk, newFile, newInode]

/-- A name of 27 bytes. -/
def longName : String := "a234567890b234567890c234567"

/-- **A file with a name of 27 bytes pasted beside itself.** The name with a number has 31
bytes: the kernel stops, and the file it has begun is in use without an entry. -/
theorem copy_entry_unique_long_name : ∃ s, Reachable s ∧ Lists s 0 [(1, longName)]
    ∧ 131000 ≤ freeCount s.blk ∧ ∀ frames, ∃ ino t,
      copy_entry_unique (frames + 1) 0 0 longName s = .error .filename_too_long t
      ∧ kindAt s.blk ino = F_FREE ∧ kindAt t.blk ino = F_FILE
      ∧ ∀ d q n, (view t.blk).entry d q ≠ some (ino, n) := by
  obtain ⟨-, s, q, -, -, -, hreach, hview, hcount⟩ :=
    exists_created .file longName (by decide +kernel)
  obtain ⟨hc, I⟩ := hreach.inv
  have hkind := kindAt_of_root_create hview
  have hentry : ∀ d t i n, (view s.blk).entry d t = some (i, n) ↔ d = 0 ∧ t = q ∧ i = 1
      ∧ n = longName := by
    intro d t i n
    rw [hview, View.entry_root_create]
  have hlists : listing s.blk (inodeAt s.blk 0) = [(1, longName)] :=
    listing_one I (q := q) (hkind 0) fun t i n => (hentry 0 t i n).trans (and_iff_right rfl)
  have hchildren : children s.blk 0 = [(1, longName)] := (children_of_dir (hkind 0)).trans hlists
  have hfirst : firstNamed (children s.blk 0) longName = some 1 := by
    rw [hchildren]
    decide +kernel
  -- the first name that is free is the one with the number 1
  have hfree : firstFree s.blk 0 (pasteNames longName)
      = some (longName ++ " (" ++ toString 1 ++ ")") := by
    rw [pasteNames, firstFree_cons, hfirst, if_neg (by simp), numberedNames, firstFree_cons,
      hchildren, if_pos]
    decide +kernel
  refine ⟨s, hreach, (lists_iff hc I.acc (d := 0) (hkind 0) _).mpr hlists.symm, hcount,
    fun frames => ?_⟩
  have hloop := @copy_entry_unique_loop_eq s hc I 0 0 1 longName (hkind 0) (hkind 0) hfirst
    (by decide) frames
    100 1 longName s (Fs.To.rfl s)
  obtain ⟨t, ht, -, heq⟩ := hloop.2 _ hfree
  have hct := hc.of_eq ht.geom
  obtain ⟨t1, ht1, -, hcopy⟩ := @copy_entry_accepted t hct (by rw [ht.blk]; exact I) 0 0 longName _
    (by rw [ht.blk]; exact hkind 0) (by rw [ht.blk]; exact hkind 0) frames 1
    (by rw [ht.blk]; exact (unnamed_of_firstFree hfree).2)
      (by rw [ht.blk]; exact hfirst) (by decide)
  rw [ht.blk] at ht1
  have hfile : kindAt t1.blk (1 : UInt32).toNat = F_FILE := by
    rw [ht1.blk]
    exact hkind 1
  have I1 : Inv t1.blk := by rw [ht1.blk]; exact I
  have hc1 := hct.of_eq ht1.geom
  obtain ⟨t2, hread, ht2⟩ := read_file_spec t1 hc1 1 (I1.target hfile)
  rw [ht1.blk] at ht2
  have hlive : Live (inodeAt t2.blk) (0 : UInt32).toNat := by
    rw [ht2.blk]
    exact live_of_dir (hkind 0)
  obtain ⟨ino, t3, hcreate, hfresh, hblk⟩ := create_file_long (hc1.of_eq ht2.geom)
    (by rw [ht2.blk]; exact I) 0 (longName ++ " (" ++ toString 1 ++ ")") hlive
    (by decide +kernel) (by decide : 2 < 1024) (by rw [ht2.blk]; exact hkind 2)
  rw [ht2.blk] at hfresh hblk
  have hino := I.free_of_fresh hfresh
  have hview' : view t3.blk = (view s.blk).setFlags ino F_FILE := by
    rw [hblk]
    exact view_newInode I.acc hfresh.lt
      (by rw [← kindAt_of_lt _ hfresh.lt]; exact hino) bare_file rfl
  refine ⟨ino, t3, ?_, hino, ?_, ?_⟩
  · show copy_entry_unique_loop (frames + 1) 0 0 longName 100 1 longName s = _
    rw [heq, hcopy, ht.blk, if_neg (by rw [hkind]; decide), copy_data, bind_of_ok hread,
      bind_of_error hcreate]
  · rw [← view_flags, hview']
    exact Function.update_self _ _ _
  · intro d t n h
    rw [hview'] at h
    rw [((hentry d t ino n).mp h).2.2.1, hkind] at hino
    exact absurd hino (by decide)

end HepOS.HepFS
