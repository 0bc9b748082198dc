/-
Copying a directory into itself.

`copy_entry` refuses a destination that is the source, and no other. When the destination lies
deeper in the source, the copy comes to it: the new directory is an entry of the destination, the
destination is copied into the new directory, and with it the new directory, and so on. The comment
on `copy_entry` says that the file manager cannot ask for this, because a paste goes to the
directory that is shown; that can be this one, since the clipboard outlives a change of directory.
The recursion does not end before the inodes, the blocks or the stack do, and then the kernel stops.
The argument is an induction on the stack frames: the child of the source that leads to the
destination is copied into the new directory, and it leads there too.

Everything else a tree can hold is copied within 1024 frames, because a chain of entries
passes through every inode at most once.
-/
import HepOS.HepFS.Copies

set_option autoImplicit false

namespace HepOS.HepFS

open Bytes Hoare Ledger Trace Chains List

/-! ## A copy that comes to its destination -/

section

variable {D D' : Disk} {d x : ℕ}

/-- What leads to the one inode that is touched still leads there. -/
theorem Kept.reaches_touched (K : Kept D D' (· = d)) (I : Inv D) (hx : Live (inodeAt D) x)
    (h : Reaches D x d) : Reaches D' x d := by
  induction h using Relation.ReflTransGen.head_induction_on with
  | refl => exact .refl
  | head hstep _ ih =>
    rename_i a c _
    by_cases ha : a = d
    · rw [ha]
      exact .refl
    · refine (ih (hstep.live I)).head ?_
      rw [Walk, K.children hx ha]
      exact hstep

/-- The entry of a name that was not there is the first of that name. -/
theorem Created.walk {i : ℕ} {kind : UInt32} {dest : String} {q : ℕ × ℕ}
    (C : Created D i kind d dest q D') (hfree : (view D).Unnamed d dest) : Walk D' d i := by
  have hentry := C.entry_dir q
  rw [if_pos rfl] at hentry
  obtain ⟨new, hino, hmem⟩ := exists_child hentry
  refine ⟨(new, dest), mem_firsts.mpr ⟨not_mem_nil, ?_⟩, hino⟩
  cases hfirst : firstNamed (children D' d) dest with
  | none => exact absurd (mem_map.mpr ⟨_, hmem, rfl⟩) (firstNamed_eq_none.mp hfirst)
  | some ino =>
    obtain ⟨t, ht⟩ := mem_children.mp (firstNamed_mem hfirst)
    have ht' := C.entry_dir t
    by_cases htq : t = q
    · rw [htq, hentry, Option.some.injEq, Prod.mk.injEq] at ht
      rw [UInt32.toNat_inj.mp (hino.trans ht.1)]
    · rw [if_neg htq, ht] at ht'
      exact absurd ht'.symm (hfree t _)

end

/-- A copy that passes the checks and comes to its destination does not return. -/
def CopyNever (frames : ℕ) : Prop :=
  ∀ (s : Fs) (from_parent to_parent src_ino : UInt32) (name dest_name : String),
    s.geom.covers → Inv s.blk → kindAt s.blk from_parent.toNat = F_DIR →
    kindAt s.blk to_parent.toNat = F_DIR → (view s.blk).Unnamed to_parent.toNat dest_name →
    firstNamed (children s.blk from_parent.toNat) name = some src_ino → src_ino ≠ to_parent →
    Reaches s.blk src_ino.toNat to_parent.toNat →
    Post (copy_entry frames from_parent to_parent name dest_name) s (fun _ _ => False)
      (fun _ _ => True)

section

variable {frames : ℕ} {D₁ : Disk} {src new : UInt32} (hnever : CopyNever frames) (I₁ : Inv D₁)
  (hsrc : kindAt D₁ src.toNat = F_DIR) (hnew : kindAt D₁ new.toNat = F_DIR)
  (hne : src.toNat ≠ new.toNat) (hchild : ∀ e ∈ children D₁ src.toNat, e.1.toNat ≠ new.toNat)

include hnever I₁ hsrc hnew hne hchild in
/-- The loop over the children, when one of those to come leads to the new directory. -/
theorem copy_children_never (rest : List (UInt32 × String)) :
    ∀ (before : List (UInt32 × String)) (seen : List String) (s : Fs),
    children D₁ src.toNat = before ++ rest → (∀ n, n ∈ seen ↔ n ∈ before.map Prod.snd) →
    s.geom.covers → Filled D₁ src.toNat new.toNat seen s.blk →
    (∃ e ∈ firsts seen rest, Reaches D₁ e.1.toNat new.toNat) →
    Post (copy_children (fun child_name => copy_entry frames src new child_name child_name) rest) s
      (fun _ _ => False) (fun _ _ => True) := by
  -- on the children left; the one that leads to `new` is still among them
  induction rest with
  | nil =>
    rintro before seen s - - - - ⟨e, he, -⟩
    exact absurd he not_mem_nil
  | cons child rest ih =>
    obtain ⟨c, n⟩ := child
    intro before seen s hsplit hseen hc F hex
    have hmem : (c, n) ∈ children D₁ src.toNat := by
      rw [hsplit]
      simp
    have hsplit' : children D₁ src.toNat = (before ++ [(c, n)]) ++ rest := by
      rw [hsplit, append_assoc, singleton_append]
    rw [copy_children]
    cases frames with
    | zero => exact Post.of_eq_error (bind_of_error rfl) trivial
    | succ frames =>
      obtain ⟨hdir, hchildren⟩ := F.source hsrc hne
      -- a name already copied is refused and changes nothing
      by_cases hn : n ∈ seen
      · obtain ⟨s1, hrun, ht, -⟩ := F.taken hc src frames hn
        refine Post.step hrun ?_
        rw [firsts_cons_of_mem hn] at hex
        exact ih (before ++ [(c, n)]) seen s1 hsplit' (names_snoc_of_mem hseen hn)
          (hc.of_eq ht.geom) (by rw [ht.blk]; exact F) hex
      · have hfirst : firstNamed (children D₁ src.toNat) n = some c := by
          rw [hsplit]
          exact firstNamed_append_cons (fun h => hn ((hseen n).mpr h))
        have hwalk : (c, n) ∈ firsts [] (children D₁ src.toNat) :=
          mem_firsts.mpr ⟨not_mem_nil, hfirst⟩
        have hlive := (walk_of_mem hwalk).live I₁
        have hunnamed : (view s.blk).Unnamed new.toNat n :=
          fun q j hq => hn ((F.names n).mp ⟨q, j, hq⟩)
        by_cases hreach : Reaches D₁ c.toNat new.toNat
        · -- this child leads to the new directory, into which it is copied
          have hcopy := hnever s src new c n n hc F.inv hdir F.dir hunnamed
            (by rw [hchildren]; exact hfirst)
            (fun h => hchild _ hmem (by rw [h])) (F.kept.reaches_touched I₁ hlive hreach)
          exact Post.seq hcopy (fun _ _ h => absurd h id)
        · have hout : ∀ z, Reaches D₁ c.toNat z → ¬ z = new.toNat := by
            rintro z hz rfl
            exact hreach hz
          have hcopy := copy_entry_runs (frames + 1) s src new c n n hc F.inv hdir F.dir hunnamed
            (by rw [hchildren]; exact hfirst)
            (fun hz => hout _ (F.kept.reaches I₁ hlive hout hz) rfl)
          refine Post.seq (hcopy.mono (fun _ _ h => h) (fun _ _ _ => trivial)) ?_
          rintro _ s1 ⟨hgeom, -, -, j, -, C, -⟩
          refine ih (before ++ [(c, n)]) (n :: seen) s1 hsplit' (names_snoc hseen)
            (by rw [hgeom]; exact hc) (F.child I₁ (live_of_dir hsrc) hnew hfirst C hn) ?_
          obtain ⟨e, he, her⟩ := hex
          rw [firsts_cons_of_not_mem hn] at he
          rcases mem_cons.mp he with rfl | he
          · exact absurd her hreach
          · exact ⟨e, he, her⟩

end

/-- **Copying into itself does not end**, whatever the stack. -/
theorem copy_entry_never (frames : ℕ) : CopyNever frames := by
  induction frames with
  | zero =>
    intro s from_parent to_parent src_ino name dest_name _ _ _ _ _ _ _ _
    exact Post.throw trivial
  | succ frames ih =>
    intro s from_parent to_parent src_ino name dest_name hc I hfrom hto hfree hfirst hself hreach
    have hne : src_ino.toNat ≠ to_parent.toNat := fun h => hself (UInt32.toNat_inj.mp h)
    obtain ⟨t, ht, -, hrun⟩ := copy_entry_accepted hc I hfrom hto frames hfree hfirst hself
    obtain ⟨q0, hq0⟩ := mem_children.mp (firstNamed_mem hfirst)
    have hslive := I.live_of_entry hq0
    have hlive := live_of_dir hto
    -- the first step of the walk
    obtain ⟨c, ⟨e, he, hec⟩, hrest⟩ : ∃ c, Walk s.blk src_ino.toNat c
        ∧ Reaches s.blk c to_parent.toNat := by
      rcases Relation.ReflTransGen.cases_head hreach with heq | hstep
      · exact absurd heq hne
      · exact hstep
    have hdir : kindAt s.blk src_ino.toNat = F_DIR := by
      obtain ⟨q, hq⟩ := mem_children.mp (mem_of_mem_firsts he)
      exact (view_entry_some.mp hq).1
    unfold Post
    rw [hrun, if_pos hdir]
    have hct := hc.of_eq ht.geom
    have hcreate := create_dir_stores t hct (by rw [ht.blk]; exact I) to_parent dest_name
      (by rw [ht.blk]; exact hto)
    rw [ht.blk] at hcreate
    refine Post.seq (hcreate.mono (fun _ _ h => h) (fun _ _ _ => trivial)) ?_
    rintro ino s1 ⟨hb1, hlen, hfresh, b, q, hb, S⟩
    obtain ⟨C, hkept⟩ := created_dir I hfresh hb hto hlen S
    have hsrc1 : kindAt s1.blk src_ino.toNat = F_DIR := by
      rw [hkept.kindAt hslive hne]
      exact hdir
    have hchildren : children s1.blk src_ino.toNat = children s.blk src_ino.toNat :=
      hkept.children hslive hne
    have hc1 := hct.of_eq hb1.geom
    obtain ⟨s2, hlist, ht2⟩ := list_dir_spec s1 hc1 C.inv.acc src_ino hsrc1
    rw [← children_of_dir hsrc1] at hlist
    refine Post.step hlist ?_
    have hloop := copy_children_never ih C.inv hsrc1 C.kind_new (C.dir_ne hslive) (by
        intro e he
        rw [hchildren] at he
        obtain ⟨q', hq'⟩ := mem_children.mp he
        exact C.dir_ne (I.live_of_entry hq'))
      (children s1.blk src_ino.toNat) [] [] s2 rfl (fun n => Iff.rfl) (hc1.of_eq ht2.geom)
      (by rw [ht2.blk]; exact Filled.start C (C.dir_ne hlive)) (by
        refine ⟨e, by rw [hchildren]; exact he, ?_⟩
        rw [hec]
        have hclive : Live (inodeAt s.blk) c := by
          rw [← hec]
          exact (walk_of_mem he).live I
        exact (hkept.reaches_touched I hclive hrest).tail (C.walk hfree))
    exact Post.seq hloop (fun _ _ h => absurd h id)

/-! ## The depth of a tree -/

/-- A chain of entries has fewer links than there are inodes. -/
theorem length_chain {D : Disk} (I : Inv D) {l : List (ℕ × (ℕ × ℕ))} {x : ℕ}
    (h : Chain (view D).Link 0 l x) (hx : Live (inodeAt D) x) : l.length < 1024 := by
  have hnodup := h.nodup (fun _ _ _ _ _ h1 h2 => I.linked.link_inj h1 h2) (fun _ _ h0 => h0.2.1 rfl)
  have hsub : (x :: l.map Prod.fst).toFinset ⊆ Finset.range 1024 := by
    intro y hy
    rw [mem_toFinset, mem_cons] at hy
    rw [Finset.mem_range]
    rcases hy with rfl | hy
    · exact hx.1
    · obtain ⟨q, z, hlink⟩ := h.links y hy
      exact (live_of_dir hlink.1).1
  have hcard := Finset.card_le_card hsub
  rw [toFinset_card_of_nodup hnodup, Finset.card_range, length_cons, length_map] at hcard
  omega

/-- **In a tree a copy needs 1024 frames at most.** -/
theorem shallow_of_rooted {D : Disk} (I : Inv D) (h : (view D).Rooted) {x : ℕ}
    (hx : Live (inodeAt D) x) :
    Shallow D 1024 x := by
  have hdepth : ∀ k (l : List (ℕ × (ℕ × ℕ))) (y : ℕ), Chain (view D).Link 0 l y →
    Live (inodeAt D) y →
      1024 ≤ l.length + k → Shallow D k y := by
    intro k
    induction k with
    | zero =>
      intro l y hl hy hlen
      have := length_chain I hl hy
      omega
    | succ k ih =>
      intro l y hl hy hlen e he
      have hwalk := walk_of_mem he
      obtain ⟨q, hlink⟩ := hwalk.link
      exact ih ((y, q) :: l) _ (.link hl hlink) (hwalk.live I) (by rw [length_cons]; omega)
  obtain ⟨l, hl⟩ := h x (live_iff_kindAt.mp hx)
  exact hdepth 1024 l x hl hx (by omega)

/-! ## Copies that end -/

/-- The copy is refused, or its name fits and the source does not lead to the destination. -/
def CopyEnds (D : Disk) (from_parent to_parent : UInt32) (name dest_name : String) : Prop :=
  (view D).Unnamed to_parent.toNat dest_name → ∀ src_ino,
    firstNamed (children D from_parent.toNat) name = some src_ino → src_ino ≠ to_parent →
    (nameBytes dest_name).length ≤ 27 ∧ ¬ Reaches D src_ino.toNat to_parent.toNat

section

variable {s : Fs} (hc : s.geom.covers) (I : Inv s.blk) {from_parent to_parent : UInt32}
  {name dest_name : String} (hfrom : kindAt s.blk from_parent.toNat = F_DIR)
  (hto : kindAt s.blk to_parent.toNat = F_DIR)

include hc I hfrom hto

theorem copyEnds_of_returns {frames : ℕ} {r : Option UInt32} {s' : Fs}
    (hrun : copy_entry frames from_parent to_parent name dest_name s = .ok r s') :
    CopyEnds s.blk from_parent to_parent name dest_name := by
  intro hfree src_ino hfirst hself
  have hreach : ¬ Reaches s.blk src_ino.toNat to_parent.toNat := fun hreach =>
    (copy_entry_never frames s from_parent to_parent src_ino name dest_name hc I hfrom
      hto hfree hfirst
      hself hreach).of_ok hrun
  obtain ⟨-, hlen, -⟩ :=
    (copy_entry_runs frames s from_parent to_parent src_ino name dest_name hc I hfrom
    hto hfree hfirst hreach).of_ok hrun
  exact ⟨hlen, hreach⟩

/-- In a tree 1024 frames are enough. -/
theorem returns_of_copyEnds (hrooted : (view s.blk).Rooted) {pages : ℕ} (hlooks : 26 ≤ pages)
    (hroom : ∀ src_ino, firstNamed (children s.blk from_parent.toNat) name = some src_ino →
      FitsCopy s.blk 1024 to_parent.toNat src_ino.toNat
        ∧ copyPages s.blk 1024 src_ino.toNat ≤ pages)
    (h : CopyEnds s.blk from_parent to_parent name dest_name) {frames : ℕ}
    (hframes : 1024 ≤ frames) :
    ∃ r s', copy_entry frames from_parent to_parent name dest_name (s.limit pages) = .ok r s' := by
  have hpaged := paged_copy_entry frames from_parent to_parent name dest_name
  obtain ⟨n, rfl⟩ := Nat.exists_eq_add_of_le' (show 1 ≤ frames by omega)
  -- a name taken, no source, the source itself: refused after a look or two
  cases htaken : firstNamed (children s.blk to_parent.toNat) dest_name with
  | some ino =>
    obtain ⟨s', hrun, -, hle⟩ := copy_entry_taken hc I hto n from_parent name htaken
    exact ⟨none, _, limit_of_free hpaged hrun (by omega)⟩
  | none =>
    cases hfirst : firstNamed (children s.blk from_parent.toNat) name with
    | none =>
      obtain ⟨s', hrun, -, hle⟩ := copy_entry_refused hc I hfrom hto n dest_name (.inl hfirst)
      exact ⟨none, _, limit_of_free hpaged hrun (by omega)⟩
    | some src_ino =>
      by_cases hself : src_ino = to_parent
      · obtain ⟨s', hrun, -, hle⟩ := copy_entry_refused hc I hfrom hto n dest_name
          (.inr (by rw [hfirst, hself]))
        exact ⟨none, _, limit_of_free hpaged hrun (by omega)⟩
      · have hfree := unnamed_iff.mpr htaken
        obtain ⟨hlen, hreach⟩ := h hfree src_ino hfirst hself
        obtain ⟨q, hq⟩ := mem_children.mp (firstNamed_mem hfirst)
        have hshallow := shallow_of_rooted I hrooted (I.live_of_entry hq)
        obtain ⟨hfits, hpages⟩ := hroom src_ino hfirst
        obtain ⟨r, s', hrun, -, -, -, -, -, -, hused⟩ :=
          (copy_entry_runs (n + 1) s from_parent to_parent
          src_ino name dest_name hc I hfrom hto hfree hfirst hreach).exists_ok
          (fun _ _ herr => herr hlen 1024 hframes hshallow hfits)
        have hle := (hused 1024 hshallow).pages
        exact ⟨r, _, limit_of_free hpaged hrun (by omega)⟩

end

/-- **When a copy ends.** On a disk that is a tree, and with room and pages for the copy, a copy of
an entry to a directory returns exactly if the source does not lead to the destination and the name
fits, or the copy is refused. -/
theorem copy_entry_returns_iff {s : Fs} (h : Reachable s) (hrooted : (view s.blk).Rooted)
    {from_parent to_parent : UInt32} (hfrom : kindAt s.blk from_parent.toNat = F_DIR)
    (hto : kindAt s.blk to_parent.toNat = F_DIR) (name dest_name : String) {pages : ℕ}
    (hlooks : 26 ≤ pages)
    (hroom : ∀ src_ino, firstNamed (children s.blk from_parent.toNat) name = some src_ino →
      FitsCopy s.blk 1024 to_parent.toNat src_ino.toNat
        ∧ copyPages s.blk 1024 src_ino.toNat ≤ pages) :
    (∃ n, ∀ frames, n ≤ frames → ∃ r s',
      copy_entry frames from_parent to_parent name dest_name (s.limit pages) = .ok r s')
      ↔ CopyEnds s.blk from_parent to_parent name dest_name := by
  obtain ⟨hc, I⟩ := h.inv
  constructor
  · rintro ⟨n, hn⟩
    obtain ⟨r, s', hcopy⟩ := hn n le_rfl
    exact copyEnds_of_returns hc I hfrom hto (free_of_limit (paged_copy_entry _ _ _ _ _) hc.2 hcopy)
  · -- no branch of a rooted tree is longer than the inode table
    intro hends
    exact ⟨1024, fun frames hframes =>
      returns_of_copyEnds hc I hfrom hto hrooted hlooks hroom hends hframes⟩

/-- The empty directory `/a` copied to `/c` with 200 pages left. -/
theorem copy_entry_returns_iff_beside : ∃ s, Reachable s ∧ (view s.blk).Rooted
    ∧ ∃ n, ∀ frames, n ≤ frames → ∃ r s', copy_entry frames 0 0 "a" "c" (s.limit 200)
      = .ok r s' := by
  obtain ⟨s, q, hreach, -, hrooted, hkind, hentry, hfits, hout⟩ := exists_one_dir "a" (by decide)
  have hsrc : ∀ src_ino, firstNamed (children s.blk 0) "a" = some src_ino → src_ino = 1 := by
    intro src_ino hfirst
    obtain ⟨t, ht⟩ := mem_children.mp (firstNamed_mem hfirst)
    exact UInt32.toNat_inj.mp ((hentry _ _ _ _).mp ht).2.2.1
  refine ⟨s, hreach, hrooted,
    (@copy_entry_returns_iff s hreach hrooted 0 0 (hkind 0) (hkind 0) "a" "c" 200
      (by decide) ?_).mpr ?_⟩
  · intro src_ino hfirst
    cases hsrc src_ino hfirst
    obtain ⟨-, hroom, hpages⟩ := hfits 1023
    exact ⟨hroom, hpages.trans_le (by decide)⟩
  · intro _ src_ino hfirst _
    cases hsrc src_ino hfirst
    exact ⟨by decide, fun hreaches => hout hreaches.below⟩

/-- **The directory `/a` copied into `/a/b`.** However deep the stack is, the copy does not
return. -/
theorem copy_into_itself_never_returns : ∃ s, Reachable s ∧ (view s.blk).Rooted
    ∧ 130000 ≤ freeCount s.blk
    ∧ (∀ d t i n, (view s.blk).entry d t = some (i, n) → (d, i, n) = (0, 1, "a")
      ∨ (d, i, n) = (1, 2, "b"))
    ∧ ∀ frames r s', copy_entry frames 0 2 "a" "a" s ≠ .ok r s' := by
  obtain ⟨-, -, s, q1, q2, -, -, -, -, hreach, hview, hrooted, hcount⟩ := exists_nested_dirs
  obtain ⟨hc, I⟩ := hreach.inv
  have hentry : ∀ d t i n, (view s.blk).entry d t = some (i, n)
      ↔ d = 1 ∧ t = q2 ∧ i = 2 ∧ n = "b" ∨ d = 0 ∧ t = q1 ∧ i = 1 ∧ n = "a" := by
    intro d t i n
    rw [hview, View.entry_create, View.entry_create]
    split_ifs with h1 h2 <;> simp_all [View.root, eq_comm]
  have hkind : ∀ i, kindAt s.blk i = if i = 2 then F_DIR else if i = 1 then F_DIR
      else if i = 0 then F_DIR else F_FREE := by
    intro i
    rw [← view_flags, hview, View.flags_create, View.flags_root_create]
  have hroot : children s.blk 0 = [(1, "a")] := by
    rw [children_of_dir (hkind 0)]
    exact listing_one I (q := q1) (hkind 0) (fun t i n => by simp [hentry])
  have ha : children s.blk 1 = [(2, "b")] := by
    rw [children_of_dir (hkind 1)]
    exact listing_one I (q := q2) (hkind 1) (fun t i n => by simp [hentry])
  refine ⟨s, hreach, hrooted, hcount, fun d t i n h => ?_, fun frames r s' hcopy => ?_⟩
  · rcases (hentry d t i n).mp h with ⟨rfl, -, rfl, rfl⟩ | ⟨rfl, -, rfl, rfl⟩
    · exact .inr rfl
    · exact .inl rfl
  · -- the entry `b` of the source is the destination
    have hwalk : Reaches s.blk 1 2 :=
      .single ⟨(2, "b"), by rw [ha]; simp [firsts], rfl⟩
    exact (copy_entry_never frames s 0 2 1 "a" "a" hc I (hkind 0) (hkind 2)
      (fun t i h => by simp [hentry] at h)
      (by show firstNamed (children s.blk 0) "a" = some 1; rw [hroot]; rfl)
        (by decide) hwalk).of_ok hcopy

end HepOS.HepFS
