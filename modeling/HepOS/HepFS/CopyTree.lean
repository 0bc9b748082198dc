/-
Copies of a tree.

`SameTree v w x y`: what hangs below `y` in `w` is a copy of what hangs below `x` in `v`. Files
have the same bytes, and the entries of two directories correspond one to one, with the same
names, to copies again.

`CopyDone` is what a finished copy has done to the disk, and `Filled` what the loop over the
children has done so far to the new directory. The step of the loop is `Filled.child`. That
earlier copies stay what they are rests on the new inodes being new: what hangs below an
earlier copy was free when the loop began, and the directory that is filled was not.
-/
import HepOS.HepFS.Needs
import HepOS.HepFS.Relink
import HepOS.HepFS.Undo

set_option autoImplicit false

namespace HepOS.HepFS

open Bytes Hoare Ledger Trace Chains Option

/-! ## Trees -/

/-- No name stands twice in the directory. -/
def View.NamesUnique (v : View) (d : ℕ) : Prop :=
  ∀ q q' i i' name, v.entry d q = some (i, name) → v.entry d q' = some (i', name) → q = q'

/-- What hangs below `y` in `w` is a copy of what hangs below `x` in `v`. The entry at a place
`q` corresponds to the one at the place `m q`, which is for the inode `child q`. -/
inductive View.SameTree (v w : View) : ℕ → ℕ → Prop
  | file {x y : ℕ} (hx : v.flags x = F_FILE) (hy : w.flags y = F_FILE)
      (hbytes : w.bytes y = v.bytes x) : SameTree v w x y
  | dir {x y : ℕ} (m : ℕ × ℕ → ℕ × ℕ) (child : ℕ × ℕ → ℕ) (hx : v.flags x = F_DIR)
      (hy : w.flags y = F_DIR)
      (hto : ∀ q i name, v.entry x q = some (i, name) → w.entry y (m q) = some (child q, name))
      (hinj : ∀ q q', v.entry x q ≠ none → v.entry x q' ≠ none → m q = m q' → q = q')
      (honto : ∀ q', w.entry y q' ≠ none → ∃ q, v.entry x q ≠ none ∧ m q = q')
      (hchild : ∀ q i name, v.entry x q = some (i, name) → SameTree v w i (child q)) :
      SameTree v w x y

/-- The two views show the same of the inode. -/
structure View.Agrees (v w : View) (i : ℕ) : Prop where
  flags : w.flags i = v.flags i
  entry : w.entry i = v.entry i
  bytes : w.bytes i = v.bytes i

theorem View.Agrees.symm {v w : View} {i : ℕ} (h : v.Agrees w i) : w.Agrees v i :=
  ⟨h.flags.symm, h.entry.symm, h.bytes.symm⟩

theorem Kept.agrees {D D' : Disk} {touched : ℕ → Prop} (K : Kept D D' touched)
    (A : Acc D (inodeAt D)) {i : ℕ} (hi : Live (inodeAt D) i) (ht : ¬ touched i) :
    (view D).Agrees (view D') i := by
  have hframe := view_frame A hi.1 (K.record i hi ht) (fun _ => K.blocks i hi ht)
  exact ⟨K.kindAt hi ht, hframe.1, hframe.2⟩

section

variable {D D' : Disk} {x y z : ℕ}

theorem link_of_entry {q : ℕ × ℕ} {name : String} (h : (view D).entry x q = some (y, name)) :
    (view D).Link x q y := ⟨(view_entry_some.mp h).1, view_entry_ne_zero h, name, h⟩

theorem below_live (I : Inv D) (hx : Live (inodeAt D) x) (h : Below (view D).Link x y) :
    Live (inodeAt D) y := by
  rcases Relation.ReflTransGen.cases_tail h with rfl | ⟨z, -, q, -, -, name, he⟩
  · exact hx
  · exact I.live_of_entry he

theorem below_of_agrees {w : View} (hagree : ∀ a, Below (view D).Link x a → (view D).Agrees w a)
    (h : Below w.Link x y) : Below (view D).Link x y := by
  induction h with
  | refl => exact .refl
  | tail _ hstep ih =>
    obtain ⟨q, hflags, hne, name, he⟩ := hstep
    have ha := hagree _ ih
    exact ih.tail ⟨q, by rw [← ha.flags]; exact hflags, hne, name, by rw [← ha.entry]; exact he⟩

theorem sameTree_congr {v' w' : View} (h : (view D).SameTree (view D') x y)
    (hv : ∀ a, Below (view D).Link x a → (view D).Agrees v' a)
    (hw : ∀ b, Below (view D').Link y b → (view D').Agrees w' b) : v'.SameTree w' x y := by
  induction h with
  | file hx hy hbytes =>
    have hax := hv _ .refl
    have hay := hw _ .refl
    exact .file (hax.flags.trans hx) (hay.flags.trans hy)
      (by rw [hay.bytes, hax.bytes]; exact hbytes)
  | dir m child hx hy hto hinj honto hchild ih =>
    have hax := hv _ .refl
    have hay := hw _ .refl
    refine .dir m child (hax.flags.trans hx) (hay.flags.trans hy) ?_ ?_ ?_ ?_
    · intro q i name he
      rw [hax.entry] at he
      rw [hay.entry]
      exact hto q i name he
    · rw [hax.entry]
      exact hinj
    · rw [hax.entry, hay.entry]
      exact honto
    · intro q i name he
      rw [hax.entry] at he
      refine ih q i name he ?_ ?_
      · exact fun a ha => hv a (ha.head ⟨q, link_of_entry he⟩)
      · exact fun b hb => hw b (hb.head ⟨m q, link_of_entry (hto q i name he)⟩)

/-- Two directories with the same names, each once, are copies when the inodes of the same name
are. -/
theorem sameTree_of_names {v w : View} (hx : v.flags x = F_DIR) (hy : w.flags y = F_DIR)
    (hvx : v.NamesUnique x) (hwy : w.NamesUnique y)
    (hnames : ∀ name, (∃ q j, w.entry y q = some (j, name)) ↔ ∃ q i, v.entry x q = some (i, name))
    (hchild : ∀ q i q' j name, v.entry x q = some (i, name) → w.entry y q' = some (j, name) →
      v.SameTree w i j) : v.SameTree w x y := by
  have hpartner : ∀ q, ∃ p : (ℕ × ℕ) × ℕ, ∀ i name, v.entry x q = some (i, name) →
      w.entry y p.1 = some (p.2, name) := by
    intro q
    cases he : v.entry x q with
    | none => exact ⟨((0, 0), 0), fun i name h => absurd h (by simp)⟩
    | some e =>
      obtain ⟨i, name⟩ := e
      obtain ⟨q', j, he'⟩ := (hnames name).mpr ⟨q, i, he⟩
      refine ⟨(q', j), fun i' name' h => ?_⟩
      rw [Option.some.injEq, Prod.mk.injEq] at h
      rw [← h.2]
      exact he'
  choose p hp using hpartner
  refine .dir (fun q => (p q).1) (fun q => (p q).2) hx hy (fun q i name he => hp q i name he) ?_ ?_
    (fun q i name he => hchild q i (p q).1 (p q).2 name he (hp q i name he))
  · intro q q' hq hq' hm
    obtain ⟨⟨i, name⟩, he⟩ := ne_none_iff_exists'.mp hq
    obtain ⟨⟨i', name'⟩, he'⟩ := ne_none_iff_exists'.mp hq'
    have hsame := hp q i name he
    rw [hm, hp q' i' name' he', Option.some.injEq, Prod.mk.injEq] at hsame
    rw [hsame.2] at he'
    exact hvx q q' i i' name he he'
  · intro q' hq'
    obtain ⟨⟨j, name⟩, he'⟩ := ne_none_iff_exists'.mp hq'
    obtain ⟨q, i, he⟩ := (hnames name).mp ⟨q', j, he'⟩
    exact ⟨q, by rw [he]; simp, hwy _ _ _ _ name (hp q i name he) he'⟩

/-- A source whose copy has no name twice has none either. -/
theorem namesUnique_of_sameTree (h : (view D).SameTree (view D') x y)
    (hw : ∀ b, Below (view D').Link y b → (view D').NamesUnique b) :
    ∀ a, Below (view D).Link x a → (view D).NamesUnique a := by
  induction h with
  | file hx hy _ =>
    intro a ha q q' i i' name he
    rcases Relation.ReflTransGen.cases_head ha with rfl | ⟨z, ⟨t, hdir, -⟩, -⟩
    · rw [view_entry_of_not_dir (by rw [← view_flags, hx]; decide)] at he
      simp at he
    · rw [hx] at hdir
      exact absurd hdir (by decide)
  | dir m child hx hy hto hinj honto hchild ih =>
    intro a ha
    rcases Relation.ReflTransGen.cases_head ha with rfl | ⟨z, ⟨t, -, -, n, hz⟩, hza⟩
    · intro q q' i i' name he he'
      refine hinj q q' (by rw [he]; simp) (by rw [he']; simp) ?_
      exact hw _ .refl _ _ _ _ name (hto q i name he) (hto q' i' name he')
    · exact ih t z n hz (fun b hb => hw b (hb.head ⟨m t, link_of_entry (hto t z n hz)⟩)) a hza

/-! ## Entries and the walk of a copy -/

theorem Walk.link (h : Walk D x y) : ∃ q, (view D).Link x q y := by
  obtain ⟨e, he, rfl⟩ := h
  obtain ⟨q, hq⟩ := mem_children.mp (mem_of_mem_firsts he)
  exact ⟨q, link_of_entry hq⟩

theorem Reaches.below (h : Reaches D x y) : Below (view D).Link x y := by
  induction h with
  | refl => exact .refl
  | tail _ hstep ih => exact ih.tail hstep.link

/-- Where a name is unique its first entry is its only one. -/
theorem firstNamed_of_unique {e : UInt32 × String} (hu : (view D).NamesUnique x)
    (h : e ∈ children D x) : firstNamed (children D x) e.2 = some e.1 := by
  cases hfirst : firstNamed (children D x) e.2 with
  | none => exact absurd (List.mem_map.mpr ⟨e, h, rfl⟩) (firstNamed_eq_none.mp hfirst)
  | some ino =>
    obtain ⟨q, hq⟩ := mem_children.mp h
    obtain ⟨q', hq'⟩ := mem_children.mp (firstNamed_mem hfirst)
    have hsame := hu q q' _ _ e.2 hq hq'
    rw [← hsame, hq, Option.some.injEq, Prod.mk.injEq] at hq'
    rw [UInt32.toNat_inj.mp hq'.1]

theorem reaches_of_below (hu : ∀ a, Below (view D).Link x a → (view D).NamesUnique a)
    (h : Below (view D).Link x y) : Reaches D x y := by
  induction h with
  | refl => exact .refl
  | tail hxa hstep ih =>
    obtain ⟨q, -, -, name, he⟩ := hstep
    refine ih.tail ?_
    obtain ⟨ino, hino, hmem⟩ := exists_child he
    exact ⟨_, mem_firsts.mpr ⟨List.not_mem_nil, firstNamed_of_unique (hu _ hxa) hmem⟩, hino⟩

end

/-! ## A finished copy -/

/-- What a copy of `src` to the name `dest` in the directory `d` has done, with `new` its root. -/
structure CopyDone (D : Disk) (d : ℕ) (dest : String) (src new : ℕ) (D' : Disk) : Prop where
  inv : Inv D'
  kept : Kept D D' (· = d)
  owns : ∀ c ∈ owned D (inodeAt D d), c ∈ owned D' (inodeAt D' d)
  was_free : kindAt D new = F_FREE
  entry : ∃ q, (view D).entry d q = none
    ∧ ∀ t, (view D').entry d t = if t = q then some (new, dest) else (view D).entry d t
  fresh : ∀ y, Below (view D').Link new y → kindAt D y = F_FREE ∧ kindAt D' y ≠ F_FREE
  unique : ∀ y, Below (view D').Link new y → (view D').NamesUnique y
  tree : (∀ y, Below (view D).Link src y → (view D).NamesUnique y) →
    (view D).SameTree (view D') src new

/-- What the loop over the children has done to the new directory when it has come to the names
`seen`. -/
structure Filled (D₁ : Disk) (src new : ℕ) (seen : List String) (D : Disk) : Prop where
  inv : Inv D
  kept : Kept D₁ D (· = new)
  dir : kindAt D new = F_DIR
  names : ∀ name, (∃ q j, (view D).entry new q = some (j, name)) ↔ name ∈ seen
  unique : (view D).NamesUnique new
  fresh : ∀ q j name, (view D).entry new q = some (j, name) → ∀ y, Below (view D).Link j y →
    kindAt D₁ y = F_FREE ∧ kindAt D y ≠ F_FREE
  below : ∀ q j name, (view D).entry new q = some (j, name) → ∀ y, Below (view D).Link j y →
    (view D).NamesUnique y
  tree : (∀ y, Below (view D₁).Link src y → (view D₁).NamesUnique y ∧ y ≠ new) →
    ∀ q j name, (view D).entry new q = some (j, name) →
    ∀ c, firstNamed (children D₁ src) name = some c → (view D₁).SameTree (view D) c.toNat j

section

variable {D₁ D D' : Disk} {src new : ℕ} {seen : List String}

/-- The source is what it was when the loop began. -/
theorem Filled.source (F : Filled D₁ src new seen D) (hsrc : kindAt D₁ src = F_DIR)
    (hne : src ≠ new) : kindAt D src = F_DIR ∧ children D src = children D₁ src :=
  ⟨(F.kept.kindAt (live_of_dir hsrc) hne).trans hsrc, F.kept.children (live_of_dir hsrc) hne⟩

/-- An inode that was in use when the loop began is in use. -/
theorem Filled.free (F : Filled D₁ src new seen D) {y : ℕ} (h : kindAt D y = F_FREE) :
    kindAt D₁ y = F_FREE := by
  by_contra hne
  by_cases hy : y = new
  · rw [hy, F.dir] at h
    exact absurd h (by decide)
  · rw [F.kept.kindAt (live_iff_kindAt.mpr hne) hy] at h
    exact hne h

/-- What hangs below an earlier child is left alone by a change of the new directory only. -/
theorem Filled.agrees (F : Filled D₁ src new seen D) (hdir : kindAt D₁ new = F_DIR)
    (K : Kept D D' (· = new)) {q : ℕ × ℕ} {j : ℕ} {name : String}
    (he : (view D).entry new q = some (j, name)) (y : ℕ) (hy : Below (view D).Link j y) :
    (view D).Agrees (view D') y := by
  obtain ⟨hfree, hlive⟩ := F.fresh q j name he y hy
  refine K.agrees F.inv.acc (live_iff_kindAt.mpr hlive) ?_
  rintro rfl
  rw [hdir] at hfree
  exact absurd hfree (by decide)

/-- **One more child.** -/
theorem Filled.child (F : Filled D₁ src new seen D) (I1 : Inv D₁) (hsrc : Live (inodeAt D₁) src)
    (hdir : kindAt D₁ new = F_DIR) {c : UInt32} {n : String} {j : ℕ}
    (hfirst : firstNamed (children D₁ src) n = some c)
    (C : CopyDone D new n c.toNat j D') (hn : n ∉ seen) : Filled D₁ src new (n :: seen) D' := by
  obtain ⟨q, hempty, hentry⟩ := C.entry
  have hold : ∀ {t i name}, (view D').entry new t = some (i, name) → t ≠ q →
      (view D).entry new t = some (i, name) := by
    intro t i name ht htq
    rwa [hentry, if_neg htq] at ht
  have hnew : ∀ {i name}, (view D').entry new q = some (i, name) → i = j ∧ name = n := by
    intro i name ht
    rw [hentry, if_pos rfl, Option.some.injEq, Prod.mk.injEq] at ht
    exact ⟨ht.1.symm, ht.2.symm⟩
  have hnamed : ∀ t i, (view D).entry new t ≠ some (i, n) :=
    fun t i ht => hn ((F.names n).mp ⟨t, i, ht⟩)
  have hback : ∀ {t i name}, (view D).entry new t = some (i, name) → ∀ y,
      Below (view D').Link i y → Below (view D).Link i y :=
    fun ht y hy => below_of_agrees (F.agrees hdir C.kept ht) hy
  -- place `q` holds the new child; every other place is as before the call
  refine ⟨C.inv, F.kept.trans C.kept, ?_, ?_, ?_, ?_, ?_, ?_⟩
  · exact (view_entry_some.mp (show (view D').entry new q
      = some (j, n) by rw [hentry, if_pos rfl])).1
  · -- the names
    intro name
    rw [List.mem_cons]
    constructor
    · rintro ⟨t, i, ht⟩
      by_cases htq : t = q
      · rw [htq] at ht
        exact .inl (hnew ht).2
      · exact .inr ((F.names name).mp ⟨t, i, hold ht htq⟩)
    · rintro (rfl | hseen)
      · exact ⟨q, j, by rw [hentry, if_pos rfl]⟩
      · obtain ⟨t, i, ht⟩ := (F.names name).mpr hseen
        refine ⟨t, i, ?_⟩
        rw [hentry, if_neg (fun h => by rw [h, hempty] at ht; exact absurd ht (by simp))]
        exact ht
  · -- no name twice: `n` was not among the names so far
    intro t t' i i' name ht ht'
    by_cases htq : t = q
    · by_cases htq' : t' = q
      · rw [htq, htq']
      · rw [htq] at ht
        rw [(hnew ht).2] at ht'
        exact absurd (hold ht' htq') (hnamed t' i')
    · by_cases htq' : t' = q
      · rw [htq'] at ht'
        rw [(hnew ht').2] at ht
        exact absurd (hold ht htq) (hnamed t i)
      · exact F.unique t t' i i' name (hold ht htq) (hold ht' htq')
  · -- what hangs below a copy was free when the loop began
    intro t i name ht y hy
    by_cases htq : t = q
    · rw [htq] at ht
      rw [(hnew ht).1] at hy
      obtain ⟨hfree, hlive⟩ := C.fresh y hy
      exact ⟨F.free hfree, hlive⟩
    · have hy' := hback (hold ht htq) y hy
      have hagree := F.agrees hdir C.kept (hold ht htq) y hy'
      obtain ⟨hfree, hlive⟩ := F.fresh t i name (hold ht htq) y hy'
      exact ⟨hfree, by rw [← view_flags, hagree.flags]; exact hlive⟩
  · intro t i name ht y hy
    by_cases htq : t = q
    · rw [htq] at ht
      rw [(hnew ht).1] at hy
      exact C.unique y hy
    · have hy' := hback (hold ht htq) y hy
      have hagree := F.agrees hdir C.kept (hold ht htq) y hy'
      intro p p' k k' nm
      rw [hagree.entry]
      exact F.below t i name (hold ht htq) y hy' p p' k k' nm
  · intro hu t i name ht c' hc'
    by_cases htq : t = q
    · -- the new child: its source has not changed since the loop began
      rw [htq] at ht
      obtain ⟨rfl, rfl⟩ := hnew ht
      obtain rfl : c' = c := Option.some.inj (hc'.symm.trans hfirst)
      have hbelow : ∀ a, Below (view D₁).Link c'.toNat a → Below (view D₁).Link src a := by
        intro a ha
        obtain ⟨p, hp⟩ := mem_children.mp (firstNamed_mem hc')
        exact ha.head ⟨p, link_of_entry hp⟩
      have hagree : ∀ a, Below (view D₁).Link c'.toNat a → (view D₁).Agrees (view D) a :=
        fun a ha => F.kept.agrees I1.acc (below_live I1 hsrc (hbelow a ha)) (hu a (hbelow a ha)).2
      have hsame : ∀ a, Below (view D).Link c'.toNat a → Below (view D₁).Link c'.toNat a :=
        fun a ha => below_of_agrees hagree ha
      refine sameTree_congr (C.tree ?_) (fun a ha => (hagree a (hsame a ha)).symm)
        (fun b _ => ⟨rfl, rfl, rfl⟩)
      intro a ha p p' k k' nm
      rw [(hagree a (hsame a ha)).entry]
      exact (hu a (hbelow a (hsame a ha))).1 p p' k k' nm
    · exact sameTree_congr (F.tree hu t i name (hold ht htq) c' hc') (fun a _ => ⟨rfl, rfl, rfl⟩)
        (F.agrees hdir C.kept (hold ht htq))

end

end HepOS.HepFS
