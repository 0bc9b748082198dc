/-
The directory entries as a tree.

`View.Linked` says that every inode in use but the root has exactly one entry. That alone
does not make the entries a tree: a directory moved below itself keeps its one entry, and
the directories on the cycle are cut off from the root. `move_entry` does not check for it.
It compares the two parents with each other only, and two Files windows can show a
directory and one of its descendants, so a drag from one to the other makes the call.

What is proved is that this is the one way to lose the tree: along every run in which no
entry is moved below itself, every inode in use is at the end of exactly one chain of
entries from the root.
-/
import HepOS.HepFS.Reach
import HepOS.Lib.Tree

set_option autoImplicit false

namespace HepOS.HepFS

open Bytes Hoare Ledger Trace Chains

/-! ## Entries as links -/

/-- The directory `d` has an entry for `i` at its place `q`. An entry for inode 0 is an
unused one. -/
def View.Link (v : View) (d : ℕ) (q : ℕ × ℕ) (i : ℕ) : Prop :=
  v.flags d = F_DIR ∧ i ≠ 0 ∧ ∃ name, v.entry d q = some (i, name)

/-- Every inode in use is reached from the root. -/
def View.Rooted (v : View) : Prop := ∀ i, v.flags i ≠ F_FREE → ∃ l, Chain v.Link 0 l i

/-- The inode is at the end of exactly one chain of entries. -/
def View.OneChain (v : View) (i : ℕ) : Prop := ∃! l, Chain v.Link 0 l i

section

variable {v w : View} {d d' i x : ℕ} {q q' : ℕ × ℕ}

theorem View.Linked.link_inj (h : v.Linked) (hlink : v.Link d q i) (hlink' : v.Link d' q' i) :
    d = d' ∧ q = q' := by
  obtain ⟨hd, hi0, name, hentry⟩ := hlink
  obtain ⟨hd', -, name', hentry'⟩ := hlink'
  have hheld := View.held_of_entry hentry
  have hheld' := View.held_of_entry hentry'
  apply h.ledger.inj d d' hd hd' q q'
  · rw [hheld]
    exact hi0
  · rw [hheld, hheld']

/-- Linked once and rooted is a tree. -/
theorem View.Rooted.oneChain (h : v.Rooted) (hl : v.Linked) (hi : v.flags i ≠ F_FREE) :
    v.OneChain i := by
  obtain ⟨l, hchain⟩ := h i hi
  refine ⟨l, hchain, ?_⟩
  intro l' hchain'
  have hroot : ∀ d q, ¬ v.Link d q 0 := fun _ _ h0 => h0.2.1 rfl
  exact hchain.unique (fun _ _ _ _ _ h1 h2 => hl.link_inj h1 h2) hroot hchain'

/-- A link stays when the directory stays one and its place is not written. -/
theorem View.Link.keep (h : v.Link d q i) (hd : w.flags d = v.flags d)
    (hentry : w.entry d q = v.entry d q) : w.Link d q i := by
  obtain ⟨hdir, hi0, name, hname⟩ := h
  exact ⟨hd.trans hdir, hi0, name, hentry.trans hname⟩

end

/-! ## One act -/

/-- The condition on a move: the place it goes to does not lie below what is moved. -/
def Act.Outside (v : View) : Act → Prop
  | .move i _ _ d' _ _ => ¬ Below v.Link i d'
  | _ => True

variable {kind : UInt32} {v : View} {q : ℕ × ℕ} {name : String}

section

variable {v : View} {i d : ℕ} {q : ℕ × ℕ} {name : String}

theorem View.Rooted.create (h : v.Rooted) (hfree : v.flags i = F_FREE)
    (hl : v.Linked) (hd : v.flags d = F_DIR) (hempty : v.entry d q = none) :
    (v.create i kind d q name).Rooted := by
  have hi0 : i ≠ 0 := by
    rintro rfl
    rw [hl.root] at hfree
    exact absurd hfree (by decide)
  have hne : ∀ j, v.flags j = F_DIR → j ≠ i := by
    rintro j hj rfl
    rw [hfree] at hj
    exact absurd hj (by decide)
  have hkeep : ∀ a s y, v.Link a s y → (v.create i kind d q name).Link a s y := by
    intro a s y hlink
    apply hlink.keep
    · rw [View.flags_create, if_neg (hne a hlink.1)]
    · refine View.entry_setEntry_ne _ _ ?_
      rintro ⟨rfl, rfl⟩
      obtain ⟨-, -, n, hn⟩ := hlink
      rw [hempty] at hn
      simp at hn
  intro j hj
  rw [View.flags_create] at hj
  by_cases hji : j = i
  · -- the new inode hangs below its directory
    obtain ⟨l, hchain⟩ := h d (by rw [hd]; decide)
    refine ⟨(d, q) :: l, .link (hchain.mono hkeep) ⟨?_, ?_, name, ?_⟩⟩
    · rw [View.flags_create, if_neg (hne d hd)]
      exact hd
    · rw [hji]
      exact hi0
    · rw [View.create, View.entry_setEntry_same, hji]
  · rw [if_neg hji] at hj
    obtain ⟨l, hchain⟩ := h j hj
    exact ⟨l, hchain.mono hkeep⟩

theorem View.Rooted.remove (h : v.Rooted) (hentry : v.entry d q = some (i, name))
    (hleaf : v.flags i = F_DIR → ∀ t, v.entry i t = none) : (v.remove i d q).Rooted := by
  have hnolink : ∀ s y, ¬ v.Link i s y := by
    rintro s y ⟨hdir, -, n, hn⟩
    rw [hleaf hdir s] at hn
    simp at hn
  intro j hj
  rw [View.flags_remove] at hj
  by_cases hji : j = i
  · rw [if_pos hji] at hj
    exact absurd rfl hj
  rw [if_neg hji] at hj
  obtain ⟨l, hchain⟩ := h j hj
  refine ⟨l, hchain.avoids (fun hb => hji (hb.eq_of_leaf hnolink)) ?_⟩
  intro a s y hlink hy
  apply hlink.keep
  · have hai : a ≠ i := by
      rintro rfl
      exact hnolink s y hlink
    rw [View.flags_remove, if_neg hai]
  · rw [View.remove, View.entry_setEntry_ne]
    · rfl
    · rintro ⟨rfl, rfl⟩
      obtain ⟨-, -, n, hn⟩ := hlink
      rw [hentry, Option.some.injEq, Prod.mk.injEq] at hn
      exact hy hn.1.symm

theorem View.Rooted.rename (h : v.Rooted) {new_name : String}
    (hentry : v.entry d q = some (i, name)) : (v.setEntry d q (some (i, new_name))).Rooted := by
  intro j hj
  obtain ⟨l, hchain⟩ := h j hj
  refine ⟨l, hchain.mono ?_⟩
  rintro a s y ⟨hdir, hy0, n, hn⟩
  refine ⟨hdir, hy0, ?_⟩
  by_cases hc : a = d ∧ s = q
  · obtain ⟨rfl, rfl⟩ := hc
    rw [hentry, Option.some.injEq, Prod.mk.injEq] at hn
    exact ⟨new_name, by rw [View.entry_setEntry_same, hn.1]⟩
  · exact ⟨n, by rw [View.entry_setEntry_ne _ _ hc]; exact hn⟩

theorem View.Rooted.move (h : v.Rooted) {d' : ℕ} {q' : ℕ × ℕ} (hi0 : i ≠ 0)
    (hentry : v.entry d q = some (i, name)) (hd' : v.flags d' = F_DIR)
    (hempty : v.entry d' q' = none) (hout : ¬ Below v.Link i d') :
    (v.move i d q d' q' name).Rooted := by
  have hkeep : ∀ a s y, v.Link a s y → y ≠ i → (v.move i d q d' q' name).Link a s y := by
    intro a s y hlink hy
    apply hlink.keep
    · rfl
    · obtain ⟨-, -, n, hn⟩ := hlink
      rw [View.move, View.entry_setEntry_ne, View.entry_setEntry_ne]
      · rintro ⟨rfl, rfl⟩
        rw [hentry, Option.some.injEq, Prod.mk.injEq] at hn
        exact hy hn.1.symm
      · rintro ⟨rfl, rfl⟩
        rw [hempty] at hn
        simp at hn
  -- the chain of the new directory does not go through what is moved
  have hnew : ∃ l, Chain (v.move i d q d' q' name).Link 0 l i := by
    obtain ⟨l, hchain⟩ := h d' (by rw [hd']; decide)
    exact ⟨(d', q') :: l, .link (hchain.avoids hout hkeep)
      ⟨hd', hi0, name, View.entry_setEntry_same _ _ _ _⟩⟩
  intro j hj
  obtain ⟨l, hchain⟩ := h j hj
  exact hchain.relink hnew hkeep

end

/-- **Every act but a move below itself keeps the tree.** -/
theorem View.Step.rooted {w : View} {a : Act} (h : v.Step a w) (hl : v.Linked) (hv : v.Rooted)
    (hout : a.Outside v) : w.Rooted := by
  obtain ⟨hallows, rfl⟩ := h
  cases a with
  | create i kind d q name =>
    obtain ⟨-, hfree, hd, hempty, -⟩ := hallows
    exact hv.create hfree hl hd hempty
  | write i data => exact hv
  | remove i d q =>
    obtain ⟨-, -, ⟨name, hentry⟩, hleaf⟩ := hallows
    exact hv.remove hentry hleaf
  | rename i d q name =>
    obtain ⟨-, -, ⟨old, hentry⟩, -⟩ := hallows
    exact hv.rename hentry
  | move i d q d' q' name =>
    obtain ⟨hi0, -, hentry, hd', -, hempty, -⟩ := hallows
    exact hv.move hi0 hentry hd' hempty hout

/-! ## Whole runs -/

/-- The condition on a call: `move_entry` is not asked to move a directory into itself or
below itself. -/
def Op.MovesOutside (v : View) : Op → Prop
  | .move_entry from_parent to_parent name =>
    ∀ q i, v.entry from_parent.toNat q = some (i, name) → ¬ Below v.Link i to_parent.toNat
  | _ => True

theorem Op.Effect.rooted {op : Op} {w : View} (h : op.Effect v w) (hl : v.Linked)
    (hv : v.Rooted) (hout : op.MovesOutside v) : w.Rooted := by
  refine (h.keeps (P := fun u => u.Linked ∧ u.Rooted) ⟨hl, hv⟩ ?_).2
  rintro u a x ⟨hlu, hu⟩ hstep hdoes
  refine ⟨hstep.linked hlu, hstep.rooted hlu hu ?_⟩
  cases a with
  | create | write | remove | rename => exact trivial
  | move i d q d' q' name =>
    cases op with
    | move_entry from_parent to_parent nm =>
      obtain ⟨rfl, i0, q0, q1, hact⟩ := hdoes
      obtain ⟨rfl, rfl, rfl, rfl, rfl, rfl⟩ := Act.move.inj hact
      obtain ⟨-, -, hentry, -⟩ := hstep.1
      exact hout _ _ hentry
    | create_file | create_dir =>
      obtain ⟨-, _, _, hact⟩ := hdoes
      simp at hact
    | write_file => exact absurd hdoes.2 (by simp)
    | remove | rename =>
      obtain ⟨-, _, _, -, hact⟩ := hdoes
      simp at hact
    | copy_entry => exact absurd hdoes id

theorem View.rooted_root : View.root.Rooted := by
  intro i hi
  rw [View.flags_root] at hi
  by_cases hi0 : i = 0
  · rw [hi0]
    exact ⟨[], .root⟩
  · rw [if_neg hi0] at hi
    exact absurd rfl hi

/-- **The entries form a tree.** In every state that a run from a formatted disk reaches
without moving an entry below itself, every inode in use is at the end of exactly one chain
of directory entries; the root's is empty. -/
theorem one_chain_of_moves_outside {s₀ s₁ s : Fs} {ops : List Op} (hc : s₀.geom.covers)
    (hformat : format s₀ = .ok () s₁)
    (hrun : Steps (fun t op t' => Calls t op t' ∧ op.MovesOutside (view t.blk)) s₁ ops s)
    {i : ℕ} (hi : Live (inodeAt s.blk) i) : (view s.blk).OneChain i := by
  obtain ⟨s', hrun', hgeom, I, hview, -⟩ := format_spec s₀ hc
  obtain ⟨-, rfl⟩ := EStateM.Result.ok.inj (hformat.symm.trans hrun')
  have hend := hrun.keeps (P := fun t => (t.geom.covers ∧ Inv t.blk) ∧ (view t.blk).Rooted)
    ⟨⟨by rw [hgeom]; exact hc, I⟩, by rw [hview]; exact View.rooted_root⟩ (by
      rintro t op t' ⟨⟨hct, It⟩, hroot⟩ ⟨hcall, hout⟩
      have heff := hcall.effect hct It
      exact ⟨⟨hct.of_eq heff.geom, heff.inv⟩,
        heff.effect.rooted It.linked hroot hout⟩)
  exact hend.2.oneChain hend.1.2.linked (live_iff_kindAt.mp hi)

/-! ## A run that keeps the tree and one that loses it -/

/-- A move that finds its entry and has room for it. -/
theorem Reachable.move_entry {s : Fs} (h : Reachable s) (from_parent to_parent : UInt32)
    (name : String) (hd : kindAt s.blk from_parent.toNat = F_DIR)
    (hd' : kindAt s.blk to_parent.toNat = F_DIR) (hne : from_parent.toNat ≠ to_parent.toNat)
    (hnew : (view s.blk).Unnamed to_parent.toNat name)
    (hold : ¬ (view s.blk).Unnamed from_parent.toNat name) (hroom : 1 ≤ freeCount s.blk) :
    ∃ s' q i q', HepFS.move_entry from_parent to_parent name s = .ok true s'
      ∧ Calls s (.move_entry from_parent to_parent name) s'
      ∧ (view s.blk).entry from_parent.toNat q = some (i, name)
      ∧ (view s.blk).entry to_parent.toNat q' = none
      ∧ view s'.blk = (view s.blk).move i from_parent.toNat q to_parent.toNat q' name := by
  obtain ⟨hc, I⟩ := h.inv
  obtain ⟨r, s', hrun, -, hres⟩ :=
    (move_entry_spec s hc I from_parent to_parent name hd hd').exists_ok
    (by
      rintro e s' ⟨-, h0⟩
      omega)
  cases r with
  | false =>
    rcases hres.2 with heq | ⟨q, i, htaken⟩ | hmissing
    · exact absurd heq hne
    · exact absurd htaken (hnew q i)
    · exact absurd hmissing hold
  | true =>
    obtain ⟨-, q, i, q', hentry, -, -, hempty, -, hview⟩ := hres
    exact ⟨s', q, i, q', hrun, ⟨⟨hd, hd'⟩, true, hrun⟩, hentry, hempty, hview⟩

theorem View.flags_root_create (kind : UInt32) (q : ℕ × ℕ) (name : String) (i : ℕ) :
    (View.root.create 1 kind 0 q name).flags i = if i = 1 then kind else if i = 0 then F_DIR
      else F_FREE := by
  rw [View.flags_create, View.flags_root]

theorem kindAt_of_root_create {D : Disk}
    (h : view D = View.root.create 1 kind 0 q name) (i : ℕ) :
    kindAt D i = if i = 1 then kind else if i = 0 then F_DIR else F_FREE := by
  rw [← view_flags, h, View.flags_root_create]

/-- So inode 2 is the least free one. -/
theorem used_of_root_create {D : Disk}
    (h : view D = View.root.create 1 kind 0 q name) (hkind : kind ≠ F_FREE) :
    ∀ j < (2 : UInt32).toNat, kindAt D j ≠ F_FREE := by
  intro j hj
  have hlt : j < 2 := hj
  rw [kindAt_of_root_create h]
  split_ifs with h1 h0
  · exact hkind
  · decide
  · omega

theorem View.entry_root_create {t : ℕ × ℕ} {n : String} {d i : ℕ} :
    (View.root.create 1 kind 0 q name).entry d t = some (i, n) ↔ d = 0 ∧ t = q ∧ i = 1
      ∧ n = name := by
  rw [View.entry_create_iff]
  split_ifs with hc
  · exact ⟨fun h => ⟨hc.1, hc.2, h⟩, fun h => h.2.2⟩
  · exact ⟨fun h => absurd h (by simp [View.root]), fun h => absurd ⟨h.1, h.2.1⟩ hc⟩

/-- A file moved from the root directory into a directory next to it. -/
theorem one_chain_of_moves_outside_file : ∃ s₁ s₂ s₃ s₄,
    format unformatted = .ok () s₁ ∧ create_dir 0 "a" s₁ = .ok 1 s₂
      ∧ create_file 0 "f" s₂ = .ok 2 s₃ ∧ move_entry 0 1 "f" s₃ = .ok true s₄
      ∧ (view s₄.blk).OneChain 2 := by
  obtain ⟨s₁, s₂, q1, hformat, hrun2, hdir, hreach2, hview2, hcount2⟩ :=
    exists_created .dir "a" (by decide)
  have hcall2 : Calls s₁ (.create_dir 0 "a") s₂ := ⟨hdir, 1, hrun2⟩
  have hkind2 := kindAt_of_root_create hview2
  obtain ⟨s₃, q2, hrun3, hreach3, -, hview3, hcount3⟩ :=
    hreach2.create .file 0 "f" 2 (hkind2 0) (by decide) (by decide)
      (used_of_root_create hview2 (by decide))
      (hkind2 2) (by omega)
  have hcall3 : Calls s₂ (.create_file 0 "f") s₃ := ⟨hkind2 0, 2, hrun3⟩
  replace hview3 : view s₃.blk = (View.root.create 1 F_DIR 0 q1 "a").create 2 F_FILE 0 q2 "f" := by
    rw [hview3, hview2]
    rfl
  have hkind3 : ∀ i, kindAt s₃.blk i = if i = 2 then F_FILE else
      if i = 1 then F_DIR else if i = 0 then F_DIR else F_FREE := by
    intro i
    rw [← view_flags, hview3, View.flags_create, View.flags_root_create]
  -- the entries: what was there, and the file
  have hentry3 : ∀ d t i n, (view s₃.blk).entry d t = some (i, n) →
      d = 0 ∧ (i = 2 ∧ n = "f" ∨ i = 1 ∧ n = "a") := by
    intro d t i n h
    rw [hview3, View.entry_create_iff, View.entry_root_create] at h
    split_ifs at h with hc
    · exact ⟨hc.1, .inl h⟩
    · exact ⟨h.1, .inr h.2.2⟩
  have hfound : (view s₃.blk).entry 0 q2 = some (2, "f") := by
    rw [hview3, View.entry_create]
    exact if_pos ⟨rfl, rfl⟩
  obtain ⟨s₄, q3, i, q', hrun4, hcall4, -, -, hview4⟩ :=
    hreach3.move_entry 0 1 "f" (hkind3 0) (hkind3 1) (by decide)
      (fun t j h => absurd (hentry3 _ _ _ _ h).1 (by decide)) (fun h => h q2 2 hfound) (by omega)
  -- the file has nothing below it
  have hout : Op.MovesOutside (view s₃.blk) (.move_entry 0 1 "f") := by
    intro t j hj hbelow
    obtain ⟨-, ⟨rfl, -⟩ | ⟨-, hn⟩⟩ := hentry3 _ _ _ _ hj
    · have hleaf : ∀ s y, ¬ (view s₃.blk).Link 2 s y := by
        rintro s y ⟨hdir, -⟩
        rw [view_flags, hkind3 2] at hdir
        exact absurd hdir (by decide)
      exact absurd (hbelow.eq_of_leaf hleaf) (by decide)
    · exact absurd hn (by decide)
  have hlive : Live (inodeAt s₄.blk) 2 := by
    rw [live_iff_kindAt, ← view_flags, hview4]
    show kindAt s₃.blk 2 ≠ F_FREE
    rw [hkind3 2]
    decide
  exact ⟨s₁, s₂, s₃, s₄, hformat, hrun2, hrun3, hrun4,
    one_chain_of_moves_outside unformatted_covers hformat
      (.next ⟨hcall2, trivial⟩ (.next ⟨hcall3, trivial⟩ (.one ⟨hcall4, hout⟩))) hlive⟩

/-- With an empty root directory nothing but the root is reached. -/
theorem View.eq_zero_of_chain (hroot : ∀ q, v.entry 0 q = none) {l : List (ℕ × ℕ × ℕ)}
    {i : ℕ} (h : Chain v.Link 0 l i) : i = 0 := by
  induction h with
  | root => rfl
  | link _ hlink ih =>
    obtain ⟨-, -, name, hentry⟩ := hlink
    rw [ih, hroot] at hentry
    simp at hentry

/-- The directory `/a/b` on a formatted disk. -/
theorem exists_nested_dirs : ∃ s1 s2 s3 q1 q2, format unformatted = .ok () s1
    ∧ create_dir 0 "a" s1 = .ok 1 s2 ∧ create_dir 1 "b" s2 = .ok 2 s3
    ∧ Steps Calls s1 [.create_dir 0 "a", .create_dir 1 "b"] s3 ∧ Reachable s3
    ∧ view s3.blk = (View.root.create 1 F_DIR 0 q1 "a").create 2 F_DIR 1 q2 "b"
    ∧ (view s3.blk).Rooted ∧ 130000 ≤ freeCount s3.blk := by
  obtain ⟨s1, s2, q1, hformat, hrun2, hdir, hreach2, hview2, hcount2⟩ :=
    exists_created .dir "a" (by decide)
  have hkind2 := kindAt_of_root_create hview2
  obtain ⟨s3, q2, hrun3, hreach3, hempty, hview3, hcount3⟩ :=
    hreach2.create .dir 1 "b" 2 (hkind2 1) (by decide) (by decide)
      (used_of_root_create hview2 (by decide))
      (hkind2 2) (by omega)
  have hrooted : (view s2.blk).Rooted := by
    rw [hview2]
    exact View.rooted_root.create rfl View.linked_root rfl rfl
  refine ⟨s1, s2, s3, q1, q2, hformat, hrun2, hrun3,
    .next ⟨hdir, 1, hrun2⟩ (.one ⟨hkind2 1, 2, hrun3⟩), hreach3, ?_, ?_, by omega⟩
  · rw [hview3, hview2]
    rfl
  · rw [hview3]
    exact hrooted.create (hkind2 2) hreach2.inv.2.linked (hkind2 1) hempty

/-- **A directory moved below itself is lost.** `/a` with the subdirectory `/a/b`, and then
`a` moved into `b`: all three calls are proper and return, and both directories are in use,
but no chain of entries from the root leads to them. -/
theorem move_entry_makes_cycle : ∃ s₁ s₂ s₃ s₄, format unformatted = .ok () s₁
    ∧ create_dir 0 "a" s₁ = .ok 1 s₂
      ∧ create_dir 1 "b" s₂ = .ok 2 s₃ ∧ move_entry 0 2 "a" s₃ = .ok true s₄
      ∧ Steps Calls s₁ [.create_dir 0 "a", .create_dir 1 "b", .move_entry 0 2 "a"] s₄
      ∧ Live (inodeAt s₄.blk) 1 ∧ ¬ (view s₄.blk).OneChain 1 := by
  obtain ⟨s₁, s₂, s₃, q1, q2, hformat, hrun2, hrun3, hcalls, hreach3, hview3, -, hcount3⟩ :=
    exists_nested_dirs
  have hkind3 : ∀ i, kindAt s₃.blk i = if i = 2 then F_DIR else
      if i = 1 then F_DIR else if i = 0 then F_DIR else F_FREE := by
    intro i
    rw [← view_flags, hview3, View.flags_create, View.flags_root_create]
  -- the root directory has the entry for `a` only
  have hroot3 : ∀ t, (view s₃.blk).entry 0 t = if t = q1 then some (1, "a") else none := by
    intro t
    rw [hview3, View.entry_create, if_neg (by simp), View.entry_create]
    simp [View.root]
  have hnone3 : ∀ t, (view s₃.blk).entry 2 t = none := by
    intro t
    rw [hview3, View.entry_create, if_neg (by simp), View.entry_create, if_neg (by simp)]
    rfl
  obtain ⟨s₄, q, i, q', hrun4, hcall4, hentry4, -, hview4⟩ :=
    hreach3.move_entry 0 2 "a" (hkind3 0) (hkind3 2) (by decide)
      (fun t j h => absurd ((hnone3 t).symm.trans h) (by simp))
      (fun h => h q1 1 ((hroot3 q1).trans (if_pos rfl))) (by omega)
  obtain rfl : q = q1 := by
    by_contra hne
    have hfound := (hroot3 q).symm.trans hentry4
    rw [if_neg hne] at hfound
    simp at hfound
  have hempty : ∀ t, (view s₄.blk).entry 0 t = none := by
    intro t
    rw [hview4, View.move, View.entry_setEntry, if_neg (by simp), View.entry_setEntry]
    by_cases ht : t = q
    · rw [if_pos ⟨rfl, ht⟩]
    · rw [if_neg (fun hc => ht hc.2), hroot3 t, if_neg ht]
  refine ⟨s₁, s₂, s₃, s₄, hformat, hrun2, hrun3, hrun4,
    hcalls.snoc hcall4, ?_, ?_⟩
  · rw [live_iff_kindAt, ← view_flags, hview4]
    show kindAt s₃.blk 1 ≠ F_FREE
    rw [hkind3 1]
    decide
  · rintro ⟨l, hchain, -⟩
    exact absurd (View.eq_zero_of_chain hempty hchain) (by decide)

end HepOS.HepFS
