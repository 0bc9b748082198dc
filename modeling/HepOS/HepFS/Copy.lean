/-
`copy_entry`: a run of creations and writes.

A copy only adds: every inode that was in use keeps its use and its content, and every
entry stays where it is. That holds for the recursion as it is written, whatever the
relation between the source and the destination, and it is what the recursion itself rests
on: the directory that is read and the directory that is filled are still directories when
the next child is copied.
-/
import HepOS.HepFS.Move
import HepOS.HepFS.Acts

set_option autoImplicit false

namespace HepOS.HepFS

open Bytes Hoare Ledger Trace

variable {dest_name name : String} {v : View} {s : Fs}

/-! ## Looking for a name -/

/-- What looking for `name` in the directory `d` gives. -/
def View.Finds (v : View) (d : ℕ) (name : String) : Option UInt32 → Prop
  | none => v.Unnamed d name
  | some ino => ino ≠ 0 ∧ ∃ q, v.entry d q = some (ino.toNat, name)

/-- **`find_in_dir` in a directory.** -/
theorem find_entry_spec (s : Fs) (hc : s.geom.covers) (I : Inv s.blk) (dir_ino : UInt32)
    (name : String) (hd : kindAt s.blk dir_ino.toNat = F_DIR) :
    ∃ r s', find_in_dir dir_ino name s = .ok r s' ∧ s.To s' s.blk
      ∧ (view s.blk).Finds dir_ino.toNat name r := by
  obtain ⟨r, s', hrun, ht, hres⟩ := find_in_dir_spec s hc I.acc dir_ino (live_of_dir hd) name
  refine ⟨r, s', hrun, ht, ?_⟩
  cases r with
  | none => exact no_entry_of_named hres
  | some ino =>
    obtain ⟨q, hq, hnamed, rfl⟩ := hres
    obtain ⟨hne, hentry⟩ := entry_of_named hd hq hnamed
    exact ⟨hne, q, hentry⟩

/-! ## The acts of a copy -/

theorem Created.step {D0 D : Disk} {i d : ℕ} {kind : UInt32} {q : ℕ × ℕ}
    (h : Created D0 i kind d name q D) (hkind : kind = F_FILE ∨ kind = F_DIR)
    (hd : kindAt D0 d = F_DIR) (hlen : (nameBytes name).length ≤ 27) :
    (view D0).Step (.create i kind d q name) (view D) := by
  have hfree := h.was_free
  refine ⟨⟨hkind, hfree, hd, h.empty, ?_, ?_, hlen⟩, h.view_eq⟩
  · intro t
    exact view_entry_of_not_dir (by rw [hfree]; decide) t
  · exact view_bytes_of_not_file (by rw [hfree]; decide)

/-- The acts of a copy that started at `v`: an inode is created under a name its directory
does not have, which is the name of some entry or, for the entry `name`, `dest_name`; and
only files that did not exist at the start are written. -/
def CopyAct (v : View) (name dest_name : String) (u : View) : Act → Prop
  | .create _ _ d _ new_name => u.Unnamed d new_name ∧ ∃ d' q i src, u.entry d' q = some (i, src)
      ∧ (new_name = src ∨ (src = name ∧ new_name = dest_name))
  | .write i _ => v.flags i = F_FREE
  | _ => False

/-- A step of a copy. -/
def CopyStep (v : View) (name dest_name : String) (u : View) (a : Act) (w : View) : Prop :=
  u.Step a w ∧ CopyAct v name dest_name u a

theorem CopyStep.extends {u w : View} {a : Act}
    (h : CopyStep v name dest_name u a w) (hu : u.Extends v) : w.Extends v := by
  obtain ⟨⟨hallows, rfl⟩, hact⟩ := h
  cases a with
  | create i kind d q new_name =>
    obtain ⟨-, hfree, -, hempty, -⟩ := hallows
    exact hu.create hfree hempty
  | write i data => exact hu.write hact data
  | remove i d q | rename i d q new_name | move i d q d' q' new_name => exact absurd hact id

/-- A step of the copy of a child is a step of the copy of its parent. -/
theorem CopyStep.of_child {v' u w : View} {child : String} {a : Act}
    (hv : v'.Extends v) (h : CopyStep v' child child u a w) : CopyStep v name dest_name u a w := by
  refine ⟨h.1, ?_⟩
  have hact := h.2
  cases a with
  | create i kind d q new_name =>
    obtain ⟨hnew, d', q', j, src, hsrc, hname⟩ := hact
    refine ⟨hnew, d', q', j, src, hsrc, .inl ?_⟩
    rcases hname with rfl | ⟨rfl, rfl⟩
    · rfl
    · rfl
  | write i data => exact hv.free hact
  | remove i d q => exact hact
  | rename i d q new_name => exact hact
  | move i d q d' q' new_name => exact hact

/-- What holds of the state after a copy, or after a part of it. -/
structure Copied (v : View) (name dest_name : String) (s s' : Fs) : Prop where
  geom : s'.geom = s.geom
  inv : Inv s'.blk
  run : ∃ acts, Steps (CopyStep v name dest_name) (view s.blk) acts (view s'.blk)

section

variable {v : View} {name dest_name : String} {s s' s'' : Fs}

theorem Copied.of_to (I : Inv s.blk) (ht : s.To s' s.blk) : Copied v name dest_name s s' := by
  refine ⟨ht.geom, by rw [ht.blk]; exact I, [], ?_⟩
  rw [ht.blk]
  exact .done _

theorem Copied.trans (h : Copied v name dest_name s s') (h' : Copied v name dest_name s' s'') :
    Copied v name dest_name s s'' := by
  obtain ⟨acts, hrun⟩ := h.run
  obtain ⟨acts', hrun'⟩ := h'.run
  exact ⟨h'.geom.trans h.geom, h'.inv, acts ++ acts', hrun.append hrun'⟩

theorem Copied.extends (h : Copied v name dest_name s s') (hv : (view s.blk).Extends v) :
    (view s'.blk).Extends v := by
  obtain ⟨acts, hrun⟩ := h.run
  exact hrun.keeps hv (fun _ _ _ hu hstep => hstep.extends hu)

end

/-! ## The recursion -/

/-- What is to be shown of a copy. -/
def CopySpec (copy : FsM (Option UInt32)) (s : Fs) (name dest_name : String) : Prop :=
  Post copy s
    (fun r s' => Copied (view s.blk) name dest_name s s' ∧ (r = none → s'.blk = s.blk))
    (fun e _ => e.off_device = false)

/-- The loop over the children, given the specification of one copy. -/
theorem copy_children_spec (copy : String → FsM (Option UInt32)) (src new : ℕ) (v : View)
    (name dest_name : String) (hcopy : ∀ (s : Fs) (child : String), s.geom.covers → Inv s.blk →
      kindAt s.blk src = F_DIR → kindAt s.blk new = F_DIR → CopySpec (copy child) s child child)
    (children : List (UInt32 × String)) :
    ∀ s : Fs, s.geom.covers → Inv s.blk → kindAt s.blk src = F_DIR → kindAt s.blk new = F_DIR →
      (view s.blk).Extends v → Post (copy_children copy children) s
        (fun _ s' => Copied v name dest_name s s')
        (fun e _ => e.off_device = false) := by
  induction children with
  | nil =>
    intro s _ I _ _ _
    exact Post.pure (Copied.of_to I (Fs.To.rfl s))
  | cons child rest ih =>
    intro s hc I hsrc hnew hv
    refine Post.seq (hcopy s child.2 hc I hsrc hnew) ?_
    rintro _ s1 ⟨h1, -⟩
    -- the child's copy counts from its own start; here it counts from `v`
    have h1' : Copied v name dest_name s s1 := by
      obtain ⟨acts, hrun⟩ := h1.run
      exact ⟨h1.geom, h1.inv, acts, hrun.mono (fun _ _ _ h => h.of_child hv)⟩
    have hext := h1.extends (View.Extends.rfl _)
    have hv1 := h1'.extends hv
    have hrest := ih s1 (hc.of_eq h1.geom) h1.inv (hext.dir hsrc) (hext.dir hnew) hv1
    exact hrest.mono (fun _ s2 h2 => h1'.trans h2) (fun _ _ h => h)

theorem Copied.of_created {s' : Fs} {i d : ℕ} {kind : UInt32} {q q' : ℕ × ℕ} {d' j : ℕ}
    (hgeom : s'.geom = s.geom)
    (h : Created s.blk i kind d dest_name q s'.blk) (hkind : kind = F_FILE ∨ kind = F_DIR)
    (hd : kindAt s.blk d = F_DIR) (hlen : (nameBytes dest_name).length ≤ 27)
    (hnew : (view s.blk).Unnamed d dest_name) (hsrc : (view s.blk).entry d' q' = some (j, name)) :
    Copied v name dest_name s s' := by
  refine ⟨hgeom, h.inv, [.create i kind d q dest_name], .one ⟨h.step hkind hd hlen, hnew, ?_⟩⟩
  exact ⟨d', q', j, name, hsrc, .inr ⟨rfl, rfl⟩⟩

/-- The directory branch of `copy_entry`. -/
def copy_dir (frames : ℕ) (src_ino to_parent : UInt32) (dest_name : String) :
    FsM (Option UInt32) := do
  let new_ino ← create_dir to_parent dest_name
  let children ← list_dir src_ino
  copy_children (fun child_name => copy_entry frames src_ino new_ino child_name child_name) children
  pure (some new_ino)

/-- The file branch of `copy_entry`. -/
def copy_data (src_ino to_parent : UInt32) (dest_name : String) : FsM (Option UInt32) := do
  let data ← read_file src_ino
  let new_ino ← create_file to_parent dest_name
  write_file new_ino data
  pure (some new_ino)

/-- The directory branch of `copy_entry`. -/
theorem copy_dir_spec {frames : ℕ} {s : Fs} {src_ino to_parent : UInt32}
    {name dest_name : String} (d' : ℕ) (q' : ℕ × ℕ) (hc : s.geom.covers) (I : Inv s.blk)
    (ih : ∀ (s : Fs) (from_parent to_parent : UInt32) (name dest_name : String),
      s.geom.covers → Inv s.blk → kindAt s.blk from_parent.toNat = F_DIR →
      kindAt s.blk to_parent.toNat = F_DIR →
      CopySpec (copy_entry frames from_parent to_parent name dest_name) s name dest_name)
    (hd : kindAt s.blk to_parent.toNat = F_DIR) (hsrc : kindAt s.blk src_ino.toNat = F_DIR)
    (hnew : (view s.blk).Unnamed to_parent.toNat dest_name)
    (hentry : (view s.blk).entry d' q' = some (src_ino.toNat, name)) :
    CopySpec (copy_dir frames src_ino to_parent dest_name) s name dest_name := by
  refine Post.andThen (create_dir_spec s hc I to_parent dest_name hd)
    (fun _ _ he => he.on_device) ?_
  rintro new_ino s1 ⟨hb, hlen, q, hcreated⟩
  have h1 : Copied (view s.blk) name dest_name s s1 :=
    Copied.of_created hb.geom hcreated (.inr rfl) hd hlen hnew hentry
  have hc1 := hc.of_eq h1.geom
  have hext := h1.extends (View.Extends.rfl _)
  have hnewdir := hcreated.kind_new
  obtain ⟨s2, hlist, ht2⟩ := list_dir_spec s1 hc1 h1.inv.acc src_ino (hext.dir hsrc)
  refine Post.step hlist ?_
  have h2 : Copied (view s.blk) name dest_name s s2 := h1.trans (Copied.of_to h1.inv ht2)
  have hloop := copy_children_spec
    (fun child_name => copy_entry frames src_ino new_ino child_name child_name)
    src_ino.toNat new_ino.toNat (view s.blk) name dest_name
    (fun s child hc I hs hn => ih s src_ino new_ino child child hc I hs hn)
    (listing s1.blk (inodeAt s1.blk src_ino.toNat)) s2 (hc.of_eq h2.geom) h2.inv
    (by rw [ht2.blk]; exact hext.dir hsrc) (by rw [ht2.blk]; exact hnewdir)
    (h2.extends (View.Extends.rfl _))
  refine Post.seq hloop ?_
  intro _ s3 h3
  exact Post.pure ⟨h2.trans h3, fun h => absurd h (by simp)⟩

/-- The file branch of `copy_entry`. -/
theorem copy_data_spec {s : Fs} {src_ino to_parent : UInt32} {name dest_name : String}
    (d' : ℕ) (q' : ℕ × ℕ) (hc : s.geom.covers) (I : Inv s.blk)
    (hd : kindAt s.blk to_parent.toNat = F_DIR) (hsrc : kindAt s.blk src_ino.toNat = F_FILE)
    (hnew : (view s.blk).Unnamed to_parent.toNat dest_name)
    (hentry : (view s.blk).entry d' q' = some (src_ino.toNat, name)) :
    CopySpec (copy_data src_ino to_parent dest_name) s name dest_name := by
  obtain ⟨s1, hread, ht1⟩ := read_file_spec s hc src_ino (I.target hsrc)
  refine Post.step hread ?_
  have hc1 := hc.of_eq ht1.geom
  have I1 : Inv s1.blk := by rw [ht1.blk]; exact I
  have hd1 : kindAt s1.blk to_parent.toNat = F_DIR := by rw [ht1.blk]; exact hd
  refine Post.andThen (create_file_spec s1 hc1 I1 to_parent dest_name hd1)
    (fun _ _ he => he.on_device) ?_
  rintro new_ino s2 ⟨hb, hlen, q, hcreated⟩
  have h2 : Copied (view s.blk) name dest_name s s2 := by
    refine (Copied.of_to I ht1).trans ?_
    have hentry1 : (view s1.blk).entry d' q' = some (src_ino.toNat, name) := by
      rw [ht1.blk]
      exact hentry
    exact Copied.of_created hb.geom hcreated (.inl rfl) hd1 hlen (by rw [ht1.blk]; exact hnew)
      hentry1
  have hc2 := hc1.of_eq hb.geom
  have hfile := hcreated.kind_new
  refine Post.andThen (write_file_spec s2 hc2 new_ino _ (h2.inv.target hfile))
    (fun _ _ he => he.on_device) ?_
  rintro _ s3 ⟨ht3, hwrote⟩
  refine Post.pure ⟨h2.trans ⟨ht3.geom, h2.inv.write hwrote hfile,
    [.write new_ino.toNat (content s.blk (inodeAt s.blk src_ino.toNat))], ?_⟩,
    fun h => absurd h (by simp)⟩
  have hfree : (view s.blk).flags new_ino.toNat = F_FREE := by
    rw [← ht1.blk]
    exact hcreated.was_free
  exact .one ⟨⟨hfile, hwrote.view h2.inv.acc hfile⟩, hfree⟩

/-- **`copy_entry`.** With any number of stack frames: when it returns, it has made a run of
creations and writes. -/
theorem copy_entry_spec (frames : ℕ) : ∀ (s : Fs) (from_parent to_parent : UInt32)
    (name dest_name : String), s.geom.covers → Inv s.blk →
    kindAt s.blk from_parent.toNat = F_DIR → kindAt s.blk to_parent.toNat = F_DIR →
    CopySpec (copy_entry frames from_parent to_parent name dest_name) s name dest_name := by
  induction frames with
  | zero =>
    intro s _ _ _ _ _ _ _ _
    exact Post.throw rfl
  | succ frames ih =>
    intro s from_parent to_parent name dest_name hc I hfrom hto
    obtain ⟨r, s1, hfind, ht1, hres⟩ := find_entry_spec s hc I to_parent dest_name hto
    refine Post.step hfind ?_
    cases r with
    | some ino => exact Post.pure ⟨Copied.of_to I ht1, fun _ => ht1.blk⟩
    | none =>
      have hc1 := hc.of_eq ht1.geom
      have I1 : Inv s1.blk := by rw [ht1.blk]; exact I
      obtain ⟨r, s2, hfind', ht2, hres'⟩ := find_entry_spec s1 hc1 I1 from_parent name
        (by rw [ht1.blk]; exact hfrom)
      rw [ht1.blk] at ht2 hres'
      refine Post.step hfind' ?_
      have ht := ht1.trans ht2
      cases r with
      | none => exact Post.pure ⟨Copied.of_to I ht, fun _ => ht.blk⟩
      | some src_ino =>
        obtain ⟨-, q, hentry⟩ := hres'
        by_cases hself : src_ino = to_parent
        · dsimp only
          rw [if_pos hself]
          exact Post.pure ⟨Copied.of_to I ht, fun _ => ht.blk⟩
        dsimp only
        rw [if_neg hself]
        have hlive := I.live_of_entry hentry
        have hc2 := hc.of_eq ht.geom
        obtain ⟨s3, hread, ht3⟩ := read_inode_spec s2 src_ino (hc2.holds_inode hlive.1)
        rw [ht.blk] at hread ht3
        refine Post.step hread ?_
        have ht' := ht.trans ht3
        have hc3 := hc.of_eq ht'.geom
        have I3 : Inv s3.blk := by rw [ht'.blk]; exact I
        -- both branches start where the checks end
        have hstart : ∀ copy : FsM (Option UInt32), CopySpec copy s3 name dest_name →
            Post copy s3
              (fun r s' => Copied (view s.blk) name dest_name s s' ∧ (r = none → s'.blk = s.blk))
              (fun e _ => e.off_device = false) := by
          intro copy h
          rw [CopySpec, ht'.blk] at h
          refine h.mono ?_ (fun _ _ h => h)
          rintro r s' ⟨hcopied, hnone⟩
          exact ⟨(Copied.of_to I ht').trans hcopied, hnone⟩
        split_ifs with hdir
        · apply hstart
          refine copy_dir_spec from_parent.toNat q hc3 I3 ih ?_ ?_ ?_ ?_
          · rw [ht'.blk]
            exact hto
          · rw [ht'.blk, kindAt_of_lt _ hlive.1]
            exact hdir
          · rw [ht'.blk]
            exact hres
          · rw [ht'.blk]
            exact hentry
        · apply hstart
          have hfile : (inodeAt s.blk src_ino.toNat).flags = F_FILE := by
            rcases I.acc.kind _ hlive with hfile | hdir'
            · exact hfile
            · exact absurd hdir'.1 hdir
          refine copy_data_spec from_parent.toNat q hc3 I3 ?_ ?_ ?_ ?_
          · rw [ht'.blk]
            exact hto
          · rw [ht'.blk, kindAt_of_lt _ hlive.1]
            exact hfile
          · rw [ht'.blk]
            exact hres
          · rw [ht'.blk]
            exact hentry

end HepOS.HepFS
