/-
File contents through the callers.

`find_in_dir` and `add_dir_entry` take the blocks of whatever inode they are given for a
directory. As long as the inodes they are given are directories, no request reads an entry
out of a file or writes one into it, and the content of a file changes by `write_file` on it
only. The jobs of the system calls hand on the inode a path leads to without looking at its
type: making `/a/x` when `/a` is a file writes an entry into the bytes of `/a`.
-/
import HepOS.Callers.Names

set_option autoImplicit false

namespace HepOS.Callers

open Hoare HepFS Trace List

/-! ## Runs that keep to directories -/

/-- The condition on a request: every inode it searches, or stores an entry in, is a
directory, and what it writes to is a file. -/
def Request.OnDirs (D : Disk) : Request → Prop
  | .call op => op.Proper D
  | .lookup path => (view D).SearchesDirs 0 (path_parts path)

/-- A call does not write to the file. -/
def Request.LeavesAlone (f : UInt32) (r : Request) : Prop :=
  ∀ data, r ≠ .call (.write_file f data)

section

variable {s s' : Fs} {l : List (Fs × Request)}

/-- The content of a file along a record: it is the same in every state, as long as the file
stays and no request writes to it. -/
theorem Recorded.bytes_kept (h : Recorded s l s') (hc : s.geom.covers) (I : HepFS.Inv s.blk)
    (hdirs : ∀ t r, (t, r) ∈ l → r.OnDirs t.blk) (f : UInt32)
    (hstay : ∀ t r, (t, r) ∈ l → kindAt t.blk f.toNat = F_FILE ∧ r.LeavesAlone f)
    (hend : kindAt s'.blk f.toNat = F_FILE) :
    (view s'.blk).bytes f.toNat = (view s.blk).bytes f.toNat := by
  have hkeeps := h.keeps (P := fun t => t.geom.covers ∧ HepFS.Inv t.blk
    ∧ (kindAt t.blk f.toNat = F_FILE →
      (view t.blk).bytes f.toNat = (view s.blk).bytes f.toNat)) ⟨hc, I, fun _ => rfl⟩ ?_ ?_
  · exact hkeeps.1.2.2 hend
  · rintro t t' ⟨hct, It, ht⟩ hto
    rw [hto.geom, hto.blk]
    exact ⟨hct, It, ht⟩
  · rintro t op t' hmem ⟨hct, It, ht⟩ hret
    obtain ⟨hfile, halone⟩ := hstay t _ hmem
    have hcalls : Calls t op t' := ⟨hdirs t _ hmem, hret⟩
    have heff := hcalls.effect hct It
    refine ⟨hct.of_eq heff.geom, heff.inv, ?_⟩
    intro hfile'
    rw [← ht hfile]
    refine heff.effect.bytes_kept hfile hfile' ?_
    rintro ino data rfl hino
    obtain rfl := UInt32.toNat_inj.mp hino
    exact halone data rfl

end

theorem FromFormat.inv {σ : Session} (h : FromFormat σ)
    (hdirs : ∀ t r, (t, r) ∈ σ.requests → r.OnDirs t.blk) (t : Fs)
    (ht : t = σ.fs ∨ ∃ r, (t, r) ∈ σ.requests) : t.geom.covers ∧ HepFS.Inv t.blk := by
  have hkeeps := h.keeps (fun t op hmem => hdirs t (.call op) hmem)
    (fun _ _ _ => trivial) (fun _ _ _ _ _ _ _ _ => trivial) (fun _ _ hm => hm) t ht
  exact ⟨hkeeps.1, hkeeps.2.1⟩

theorem read_file_of_view {s : Fs} (hc : s.geom.covers) (I : HepFS.Inv s.blk) {f : UInt32}
    (hf : kindAt s.blk f.toNat = F_FILE) : ∃ t, HepFS.read_file f s
      = .ok ((view s.blk).bytes f.toNat) t := by
  obtain ⟨t, hread, -⟩ := read_file_spec s hc f (I.target hf)
  rw [← view_bytes_of_file hf] at hread
  exact ⟨t, hread⟩

/-- **File bytes are not directory entries.** In a run of the callers all of whose requests
keep to directories, what a path leads to is determined by entries of directories, and a file
that stays reads the same until something is written to it. -/
theorem file_bytes_only_written {σ σ' : Session} {events : List Event} (h : FromFormat σ)
    (hrun : Steps Event.Runs σ events σ') (hdirs : ∀ t r, (t, r) ∈ σ'.requests → r.OnDirs t.blk) :
    (∀ t path, (t, .lookup path) ∈ σ'.requests → ∃ r t', HepFS.lookup path t = .ok r t'
        ∧ t'.blk = t.blk ∧ (view t.blk).Resolves ROOT_INO (path_parts path) r)
      ∧ ∀ (f : UInt32) (l : List (Fs × Request)), σ'.requests = σ.requests ++ l →
        kindAt σ.fs.blk f.toNat = F_FILE →
        (∀ t r, (t, r) ∈ l → kindAt t.blk f.toNat = F_FILE ∧ r.LeavesAlone f) →
        kindAt σ'.fs.blk f.toNat = F_FILE → ∃ bytes t t', HepFS.read_file f σ.fs = .ok bytes t
          ∧ HepFS.read_file f σ'.fs = .ok bytes t' := by
  have hfrom' : FromFormat σ' := by
    obtain ⟨s0, s1, events0, hc, hformat, hrun0⟩ := h
    exact ⟨s0, s1, events0 ++ events, hc, hformat, hrun0.append hrun⟩
  refine ⟨?_, ?_⟩
  · intro t path hmem
    obtain ⟨hc, I⟩ := hfrom'.inv hdirs t (.inr ⟨_, hmem⟩)
    obtain ⟨r, t', hlook, ht, hres⟩ := lookup_spec hc I path (hdirs t _ hmem)
    exact ⟨r, t', hlook, ht.blk, hres⟩
  · intro f l hl hf hstay hf'
    obtain ⟨l', hl', hrec⟩ := Steps.recorded hrun
    obtain rfl := append_cancel_left (hl.symm.trans hl')
    have hdirs0 : ∀ t r, (t, r) ∈ σ.requests → r.OnDirs t.blk := by
      intro t r hmem
      exact hdirs t r (by rw [hl]; exact mem_append_left _ hmem)
    obtain ⟨hc, I⟩ := h.inv hdirs0 σ.fs (.inl rfl)
    obtain ⟨hc', I'⟩ := hfrom'.inv hdirs σ'.fs (.inl rfl)
    obtain ⟨t, hread⟩ := read_file_of_view hc I hf
    obtain ⟨t', hread'⟩ := read_file_of_view hc' I' hf'
    rw [hrec.bytes_kept hc I (fun u r hmem => hdirs u r (by
      rw [hl]
      exact mem_append_right _ hmem)) f hstay hf'] at hread'
    exact ⟨_, t, t', hread, hread'⟩

/-! ## A file as a parent -/

theorem create_job_runs (path : String) {σ σ₁ σ₂ : Session} {parent name : String}
    {parent_ino ino : UInt32} (hsplit : split_path path = (parent, name))
    (hlook : Callers.lookup parent σ = .ok (some parent_ino) σ₁)
    (hcreate : Callers.create_file parent_ino name σ₁ = .ok ino σ₂) :
    Event.Runs σ (.job (.Create false) path) σ₂ := by
  have hjob : (FsJob.new (.Create false) path).create false σ
      = .ok { FsJob.new (.Create false) path with result := 0 } σ₂ := by
    unfold FsJob.create
    rw [show (FsJob.new (.Create false) path).path = path from rfl, hsplit]
    dsimp only
    rw [bind_of_ok hlook]
    dsimp only
    rw [if_neg (by decide), bind_of_ok hcreate]
    rfl
  have hservice : fs_service (FsJob.new (.Create false) path) σ
      = .ok { FsJob.new (.Create false) path with result := 0, done := true } σ₂ := by
    unfold fs_service
    rw [if_neg (by simp [FsJob.new]),
      bind_of_ok (show (FsJob.new (.Create false) path).perform σ = _ from hjob)]
    rfl
  show (fs_service (FsJob.new (.Create false) path) >>= fun _ => pure ()) σ = _
  rw [bind_of_ok hservice]
  rfl

/-- The first entry stored in an empty inode gives it 32 bytes. -/
theorem Added.length_content {D0 D : Disk} {d : ℕ} {q : ℕ × ℕ} {e : DirEntry}
    (h : Added D0 d q e D) (hlive : Live (inodeAt D) d) (hsize : (inodeAt D0 d).size = 0) :
    (content D (inodeAt D d)).length = 32 := by
  obtain ⟨m, t, hsh⟩ := h.acc.shape d hlive
  obtain ⟨-, hne, j, -, hj⟩ := (mem_places).mp h.place
  have hjm : j < m := (hsh.data j).mp (by rw [hj]; exact hne)
  have hsize' : (inodeAt D d).size.toNat = 32 := by
    rw [h.size, hsize]
    rfl
  unfold content
  rw [dataCount_eq hsh, length_take, length_blockBytes, hsize']
  omega

/-- `create_file` with an empty file as parent returns, and the file is not empty any more. -/
theorem create_file_in_file (s : Fs) (hc : s.geom.covers) (I : HepFS.Inv s.blk) (f : UInt32)
    (name : String) (hlen : (nameBytes name).length ≤ 27) (hroom : 0 < freeCount s.blk) {i : ℕ}
    (hi : i < 1024) (hfree : kindAt s.blk i = F_FREE) (hf : f.toNat < 1024)
    (hfile : inodeAt s.blk f.toNat = { (default : Inode) with flags := F_FILE }) :
    ∃ ino s', HepFS.create_file f name s = .ok ino s' ∧ kindAt s'.blk f.toNat = F_FILE
      ∧ ∃ bytes t, HepFS.read_file f s' = .ok bytes t ∧ bytes.length = 32 := by
  have hlive : Live (inodeAt s.blk) f.toNat := ⟨hf, by rw [hfile]; decide⟩
  obtain ⟨ino, s', hrun, hb, -, hfresh, q, hadded⟩ :=
    (create_file_links s hc I f name hlive).exists_ok (by
      rintro e s' (⟨-, hfull⟩ | ⟨k, hk, ⟨-, hlong⟩ | ⟨-, hnone⟩ | ⟨-, hdirfull⟩⟩)
      · exact hfull i hi hfree
      · omega
      · rw [freeCount_newFile hk.lt] at hnone
        omega
      · -- an empty file has no block that could be full
        have hslot := (hdirfull 0 (by omega)).1
        rw [slotOf_data_direct _ _ (by omega), inodeAt_newFile_ne I hk hlive, hfile] at hslot
        exact hslot rfl)
  have hsame := inodeAt_newFile_ne I hfresh hlive
  have hflags : (inodeAt s'.blk f.toNat).flags = F_FILE := by
    rw [hadded.flags, hsame, hfile]
  have hlive' : Live (inodeAt s'.blk) f.toNat := ⟨hf, by rw [hflags]; decide⟩
  have hcontent := Added.length_content hadded hlive' (by rw [hsame, hfile]; rfl)
  obtain ⟨t, hread, -⟩ := read_file_spec s' (hc.of_eq hb.geom) f
    ⟨hadded.acc, hlive', hflags⟩
  exact ⟨ino, s', hrun, by rw [kindAt_of_lt _ hf]; exact hflags, _, t, hread, hcontent⟩

/-! ## One file and a `Create` job -/

/-- The file `a` made in a fresh terminal right after `format`. -/
theorem exists_touched_file : ∃ s s1 q, format unformatted = .ok () s
    ∧ Steps Event.Runs ⟨s, []⟩ [.shell Terminal.new .touch "a" ""]
      ⟨s1, [(s, .call (.create_file 0 "a"))]⟩
    ∧ Reachable s1 ∧ kindAt s.blk 0 = F_DIR ∧ view s1.blk = View.root.create 1 F_FILE 0 q "a"
    ∧ inodeAt s1.blk 1 = { (default : Inode) with flags := F_FILE }
    ∧ 131000 ≤ freeCount s1.blk := by
  obtain ⟨s, s1, q, hformat, hrun, -, hreach, hview, hcount⟩ := exists_created .file "a" (by decide)
  obtain ⟨s', hformat', hgeom, I, hroot, -⟩ := format_spec unformatted unformatted_covers
  obtain ⟨-, rfl⟩ := EStateM.Result.ok.inj (hformat.symm.trans hformat')
  have hd : kindAt s.blk 0 = F_DIR := by
    rw [← view_flags, hroot]
    rfl
  obtain ⟨-, -, _, hcreated⟩ :=
    (create_file_spec s (by rw [hgeom]; exact unformatted_covers) I 0 "a"
    hd).of_ok hrun
  exact ⟨s, s1, q, hformat, .one (touch_runs Terminal.new (by decide) (request_of_ok hrun)),
    hreach, hd, hview, hcreated.file rfl, hcount⟩

/-- A second file made next to the first leaves the first one alone. -/
theorem file_bytes_only_written_created : ∃ s s₁ σ',
    FromFormat ⟨s₁, [(s, .call (.create_file 0 "a"))]⟩
      ∧ Steps Event.Runs ⟨s₁, [(s, .call (.create_file 0 "a"))]⟩ [.job (.Create false) "/b"] σ'
      ∧ (∀ t r, (t, r) ∈ σ'.requests → r.OnDirs t.blk)
      ∧ ∃ bytes t t', HepFS.read_file 1 s₁ = .ok bytes t
      ∧ HepFS.read_file 1 σ'.fs = .ok bytes t' := by
  obtain ⟨s, s₁, q, hformat, hrun, hreach, hd, hview, -, hcount⟩ := exists_touched_file
  have hkind := kindAt_of_root_create hview
  have hfrom : FromFormat ⟨s₁, [(s, .call (.create_file 0 "a"))]⟩ :=
    ⟨unformatted, s, _, unformatted_covers, hformat, hrun⟩
  have hlook : HepFS.lookup "" s₁ = .ok (some 0) s₁ := by
    rfl
  obtain ⟨s2, q', hcreate, -, -, hview2, -⟩ := hreach.create .file 0 "b" 2 (hkind 0) (by decide)
    (by decide) (used_of_root_create hview (by decide)) (hkind 2) (by omega)
  have hjob : Event.Runs ⟨s₁, [(s, .call (.create_file 0 "a"))]⟩ (.job (.Create false) "/b") _ :=
    create_job_runs "/b" (by decide) (request_of_ok hlook) (request_of_ok hcreate)
  have hdirs : ∀ t r, (t, r) ∈ [(s, Request.call (.create_file 0 "a"))] ++ [(s₁, Request.lookup "")]
      ++ [(s₁, Request.call (.create_file 0 "b"))] → r.OnDirs t.blk := by
    intro t r hmem
    simp only [cons_append, nil_append, mem_cons, not_mem_nil, or_false] at hmem
    rcases hmem with h | h | h
    · obtain ⟨rfl, rfl⟩ := Prod.mk.inj h
      exact hd
    · obtain ⟨rfl, rfl⟩ := Prod.mk.inj h
      exact trivial
    · obtain ⟨rfl, rfl⟩ := Prod.mk.inj h
      exact hkind 0
  refine ⟨s, s₁, _, hfrom, .one hjob, hdirs, ?_⟩
  refine (file_bytes_only_written hfrom (.one hjob) hdirs).2 1 _ (append_assoc _ _ _)
    (hkind 1) ?_ ?_
  · intro t r hmem
    simp only [cons_append, nil_append, mem_cons, not_mem_nil, or_false] at hmem
    rcases hmem with h | h
    · obtain ⟨rfl, rfl⟩ := Prod.mk.inj h
      exact ⟨hkind 1, fun data => by simp⟩
    · obtain ⟨rfl, rfl⟩ := Prod.mk.inj h
      exact ⟨hkind 1, fun data => by simp⟩
  · show kindAt s2.blk 1 = F_FILE
    rw [← view_flags, hview2, View.flags_create, view_flags, hkind]
    rfl

/-- **A `Create` job with a file as parent.** `touch a` makes an empty file; the job that
makes `/a/x` returns, and `a` has 32 bytes, though nothing was written to it. -/
theorem create_job_writes_into_file : ∃ s s₁ t σ', format unformatted = .ok () s
    ∧ Steps Event.Runs ⟨s, []⟩ [.shell Terminal.new .touch "a" ""]
      ⟨s₁, [(s, .call (.create_file 0 "a"))]⟩
    ∧ Event.Runs ⟨s₁, [(s, .call (.create_file 0 "a"))]⟩ (.job (.Create false) "/a/x") σ'
    ∧ σ'.requests = [(s, .call (.create_file 0 "a")), (s₁, .lookup "/a"),
      (t, .call (.create_file 1 "x"))]
    ∧ kindAt s₁.blk 1 = F_FILE ∧ kindAt t.blk 1 = F_FILE ∧ kindAt σ'.fs.blk 1 = F_FILE
    ∧ (∃ u, HepFS.read_file 1 s₁ = .ok [] u)
    ∧ ∃ bytes u, HepFS.read_file 1 σ'.fs = .ok bytes u ∧ bytes.length = 32 := by
  obtain ⟨s, s₁, q, hformat, hrun, hreach, hd, hview, hfile, hcount⟩ := exists_touched_file
  obtain ⟨hc, I⟩ := hreach.inv
  have hkind := kindAt_of_root_create hview
  have hgood : (view s₁.blk).GoodNames := by
    have hflags : (View.root.setFlags 1 F_FILE).GoodNames := View.goodNames_root.congr rfl
    rw [hview]
    refine hflags.setEntry (by decide) ?_
    intro t j _ h
    exact absurd h (by simp [View.root, View.setFlags])
  have hleads : (view s₁.blk).Leads 0 (path_parts "/a") (1 : UInt32).toNat := by
    refine .entry (q := q) (hkind 0) ?_ (.here 1)
    rw [hview, View.entry_create]
    exact if_pos ⟨rfl, rfl⟩
  obtain ⟨t, hlook, ht⟩ := lookup_of_leads hc I hgood.unique hleads
  have hcount' : 0 < freeCount t.blk := by
    rw [ht.blk]
    omega
  obtain ⟨ino, s2, hcreate, hfile2, bytes, u, hread, hlen⟩ := create_file_in_file t
    (hc.of_eq ht.geom) (by rw [ht.blk]; exact I) 1 "x" (by decide) hcount'
    (show 2 < 1024 by omega) (by rw [ht.blk]; exact hkind 2) (by decide)
      (by rw [ht.blk]; exact hfile)
  obtain ⟨u0, hread0⟩ := read_file_of_view (f := 1) hc I (hkind 1)
  have hempty : (view s₁.blk).bytes (1 : UInt32).toNat = [] := by
    rw [hview]
    rfl
  rw [hempty] at hread0
  exact ⟨s, s₁, t, _, hformat, hrun, create_job_runs "/a/x" (by decide) (request_of_ok hlook)
    (request_of_ok hcreate), rfl, hkind 1,
    by rw [ht.blk]; exact hkind 1, hfile2, ⟨u0, hread0⟩, bytes, u, hread, hlen⟩

end HepOS.Callers
