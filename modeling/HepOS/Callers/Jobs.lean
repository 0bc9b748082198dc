/-
The jobs of the system calls, and what can stop them.

`fs_service` runs a job of a ring-3 process in the kernel: a panic of HepFS on the way is a
panic of the kernel. What a process chooses is the path and the data. The path is split at
its last `/` and what is behind it becomes the name of a new entry as it is, while
`add_dir_entry` asserts that a name has at most 27 bytes; `read_user_path` lets up to 256
through. On a disk with room this is the one thing that can stop a job whose path leads
through directories only. A path that leads through a regular file is searched for in the
bytes of that file, and what comes of it depends on them.
-/
import HepOS.Callers.Contents

set_option autoImplicit false

namespace HepOS.Callers

open Hoare HepFS Trace List Option

/-! ## What a path resolves to -/

/-- The first entry of that name in a list of blocks. -/
def entry_in (D : Disk) (name : String) : List UInt32 → Option UInt32
  | [] => none
  | blk :: rest =>
    match scan_block (D blk.toNat) (DirEntry.named name) with
    | some i => some ((D blk.toNat).entry i).inode
    | none => entry_in D name rest

/-- The first entry of that name in the blocks of an inode, whatever the inode is. -/
def entry_of (D : Disk) (ino : UInt32) (name : String) : Option UInt32 :=
  entry_in D name (inodeAt D ino.toNat).blocks

/-- Where the parts of a path lead from an inode. -/
def resolve (D : Disk) (ino : UInt32) : List String → Option UInt32
  | [] => some ino
  | part :: rest =>
    match entry_of D ino part with
    | some ino => resolve D ino rest
    | none => none

/-- Only directories are searched on the way. -/
def OnlyDirs (D : Disk) (ino : UInt32) : List String → Prop
  | [] => True
  | part :: rest => kindAt D ino.toNat = F_DIR
      ∧ ∀ i, entry_of D ino part = some i → OnlyDirs D i rest

variable {ino : UInt32} {job : FsJob} {s : Fs}

section

variable {s t : Fs}

theorem scan_dir_ok {name : String} (blks : List UInt32) :
    ∀ {s t : Fs} {r : Option (UInt32 × Block × ℕ)},
      scan_dir (DirEntry.named name) blks s = .ok r t →
      r.map (fun x => (x.2.1.entry x.2.2).inode) = entry_in s.blk name blks := by
  induction blks with
  | nil =>
    intro s t r h
    cases h
    rfl
  | cons blk rest ih =>
    intro s t r h
    obtain ⟨buf, s1, hread, h⟩ := exists_of_bind_ok h
    obtain ⟨-, -, rfl, rfl⟩ := read_block_ok hread
    unfold entry_in
    cases hscan : scan_block (s.blk blk.toNat) (DirEntry.named name) with
    | none =>
      rw [hscan] at h
      exact (ih h).trans rfl
    | some i =>
      rw [hscan] at h
      cases h
      rfl

theorem find_in_dir_ok {name : String} {r : Option UInt32}
    (h : find_in_dir ino name s = .ok r t) : r = entry_of s.blk ino name := by
  obtain ⟨n, s1, hread, h⟩ := exists_of_bind_ok h
  obtain ⟨x, s2, hscan, h⟩ := exists_of_bind_ok h
  have hblk := (readOnly.read_inode _ _ _ _ hread).blk
  have hn : n = inodeAt s.blk ino.toNat := by
    obtain ⟨page, s3, hpage, hpure⟩ := exists_of_bind_ok hread
    obtain ⟨-, -, rfl, -⟩ := read_block_ok hpage
    cases hpure
    unfold inodeAt
    rfl
  have hres := scan_dir_ok _ hscan
  rw [hblk, hn] at hres
  unfold entry_of
  rw [← hres]
  cases x with
  | none | some x => exact (EStateM.Result.ok.inj h).1.symm

theorem lookup_from_ok (parts : List String) : ∀ {s t : Fs} {ino : UInt32} {r : Option UInt32},
    lookup_from ino parts s = .ok r t → r = resolve s.blk ino parts := by
  induction parts with
  | nil =>
    intro s t ino r h
    exact (EStateM.Result.ok.inj h).1.symm
  | cons part rest ih =>
    intro s t ino r h
    obtain ⟨x, s1, hfind, h⟩ := exists_of_bind_ok h
    have hblk := (readOnly.find_in_dir _ _ _ _ _ hfind).blk
    obtain rfl := find_in_dir_ok hfind
    unfold resolve
    cases hx : entry_of s.blk ino part with
    | none =>
      rw [hx] at h
      exact (EStateM.Result.ok.inj h).1.symm
    | some i =>
      rw [hx] at h
      rw [ih h, hblk]

/-- **`lookup` through directories** returns, with an inode in use. -/
theorem lookup_from_returns (hc : s.geom.covers) (I : HepFS.Inv s.blk) (parts : List String) :
    ∀ (ino : UInt32) (t : Fs), s.To t s.blk → OnlyDirs s.blk ino parts →
      kindAt s.blk ino.toNat ≠ F_FREE →
      ∃ t', lookup_from ino parts t = .ok (resolve s.blk ino parts) t' ∧ s.To t' s.blk
        ∧ ∀ i, resolve s.blk ino parts = some i → kindAt s.blk i.toNat ≠ F_FREE := by
  induction parts with
  | nil =>
    intro ino t ht _ hlive
    refine ⟨t, rfl, ht, ?_⟩
    rintro i hi
    cases hi
    exact hlive
  | cons part rest ih =>
    rintro ino t ht ⟨hd, hrest⟩ _
    have hct := hc.of_eq ht.geom
    have It : HepFS.Inv t.blk := by rw [ht.blk]; exact I
    obtain ⟨r, t1, hfind, ht1, hres⟩ := find_entry_spec t hct It ino part
      (by rw [ht.blk]; exact hd)
    obtain rfl := find_in_dir_ok hfind
    rw [ht.blk] at hfind hres ht1
    unfold lookup_from resolve
    rw [bind_of_ok hfind]
    cases hx : entry_of s.blk ino part with
    | none => exact ⟨t1, rfl, ht.trans ht1, by simp⟩
    | some i =>
      rw [hx] at hres
      obtain ⟨-, q, hentry⟩ := hres
      exact ih i t1 (ht.trans ht1) (hrest i hx)
        (live_iff_kindAt.mp (I.live_of_entry hentry))

end

/-! ## The condition on a job -/

section

variable (job : FsJob) (D : Disk)

/-- What the path of a new entry is split into. -/
def FsJob.parent : String := (split_path job.path).1

def FsJob.name : String := (split_path job.path).2

/-- Where the path of a job leads, and the path of its parent. -/
def FsJob.target : Option UInt32 := resolve D ROOT_INO (path_parts job.path)

def FsJob.parent_ino : Option UInt32 :=
  resolve D ROOT_INO (path_parts job.parent)

/-- The job makes a new entry. -/
def FsJob.Makes : Prop :=
  match job.op with
  | .ListDir | .ReadFile => False
  | .WriteFile _ => job.target D = none ∧ (job.parent_ino D).isSome
  | .Create _ => (job.parent_ino D).isSome

/-- A new entry has a name that fits into it. -/
def FsJob.NameFits : Prop :=
  job.Makes D → (nameBytes job.name).length ≤ 27

/-- The path of the parent leads through directories to a directory, if anywhere. -/
def FsJob.InDir : Prop :=
  OnlyDirs D ROOT_INO (path_parts job.parent)
    ∧ ∀ i, job.parent_ino D = some i → kindAt D i.toNat = F_DIR

/-- The paths a job looks up lead through directories only. -/
def FsJob.OnDirs : Prop :=
  match job.op with
  | .ListDir | .ReadFile => OnlyDirs D ROOT_INO (path_parts job.path)
  | .WriteFile _ => OnlyDirs D ROOT_INO (path_parts job.path) ∧ (job.target D = none → job.InDir D)
  | .Create _ => job.InDir D

/-- The blocks of the data of a job, with the tables that lead to them. -/
def FsJob.blocks : ℕ :=
  match job.op with
  | .WriteFile data => (slotsFor (blocksFor data.length)).length
  | _ => 0

/-- The pages a job may take: those of the lookups, of a look at what is there, and of the rest. -/
def FsJob.pages : ℕ :=
  match job.op with
  | .ListDir => 13 * (path_parts job.path).length + 14
  | .ReadFile => 13 * (path_parts job.path).length + 1
    + (job.target D).elim 0 fun i => readPages (inodeAt D i.toNat)
  | .WriteFile data => 13 * (path_parts job.path).length + 13 * (path_parts job.parent).length + 102
    + writePages (blocksFor data.length)
  | .Create _ => 13 * (path_parts job.parent).length + 107

/-- There is a free inode, there are free blocks for the data and for a new entry, and `n` pages
are enough. -/
structure FsJob.Room (n : ℕ) : Prop where
  inode : ∃ i < 1024, kindAt D i = F_FREE
  blocks : job.blocks + 2 ≤ freeCount D
  pages : job.pages D ≤ n

/-- The job is finished: it has a result, and the kernel goes on. -/
def FsJob.Finishes (σ : Session) : Prop :=
  ∃ job' σ', fs_service job σ = .ok job' σ' ∧ job'.done = true

end

/-! ## Long names -/

section

variable {s t : Fs}

theorem add_dir_entry_short {dir_ino : UInt32} {name : String}
    (h : add_dir_entry dir_ino name ino s = .ok () t) : (nameBytes name).length ≤ 27 := by
  obtain ⟨inode, s1, -, h⟩ := exists_of_bind_ok h
  by_cases hlen : (nameBytes name).length ≤ 27
  · exact hlen
  · rw [if_neg hlen, throw_run] at h
    simp at h

theorem create_file_short {parent : UInt32} {name : String}
    (h : HepFS.create_file parent name s = .ok ino t) : (nameBytes name).length ≤ 27 := by
  obtain ⟨_, s1, -, h⟩ := exists_of_bind_ok h
  obtain ⟨ino, s2, -, h⟩ := exists_of_bind_ok h
  obtain ⟨_, s3, -, h⟩ := exists_of_bind_ok h
  obtain ⟨_, s4, hadd, -⟩ := exists_of_bind_ok h
  exact add_dir_entry_short hadd

theorem create_dir_short {parent : UInt32} {name : String}
    (h : HepFS.create_dir parent name s = .ok ino t) : (nameBytes name).length ≤ 27 := by
  obtain ⟨_, s1, -, h⟩ := exists_of_bind_ok h
  obtain ⟨ino, s2, -, h⟩ := exists_of_bind_ok h
  obtain ⟨blk, s3, -, h⟩ := exists_of_bind_ok h
  obtain ⟨_, s4, -, h⟩ := exists_of_bind_ok h
  obtain ⟨_, s5, hadd, -⟩ := exists_of_bind_ok h
  exact add_dir_entry_short hadd

end

section

variable {σ σ' : Session} {α : Type}

theorem exists_of_request_ok {r : Request} {x : FsM α} {a : α}
    (h : request r x σ = .ok a σ') : x σ.fs = .ok a σ'.fs := by
  unfold request at h
  cases hx : x σ.fs with
  | ok b s =>
    rw [hx] at h
    cases h
    rfl
  | error e s =>
    rw [hx] at h
    simp at h

theorem lookup_ok {path : String} {r : Option UInt32} (h : Callers.lookup path σ = .ok r σ') :
    r = resolve σ.fs.blk ROOT_INO (path_parts path) ∧ σ'.fs.blk = σ.fs.blk := by
  have hrun := exists_of_request_ok h
  exact ⟨lookup_from_ok _ hrun, (readOnly.lookup path _ _ _ hrun).blk⟩

/-- **A job that finishes** made no entry with a long name, whatever its path leads through. -/
theorem nameFits_of_perform {job' : FsJob} (h : job.perform σ = .ok job' σ') :
    job.NameFits σ.fs.blk := by
  unfold FsJob.perform at h
  unfold FsJob.NameFits FsJob.Makes
  cases hop : job.op with
  | ListDir | ReadFile => exact fun hno => absurd hno id
  | WriteFile data =>
    rintro ⟨htarget, hparent⟩
    rw [hop] at h
    obtain ⟨r, σ1, hlook, h⟩ := exists_of_bind_ok h
    obtain ⟨hr, hblk⟩ := lookup_ok hlook
    obtain rfl : r = none := hr.trans htarget
    obtain ⟨p, σ2, hlook', h⟩ := exists_of_bind_ok h
    obtain ⟨hp, -⟩ := lookup_ok hlook'
    obtain ⟨i, hi⟩ := isSome_iff_exists.mp hparent
    rw [hblk] at hp
    obtain rfl : p = some i := hp.trans hi
    obtain ⟨ino, σ3, hcreate, -⟩ := exists_of_bind_ok h
    exact create_file_short (exists_of_request_ok hcreate)
  | Create is_dir =>
    intro hparent
    rw [hop] at h
    obtain ⟨p, σ1, hlook, h⟩ := exists_of_bind_ok h
    obtain ⟨hp, -⟩ := lookup_ok hlook
    obtain ⟨i, hi⟩ := isSome_iff_exists.mp hparent
    obtain rfl : p = some i := hp.trans hi
    split_ifs at h with hdir
    · obtain ⟨ino, σ2, hcreate, -⟩ := exists_of_bind_ok h
      exact create_dir_short (exists_of_request_ok hcreate)
    · obtain ⟨ino, σ2, hcreate, -⟩ := exists_of_bind_ok h
      exact create_file_short (exists_of_request_ok hcreate)

end

/-! ## Jobs that return -/

/-- The program returns, with `k` more pages taken at most. -/
def Returns {α : Type} (k : ℕ) (x : CallM α) (σ : Session) : Prop :=
  ∃ a σ', x σ = .ok a σ' ∧ σ'.fs.pages ≤ σ.fs.pages + k

section

variable {σ σ' : Session} {α β : Type} {j k : ℕ}

theorem Returns.pure (a : α) : Returns k (Pure.pure a : CallM α) σ :=
  ⟨a, σ, rfl, Nat.le_add_right _ _⟩

theorem Returns.bind {x : CallM α} {f : α → CallM β} {a : α} (hx : x σ = .ok a σ')
    (hj : σ'.fs.pages ≤ σ.fs.pages + j) (hf : Returns k (f a) σ') :
    Returns (j + k) (x >>= f) σ := by
  obtain ⟨b, σ'', hrun, hk⟩ := hf
  exact ⟨b, σ'', by rw [bind_of_ok hx]; exact hrun, by omega⟩

theorem Returns.lax {x : CallM α} (h : Returns j x σ) (hle : j ≤ k) : Returns k x σ := by
  obtain ⟨a, σ', hrun, hj⟩ := h
  exact ⟨a, σ', hrun, by omega⟩

theorem Returns.ite {p : Prop} [Decidable p] {x y : CallM α} (hx : p → Returns k x σ)
    (hy : ¬ p → Returns k y σ) : Returns k (if p then x else y) σ := by
  split_ifs with h
  · exact hx h
  · exact hy h

theorem look_of_ok {x : FsM α} {a : α} (h : x σ.fs = .ok a s) :
    look x σ = .ok a { σ with fs := s } := by
  unfold look
  rw [h]

theorem exists_request_ok {r : Request} {x : FsM α} {a : α} (h : x σ.fs = .ok a s) :
    ∃ σ', request r x σ = .ok a σ' ∧ σ'.fs = s := by
  unfold request
  rw [h]
  exact ⟨_, rfl, rfl⟩

end

/-- A device with all its blocks, and a good disk. -/
structure Sound (s : Fs) : Prop where
  covers : s.geom.covers
  inv : HepFS.Inv s.blk

theorem Sound.to {t : Fs} (h : Sound s) (ht : s.To t s.blk) : Sound t :=
  ⟨h.covers.of_eq ht.geom, by rw [ht.blk]; exact h.inv⟩

theorem Sound.file (h : Sound s) {i : ℕ} (hlive : kindAt s.blk i ≠ F_FREE)
    (hdir : kindAt s.blk i ≠ F_DIR) : kindAt s.blk i = F_FILE := by
  have hl := live_iff_kindAt.mpr hlive
  rw [kindAt_of_lt _ hl.1] at hdir ⊢
  rcases h.inv.acc.kind i hl with hfile | ⟨hd, -⟩
  · exact hfile
  · exact absurd hd hdir

section

attribute [local irreducible] path_parts split_path

variable {σ : Session} (h : Sound σ.fs)

include h

theorem Sound.lookup (path : String) (hdirs : OnlyDirs σ.fs.blk ROOT_INO (path_parts path)) :
    ∃ σ', Callers.lookup path σ = .ok (resolve σ.fs.blk ROOT_INO (path_parts path)) σ'
      ∧ σ.fs.To σ'.fs σ.fs.blk
      ∧ σ'.fs.pages ≤ σ.fs.pages + 13 * (path_parts path).length ∧ ∀ i, resolve σ.fs.blk ROOT_INO
        (path_parts path) = some i → kindAt σ.fs.blk i.toNat ≠ F_FREE := by
  have hroot : kindAt σ.fs.blk ROOT_INO.toNat ≠ F_FREE := by
    rw [← view_flags, show ROOT_INO.toNat = 0 from rfl, h.inv.linked.root]
    decide
  obtain ⟨t, hrun, ht, hlive⟩ :=
    lookup_from_returns h.covers h.inv (path_parts path) ROOT_INO σ.fs (Fs.To.rfl _) hdirs hroot
  obtain ⟨σ', hrun', rfl⟩ := exists_request_ok
    (show HepFS.lookup path σ.fs = _ from hrun)
  have hpages := (spends_lookup (k := 0) path).high hrun
  exact ⟨σ', hrun', ht, by omega, hlive⟩

theorem Sound.stat {i : UInt32} (hlive : kindAt σ.fs.blk i.toNat ≠ F_FREE) :
    ∃ size σ', look (HepFS.stat i) σ = .ok (decide (kindAt σ.fs.blk i.toNat = F_DIR), size) σ'
      ∧ σ.fs.To σ'.fs σ.fs.blk ∧ σ'.fs.pages ≤ σ.fs.pages + 1 := by
  have hlt := (live_iff_kindAt.mpr hlive).1
  obtain ⟨t, hread, ht⟩ := read_inode_spec σ.fs i (h.covers.holds_inode hlt)
  have hpages := (spends_read_inode (k := 0) i).high hread
  refine ⟨(inodeAt σ.fs.blk i.toNat).size, { σ with fs := t }, look_of_ok ?_,
    ht, by dsimp only; omega⟩
  unfold HepFS.stat
  rw [bind_of_ok hread, kindAt_of_lt _ hlt]
  rfl

/-- A path that leads somewhere is looked up and what it leads to is looked at. -/
theorem Sound.lookup_stat (hdirs : OnlyDirs σ.fs.blk ROOT_INO (path_parts job.path))
    {f : Option UInt32 → CallM FsJob} {g : UInt32 → Bool × UInt64 → CallM FsJob} {k : ℕ}
    (hf : ∀ i, f (some i) = look (HepFS.stat i) >>= g i)
    (hnone : ∀ σ' : Session, job.target σ.fs.blk = none → σ.fs.To σ'.fs σ.fs.blk →
      Returns (1 + k) (f none) σ')
    (hsome : ∀ (i : UInt32) (size : UInt64) (σ' : Session), job.target σ.fs.blk = some i →
      kindAt σ.fs.blk i.toNat ≠ F_FREE → σ.fs.To σ'.fs σ.fs.blk →
      Returns k (g i (decide (kindAt σ.fs.blk i.toNat = F_DIR), size)) σ') :
    Returns (13 * (path_parts job.path).length + (1 + k)) (Callers.lookup job.path >>= f) σ := by
  obtain ⟨σ1, hlook, ht1, hpages1, hlive⟩ := h.lookup job.path hdirs
  refine Returns.bind hlook hpages1 ?_
  cases hr : resolve σ.fs.blk ROOT_INO (path_parts job.path) with
  | none => exact hnone σ1 hr ht1
  | some i =>
    have hi := hlive i hr
    obtain ⟨size, σ2, hstat, ht2, hpages2⟩ := (h.to ht1).stat (by rw [ht1.blk]; exact hi)
    rw [ht1.blk] at hstat ht2
    rw [hf i]
    exact Returns.bind hstat hpages2 (hsome i size σ2 hr hi (ht1.trans ht2))

theorem Sound.list_dir_job (job : FsJob)
    (hdirs : OnlyDirs σ.fs.blk ROOT_INO (path_parts job.path)) :
    Returns (13 * (path_parts job.path).length + (1 + 13)) job.list_dir σ := by
  refine h.lookup_stat hdirs (fun _ => rfl) (fun _ _ _ => Returns.pure _) ?_
  intro i size σ2 _ hlive ht
  refine Returns.ite ?_ (fun _ => Returns.pure _)
  intro hdir
  have h2 := h.to ht
  obtain ⟨t, hlist, -⟩ := list_dir_spec σ2.fs h2.covers h2.inv.acc i (by
    rw [ht.blk]
    exact of_decide_eq_true hdir)
  have hpages := (spends_list_dir (k := 0) i).high hlist
  exact Returns.bind (k := 0) (look_of_ok hlist) (by dsimp only; omega) (Returns.pure _)

theorem Sound.read_file_job (job : FsJob)
    (hdirs : OnlyDirs σ.fs.blk ROOT_INO (path_parts job.path)) :
    Returns (13 * (path_parts job.path).length
      + (1 + (job.target σ.fs.blk).elim 0 fun i => readPages (inodeAt σ.fs.blk i.toNat)))
          job.read_file σ := by
  refine h.lookup_stat hdirs (fun _ => rfl) (fun _ _ _ => Returns.pure _) ?_
  intro i size σ2 htarget hlive ht
  refine Returns.ite (fun _ => Returns.pure _) ?_
  intro hdir
  have h2 := h.to ht
  have hfile := h.file hlive (fun hd => hdir (decide_eq_true hd))
  obtain ⟨t, hread, -⟩ := read_file_spec σ2.fs h2.covers i
    (h2.inv.target (by rw [ht.blk]; exact hfile))
  have hpages := pages_read_file hread
  rw [htarget, ← ht.blk]
  exact Returns.bind (k := 0) (look_of_ok hread) hpages (Returns.pure _)

theorem Sound.put (job : FsJob) {i : UInt32} {data : List UInt8}
    (hfile : kindAt σ.fs.blk i.toNat = F_FILE)
    (hroom : (slotsFor (blocksFor data.length)).length ≤ freeCount σ.fs.blk) :
    Returns (writePages (blocksFor data.length)) (job.put i data) σ := by
  have hneed : need σ.fs.blk (inodeAt σ.fs.blk i.toNat) (blocksFor data.length)
      ≤ (slotsFor (blocksFor data.length)).length := countP_le_length
  have hblocks : blocksFor data.length ≤ (slotsFor (blocksFor data.length)).length := by
    unfold slotsFor
    rw [length_append, length_map, length_range]
    omega
  have hfree := freeCount_le σ.fs.blk
  obtain ⟨s', hrun, -⟩ := HepFS.write_file_returns σ.fs h.covers i data (h.inv.target hfile)
    (by omega) (by omega)
  have hpages := (spends_write_file (k := 0) i data).high hrun
  obtain ⟨σ', hrun', rfl⟩ := exists_request_ok hrun
  exact Returns.bind (j := writePages (blocksFor data.length)) (k := 0)
    (show Callers.write_file i data σ = _ from hrun') (by omega) (Returns.pure _)

theorem Sound.create {kind : UInt32} {create : UInt32 → String → FsM UInt32}
    (hcreates : Creates kind create) (r : Request) (parent : UInt32) (name : String)
    (hd : kindAt σ.fs.blk parent.toNat = F_DIR) (hlen : (nameBytes name).length ≤ 27)
    (hinode : ∃ i < 1024, kindAt σ.fs.blk i = F_FREE) (hroom : 2 ≤ freeCount σ.fs.blk) :
    ∃ ino σ', request r (create parent name) σ = .ok ino σ' ∧ Sound σ'.fs
      ∧ σ'.fs.pages ≤ σ.fs.pages + (if kind = F_DIR then 107 else 101)
      ∧ kindAt σ'.fs.blk ino.toNat = kind ∧ freeCount σ.fs.blk ≤ freeCount σ'.fs.blk + 2 := by
  obtain ⟨i, hi, hfree⟩ := hinode
  obtain ⟨ino, s', hrun, hb, q, hcreated⟩ :=
    hcreates.returns σ.fs h.covers h.inv parent name hd hlen hi hfree hroom
  have hpages : s'.pages ≤ σ.fs.pages + (if kind = F_DIR then 107 else 101) := by
    cases hcreates with
    | file => exact (spends_create_file (k := 0) parent name).high hrun
    | dir => exact (spends_create_dir (k := 0) parent name).high hrun
  obtain ⟨σ', hrun', rfl⟩ := exists_request_ok hrun
  exact ⟨ino, σ', hrun', ⟨h.covers.of_eq hb.geom, hcreated.inv⟩, hpages, hcreated.kind_new,
    hcreated.count⟩

theorem Sound.write_file_job (job : FsJob) (data : List UInt8) (hop : job.op = .WriteFile data)
    (hdirs : job.OnDirs σ.fs.blk) (hname : job.NameFits σ.fs.blk) {n : ℕ}
    (hroom : job.Room σ.fs.blk n) :
    Returns n (job.write_file data) σ := by
  obtain ⟨hinode, hblocks, hpages⟩ := hroom
  unfold FsJob.OnDirs at hdirs
  unfold FsJob.NameFits FsJob.Makes at hname
  unfold FsJob.blocks at hblocks
  unfold FsJob.pages at hpages
  rw [hop] at hdirs hname hblocks hpages
  dsimp only at hdirs hname hblocks hpages
  refine Returns.lax (h.lookup_stat hdirs.1 (k := 13 * (path_parts job.parent).length + (101
    + writePages (blocksFor data.length))) (fun _ => rfl) ?_ ?_) (by omega)
  · intro σ1 hnone ht
    have h1 := h.to ht
    obtain ⟨hparent, hdir⟩ := hdirs.2 hnone
    obtain ⟨σ2, hlook, ht2, hpages2, -⟩ := h1.lookup job.parent (by rw [ht.blk]; exact hparent)
    have h2 := h1.to ht2
    have hblk2 : σ2.fs.blk = σ.fs.blk := ht2.blk.trans ht.blk
    rw [ht.blk] at hlook
    refine (Returns.bind hlook hpages2 (k := 101 + writePages (blocksFor data.length)) ?_).lax
      (by omega)
    cases hp : resolve σ.fs.blk ROOT_INO (path_parts job.parent) with
    | none => exact Returns.pure _
    | some p =>
      have hlen := hname ⟨hnone, isSome_iff_exists.mpr ⟨p, hp⟩⟩
      obtain ⟨ino, σ3, hcreate, h3, hpages3, hfile, hcount⟩ := h2.create .file _ p job.name
        (by rw [hblk2]; exact hdir p hp) hlen (by rw [hblk2]; exact hinode)
        (by rw [hblk2]; omega)
      rw [hblk2] at hcount
      exact Returns.bind hcreate hpages3 (h3.put job hfile (by omega))
  · intro i size σ2 _ hlive ht
    refine Returns.ite (fun _ => Returns.pure _) ?_
    intro hdir
    have hfile := h.file hlive (fun hd => hdir (decide_eq_true hd))
    exact ((h.to ht).put job (by rw [ht.blk]; exact hfile) (by rw [ht.blk]; omega)).lax (by omega)

theorem Sound.create_job (job : FsJob) (is_dir : Bool) (hop : job.op = .Create is_dir)
    (hdirs : job.OnDirs σ.fs.blk) (hname : job.NameFits σ.fs.blk) {n : ℕ}
    (hroom : job.Room σ.fs.blk n) :
    Returns n (job.create is_dir) σ := by
  obtain ⟨hinode, hblocks, hpages⟩ := hroom
  unfold FsJob.OnDirs at hdirs
  unfold FsJob.NameFits FsJob.Makes at hname
  unfold FsJob.pages at hpages
  rw [hop] at hdirs hname hpages
  obtain ⟨hparent, hdir⟩ := hdirs
  obtain ⟨σ1, hlook, ht, hpages1, -⟩ := h.lookup job.parent hparent
  have h1 := h.to ht
  refine Returns.lax (Returns.bind hlook hpages1 (k := 107) ?_) hpages
  cases hp : resolve σ.fs.blk ROOT_INO (path_parts job.parent) with
  | none => exact Returns.pure _
  | some p =>
    have hlen := hname (isSome_iff_exists.mpr ⟨p, hp⟩)
    have hd : kindAt σ1.fs.blk p.toNat = F_DIR := by rw [ht.blk]; exact hdir p hp
    have hinode1 : ∃ i < 1024, kindAt σ1.fs.blk i = F_FREE := by rw [ht.blk]; exact hinode
    have hroom1 : 2 ≤ freeCount σ1.fs.blk := by rw [ht.blk]; omega
    refine Returns.ite ?_ ?_
    · intro _
      obtain ⟨ino, σ2, hcreate, -, hpages2, -⟩ := h1.create .dir _ p job.name hd hlen hinode1 hroom1
      exact Returns.bind (k := 0) hcreate hpages2 (Returns.pure _)
    · intro _
      obtain ⟨ino, σ2, hcreate, -, hpages2, -⟩ :=
        h1.create .file _ p job.name hd hlen hinode1 hroom1
      exact Returns.bind (k := 6) hcreate hpages2 (Returns.pure _)

theorem Sound.perform (job : FsJob) (hdirs : job.OnDirs σ.fs.blk)
    (hname : job.NameFits σ.fs.blk) {n : ℕ} (hroom : job.Room σ.fs.blk n) :
    Returns n job.perform σ := by
  have hpages := hroom.pages
  unfold FsJob.pages at hpages
  unfold FsJob.perform
  cases hop : job.op with
  | ListDir =>
    unfold FsJob.OnDirs at hdirs
    rw [hop] at hdirs hpages
    exact (h.list_dir_job job hdirs).lax hpages
  | ReadFile =>
    unfold FsJob.OnDirs at hdirs
    rw [hop] at hdirs hpages
    exact (h.read_file_job job hdirs).lax (by dsimp only at hpages; omega)
  | WriteFile data => exact h.write_file_job job data hop hdirs hname hroom
  | Create is_dir => exact h.create_job job is_dir hop hdirs hname hroom

end

/-! ## Sessions with less memory -/

/-- The same session on a machine with room for the pages `l`. -/
def Session.on (l : Option ℕ) (σ : Session) : Session :=
  ⟨σ.fs.on l, σ.requests.map fun x => (x.1.on l, x.2)⟩

/-- The session with `n` pages left. -/
def Session.limit (σ : Session) (n : ℕ) : Session := σ.on (some (σ.fs.pages + n))

abbrev Calm {α : Type} (x : CallM α) : Prop := Steady (fun σ : Session => σ.fs.pages) Session.on x

section

variable {α : Type} {x : FsM α}

theorem Calm.look (hx : Paged x) : Calm (look x) := by
  have hok : ∀ {σ σ' : Session} {a : α}, Callers.look x σ = .ok a σ' → ∃ s, x σ.fs = .ok a s
      ∧ σ' = { σ with fs := s } := by
    intro σ σ' a h
    unfold Callers.look at h
    split at h <;> cases h
    exact ⟨_, by assumption, rfl⟩
  constructor
  · intro σ σ' a h
    obtain ⟨s, hrun, rfl⟩ := hok h
    exact hx.low hrun
  · intro σ σ' a h l hl
    obtain ⟨s, hrun, rfl⟩ := hok h
    exact look_of_ok (σ := σ.on l) (hx.limit hrun l hl)

theorem Calm.request (r : Request) (hx : Paged x) : Calm (request r x) := by
  have hok : ∀ {σ σ' : Session} {a : α}, Callers.request r x σ = .ok a σ' →
      ∃ s, x σ.fs = .ok a s ∧ σ' = ⟨s, σ.requests ++ [(σ.fs, r)]⟩ := by
    intro σ σ' a h
    unfold Callers.request at h
    split at h <;> cases h
    exact ⟨_, by assumption, rfl⟩
  constructor
  · intro σ σ' a h
    obtain ⟨s, hrun, rfl⟩ := hok h
    exact hx.low hrun
  · intro σ σ' a h l hl
    obtain ⟨s, hrun, rfl⟩ := hok h
    refine (request_of_ok (hx.limit hrun l hl)).trans ?_
    simp [Session.on]

theorem calm_lookup (path : String) : Calm (Callers.lookup path) :=
  Calm.request _ (spends_lookup (k := 0) _).toSteady

theorem calm_stat (ino : UInt32) : Calm (look (HepFS.stat ino)) :=
  Calm.look ((spends_read_inode (k := 0) _).toSteady.map _)

theorem calm_put (job : FsJob) (ino : UInt32) (data : List UInt8) : Calm (job.put ino data) :=
  (Calm.request _ (spends_write_file (k := 0) _ _).toSteady).map _

theorem calm_create_file (parent : UInt32) (name : String) :
    Calm (Callers.create_file parent name) :=
  Calm.request _ (spends_create_file (k := 0) _ _).toSteady

theorem calm_perform (job : FsJob) : Calm job.perform := by
  unfold FsJob.perform
  cases job.op with
  | ListDir =>
    refine (calm_lookup _).bind fun r => ?_
    cases r with
    | none => exact Steady.pure _
    | some i =>
      refine (calm_stat i).bind fun r => Steady.ite ?_ (Steady.pure _)
      exact (Calm.look (spends_list_dir (k := 0) i).toSteady).map _
  | ReadFile =>
    refine (calm_lookup _).bind fun r => ?_
    cases r with
    | none => exact Steady.pure _
    | some i =>
      refine (calm_stat i).bind fun r => Steady.ite (Steady.pure _) ?_
      exact (Calm.look (paged_read_file i)).map _
  | WriteFile data =>
    refine (calm_lookup _).bind fun r => ?_
    cases r with
    | some i => exact (calm_stat i).bind fun r => Steady.ite (Steady.pure _) (calm_put _ _ _)
    | none =>
      refine (calm_lookup _).bind fun r => ?_
      cases r with
      | none => exact Steady.pure _
      | some p => exact (calm_create_file _ _).bind fun ino => calm_put _ _ _
  | Create is_dir =>
    refine (calm_lookup _).bind fun r => ?_
    cases r with
    | none => exact Steady.pure _
    | some p =>
      refine Steady.ite ?_ ((calm_create_file _ _).map _)
      exact (Calm.request _ (spends_create_dir (k := 0) _ _).toSteady).map _

end

/-- A job not yet done is finished exactly if its `match` returns. -/
theorem finishes_iff {σ : Session} (hnew : job.done = false) :
    job.Finishes σ ↔ ∃ job' σ', job.perform σ = .ok job' σ' := by
  unfold FsJob.Finishes fs_service
  rw [if_neg (by rw [hnew]; decide)]
  constructor
  · rintro ⟨job', σ', hrun, -⟩
    obtain ⟨job1, σ1, hperform, -⟩ := exists_of_bind_ok hrun
    exact ⟨job1, σ1, hperform⟩
  · rintro ⟨job1, σ1, hperform⟩
    refine ⟨{ job1 with done := true }, σ1, ?_, rfl⟩
    rw [bind_of_ok hperform]
    rfl

theorem exists_formatted_job (op : FsOp) (path : String) : ∃ s, format unformatted = .ok () s
    ∧ FromFormat ⟨s, []⟩ ∧ kindAt s.blk 0 = F_DIR
    ∧ ((FsJob.new op path).blocks ≤ 100 →
      (FsJob.new op path).Room s.blk ((FsJob.new op path).pages s.blk)) := by
  obtain ⟨s, hformat, -, hview, hcount⟩ := exists_formatted
  have hkind := kindAt_of_root hview
  refine ⟨s, hformat, ⟨unformatted, s, [], unformatted_covers, hformat, .done _⟩, hkind 0, ?_⟩
  intro hblocks
  exact ⟨⟨1, by decide, hkind 1⟩, by omega, le_rfl⟩

end HepOS.Callers
