/-
Paths, names and `lookup`.

A path is split at `/` and its empty parts are dropped, so an entry can be named by a path
only if its name is not empty and has no `/` in it, and `find_in_dir` takes the first entry
with the name, so a second one of the same name cannot be named at all. `GoodNames` is the
condition under which every entry has a path. Neither `create_file` nor `create_dir` makes
sure of it: the name is stored as it comes, after no more than a look at its length.

`find_in_dir` does not look at the type of what it searches either. `SearchesDirs` says
that the walk of a path searches directories only; then its result is determined by
directory entries.
-/
import HepOS.HepFS.Reach

set_option autoImplicit false

namespace HepOS.HepFS

open Bytes Hoare Ledger Trace List

variable {name path : String} {d i : ℕ} {q : ℕ × ℕ} {s : Fs} {w : View}

/-! ## Paths -/

/-- A name that is one part of a path. -/
def FitName (name : String) : Prop := name ≠ "" ∧ '/' ∉ name.toList

instance (name : String) : Decidable (FitName name) := inferInstanceAs (Decidable (_ ∧ _))

/-- Appending a fit name to a path appends it to the parts. -/
theorem path_parts_append (path : String) (h : FitName name) :
    path_parts (path ++ "/" ++ name) = path_parts path ++ [name] := by
  obtain ⟨hne, hslash⟩ := h
  have hnil : name.toList ≠ [] := by
    intro hnil
    apply hne
    rw [← String.ofList_toList (s := name), hnil]
  have hlist : (path ++ "/" ++ name).toList = path.toList ++ '/' :: name.toList := by
    simp
  unfold path_parts
  rw [hlist, splitOn_append_cons_self, splitOn_eq_singleton hslash, filter_append,
    map_append, filter_cons_of_pos (by simpa using hnil)]
  simp

theorem not_mem_of_mem_splitOn {sep : Char} {cs : List Char} :
    ∀ part ∈ cs.splitOn sep, sep ∉ part := by
  induction cs with
  | nil => simp
  | cons c rest ih =>
    rw [splitOn_cons_eq_if_modifyHead]
    by_cases hsep : c = sep
    · simpa [hsep] using ih
    · rw [if_neg (by simpa using hsep)]
      cases hsplit : rest.splitOn sep with
      | nil => exact absurd hsplit (splitOn_ne_nil _ _)
      | cons first others =>
        rw [hsplit, forall_mem_cons] at ih
        rw [modifyHead_cons, forall_mem_cons, mem_cons, not_or]
        exact ⟨⟨Ne.symm hsep, ih.1⟩, ih.2⟩

/-- Nothing but a fit name is a part of a path. -/
theorem fitName_of_mem_path_parts {part : String} (h : part ∈ path_parts path) : FitName part := by
  obtain ⟨l, hl, rfl⟩ := mem_map.mp h
  rw [mem_filter, decide_eq_true_eq] at hl
  refine ⟨fun hempty => hl.2 ?_, ?_⟩
  · rw [← String.toList_ofList (l := l), hempty]
    rfl
  · rw [String.toList_ofList]
    exact not_mem_of_mem_splitOn l hl.1

/-- The entries named by the parts lead from one inode to another. -/
inductive View.Leads (v : View) : ℕ → List String → ℕ → Prop
  | here (d : ℕ) : Leads v d [] d
  | entry {d i j : ℕ} {q : ℕ × ℕ} {name : String} {rest : List String} (hd : v.flags d = F_DIR)
      (he : v.entry d q = some (i, name)) (hrest : Leads v i rest j) : Leads v d (name :: rest) j

theorem View.Leads.snoc {v : View} {j : ℕ} {parts : List String}
    (h : v.Leads d parts i) (hi : v.flags i = F_DIR) (he : v.entry i q = some (j, name)) :
    v.Leads d (parts ++ [name]) j := by
  induction h with
  | here d => exact .entry hi he (.here j)
  | entry hd he' _ ih => exact .entry hd he' (ih hi he)

/-! ## Good names -/

/-- No two entries of a directory have the same name. -/
def View.UniqueNames (v : View) : Prop :=
  ∀ d q q' i i' name, v.entry d q = some (i, name) → v.entry d q' = some (i', name) → q = q'

/-- Every entry has a fit name that no other entry of its directory has. -/
structure View.GoodNames (v : View) : Prop where
  fit : ∀ d q i name, v.entry d q = some (i, name) → FitName name
  unique : v.UniqueNames

/-- With unique names `lookup` follows the entries. -/
theorem lookup_from_of_leads (hc : s.geom.covers) (I : Inv s.blk)
    (hnames : (view s.blk).UniqueNames) {j : ℕ} {parts : List String}
    (h : (view s.blk).Leads d parts j) :
    ∀ {dir ino : UInt32} {t : Fs}, dir.toNat = d → ino.toNat = j → s.To t s.blk →
    ∃ t', lookup_from dir parts t = .ok (some ino) t' ∧ s.To t' s.blk := by
  induction h with
  | here d =>
    intro dir ino t hdir hino ht
    have hsame : dir = ino := UInt32.toNat_inj.mp (hdir.trans hino.symm)
    exact ⟨t, by rw [hsame]; rfl, ht⟩
  | entry hd he _ ih =>
    rename_i d i j q name rest _
    intro dir ino t hdir hino ht
    have hct := hc.of_eq ht.geom
    have It : Inv t.blk := by rw [ht.blk]; exact I
    obtain ⟨r, t1, hfind, ht1, hres⟩ := find_entry_spec t hct It dir name
      (by rw [ht.blk, hdir]; exact hd)
    rw [ht.blk, hdir] at hres
    rw [ht.blk] at ht1
    unfold lookup_from
    rw [bind_of_ok hfind]
    -- the entry that is found is the one on the way
    cases r with
    | none => exact absurd he (hres q i)
    | some found =>
      obtain ⟨-, q', he'⟩ := hres
      obtain rfl := hnames d q q' _ _ name he he'
      have hi : found.toNat = i := by
        rw [he, Option.some.injEq, Prod.mk.injEq] at he'
        exact he'.1.symm
      exact ih hi hino (ht.trans ht1)

theorem lookup_of_leads (hc : s.geom.covers) (I : Inv s.blk) (hnames : (view s.blk).UniqueNames)
    {ino : UInt32} (h : (view s.blk).Leads 0 (path_parts path) ino.toNat) :
    ∃ t, lookup path s = .ok (some ino) t ∧ s.To t s.blk :=
  lookup_from_of_leads hc I hnames h rfl rfl (Fs.To.rfl s)

/-! ## Good names along a run -/

/-- The condition on the name an act brings into a directory. -/
def Act.NameFits (v : View) : Act → Prop
  | .create _ _ d _ name => FitName name ∧ v.Unnamed d name
  | .rename _ _ _ name => FitName name
  | _ => True

section

variable {v : View}

/-- Writing an entry into a directory that has no other of this name. -/
theorem View.UniqueNames.setEntry (h : v.UniqueNames)
    (hnew : ∀ t j, t ≠ q → v.entry d t ≠ some (j, name)) :
    (v.setEntry d q (some (i, name))).UniqueNames := by
  intro d1 q1 q2 i1 i2 n h1 h2
  rw [View.entry_setEntry] at h1 h2
  by_cases hc1 : d1 = d ∧ q1 = q
  · by_cases hc2 : d1 = d ∧ q2 = q
    · rw [hc1.2, hc2.2]
    · rw [if_pos hc1, Option.some.injEq, Prod.mk.injEq] at h1
      rw [if_neg hc2, ← h1.2, hc1.1] at h2
      exact absurd h2 (hnew q2 i2 (fun hq => hc2 ⟨hc1.1, hq⟩))
  · rw [if_neg hc1] at h1
    by_cases hc2 : d1 = d ∧ q2 = q
    · rw [if_pos hc2, Option.some.injEq, Prod.mk.injEq] at h2
      rw [← h2.2, hc2.1] at h1
      exact absurd h1 (hnew q1 i1 (fun hq => hc1 ⟨hc2.1, hq⟩))
    · rw [if_neg hc2] at h2
      exact h _ _ _ _ _ _ h1 h2

/-- Writing an entry with a fit name into a directory that has no other of this name. -/
theorem View.GoodNames.setEntry (h : v.GoodNames)
    (hfit : FitName name) (hnew : ∀ t j, t ≠ q → v.entry d t ≠ some (j, name)) :
    (v.setEntry d q (some (i, name))).GoodNames := by
  refine ⟨?_, h.unique.setEntry hnew⟩
  intro d1 q1 i1 n h1
  rw [View.entry_setEntry] at h1
  by_cases hc : d1 = d ∧ q1 = q
  · rw [if_pos hc, Option.some.injEq, Prod.mk.injEq] at h1
    rw [← h1.2]
    exact hfit
  · rw [if_neg hc] at h1
    exact h.fit _ _ _ _ h1

theorem View.entry_of_clearEntry {d1 : ℕ} {q1 : ℕ × ℕ} {x : ℕ × String}
    (h : (v.setEntry d q none).entry d1 q1 = some x) : v.entry d1 q1 = some x := by
  rw [View.entry_setEntry] at h
  by_cases hc : d1 = d ∧ q1 = q
  · rw [if_pos hc] at h
    simp at h
  · rwa [if_neg hc] at h

theorem View.UniqueNames.clearEntry (h : v.UniqueNames) (d : ℕ) (q : ℕ × ℕ) :
    (v.setEntry d q none).UniqueNames :=
  fun _ _ _ _ _ _ h1 h2 => h _ _ _ _ _ _ (View.entry_of_clearEntry h1) (View.entry_of_clearEntry h2)

theorem View.GoodNames.clearEntry (h : v.GoodNames) (d : ℕ) (q : ℕ × ℕ) :
    (v.setEntry d q none).GoodNames :=
  ⟨fun _ _ _ _ h1 => h.fit _ _ _ _ (View.entry_of_clearEntry h1), h.unique.clearEntry d q⟩

theorem View.GoodNames.congr (h : v.GoodNames) (he : w.entry = v.entry) : w.GoodNames := by
  refine ⟨?_, ?_⟩
  · rw [he]
    exact h.fit
  · rw [View.UniqueNames, he]
    exact h.unique

/-- **An act whose name fits keeps the names good.** -/
theorem View.Step.goodNames {a : Act} (h : v.Step a w) (hv : v.GoodNames)
    (hfits : a.NameFits v) : w.GoodNames := by
  obtain ⟨hallows, rfl⟩ := h
  cases a with
  | create i kind d q name =>
    have hflags : (v.setFlags i kind).GoodNames := hv.congr rfl
    exact hflags.setEntry hfits.1 (fun t j _ => hfits.2 t j)
  | write i data => exact hv.congr rfl
  | remove i d q =>
    have hfreed : View.GoodNames { v.setFlags i F_FREE with
        bytes := Function.update v.bytes i [] } := hv.congr rfl
    exact hfreed.clearEntry d q
  | rename i d q name =>
    obtain ⟨-, -, -, hnew, -⟩ := hallows
    exact hv.setEntry hfits (fun t j _ => hnew t j)
  | move i d q d' q' name =>
    obtain ⟨-, -, hentry, -, hne, -, hnew⟩ := hallows
    refine (hv.clearEntry d q).setEntry (hv.fit _ _ _ _ hentry) ?_
    intro t j _ ht
    rw [View.entry_setEntry_ne _ _ (fun hc => hne hc.1.symm)] at ht
    exact hnew t j ht

end

/-- The condition on a call: a new name is one part of a path and is not taken. -/
def Op.NamesFit (v : View) : Op → Prop
  | .create_file parent name => FitName name ∧ v.Unnamed parent.toNat name
  | .create_dir parent name => FitName name ∧ v.Unnamed parent.toNat name
  | .rename _ _ new_name => FitName new_name
  | .copy_entry _ _ _ _ dest_name => FitName dest_name
  | _ => True

theorem Op.Effect.goodNames {op : Op} {v : View} (h : op.Effect v w) (hv : v.GoodNames)
    (hfits : op.NamesFit v) : w.GoodNames := by
  refine h.keeps hv ?_
  intro u a x hu hstep hdoes
  apply hstep.goodNames hu
  cases op with
  | create_file parent name | create_dir parent name =>
    obtain ⟨rfl, i, q, rfl⟩ := hdoes
    exact hfits
  | write_file ino data =>
    obtain ⟨-, rfl⟩ := hdoes
    exact trivial
  | remove parent_ino name =>
    obtain ⟨-, i, q, -, rfl⟩ := hdoes
    exact trivial
  | rename parent_ino old_name new_name =>
    obtain ⟨-, i, q, -, rfl⟩ := hdoes
    exact hfits
  | move_entry from_parent to_parent name =>
    obtain ⟨-, i, q, q', rfl⟩ := hdoes
    exact trivial
  | copy_entry frames from_parent to_parent name dest_name =>
    -- a copy takes its names from entries, or is given one
    cases a with
    | create i kind d q new_name =>
      obtain ⟨hnew, d', q', j, src, hsrc, rfl | ⟨-, rfl⟩⟩ := hdoes
      · exact ⟨hu.fit _ _ _ _ hsrc, hnew⟩
      · exact ⟨hfits, hnew⟩
    | write i data | remove i d q | move i d q d' q' new_name => exact trivial
    | rename i d q new_name => exact absurd hdoes id

theorem View.goodNames_root : View.root.GoodNames := by
  refine ⟨?_, ?_⟩
  · intro d q i name h
    exact absurd h (by simp [View.root])
  · intro d q q' i i' name h
    exact absurd h (by simp [View.root])

/-- **Listing and lookup agree** where names are good. -/
theorem lookup_of_listed (hc : s.geom.covers) (I : Inv s.blk) (hnames : (view s.blk).GoodNames)
    {d ino : UInt32} {entries : List (UInt32 × String)} {t : Fs}
    (hpath : (view s.blk).Leads 0 (path_parts path) d.toNat)
    (hlist : list_dir d s = .ok entries t) (hd : kindAt s.blk d.toNat = F_DIR)
    (hmem : (ino, name) ∈ entries) :
    ∃ t', lookup (path ++ "/" ++ name) s = .ok (some ino) t' := by
  obtain ⟨t0, hlist', -⟩ := list_dir_spec s hc I.acc d hd
  obtain ⟨rfl, -⟩ := EStateM.Result.ok.inj (hlist.symm.trans hlist')
  obtain ⟨q, hentry⟩ := (mem_listing hd).mp hmem
  have hleads : (view s.blk).Leads 0 (path_parts (path ++ "/" ++ name)) ino.toNat := by
    rw [path_parts_append path (hnames.fit _ _ _ _ hentry)]
    exact hpath.snoc hd hentry
  obtain ⟨t', hlookup, -⟩ := lookup_of_leads hc I hnames.unique hleads
  exact ⟨t', hlookup⟩

/-! ## Searching directories only -/

/-- Following the parts of a path from `d`, every inode that is searched is a directory. -/
def View.SearchesDirs (v : View) : ℕ → List String → Prop
  | _, [] => True
  | d, name :: rest => v.flags d = F_DIR
      ∧ ∀ q i, v.entry d q = some (i, name) → v.SearchesDirs i rest

/-- The result of a walk, explained by directory entries. -/
inductive View.Resolves (v : View) : UInt32 → List String → Option UInt32 → Prop
  | here (d : UInt32) : Resolves v d [] (some d)
  | missing {d : UInt32} {name : String} {rest : List String} (hd : v.flags d.toNat = F_DIR)
      (h : v.Unnamed d.toNat name) : Resolves v d (name :: rest) none
  | entry {d i : UInt32} {q : ℕ × ℕ} {name : String} {rest : List String} {r : Option UInt32}
      (hd : v.flags d.toNat = F_DIR) (he : v.entry d.toNat q = some (i.toNat, name))
      (hrest : Resolves v i rest r) : Resolves v d (name :: rest) r

theorem lookup_from_spec (hc : s.geom.covers) (I : Inv s.blk) (parts : List String) :
    ∀ (dir : UInt32) (t : Fs), s.To t s.blk → (view s.blk).SearchesDirs dir.toNat parts →
    ∃ r t', lookup_from dir parts t = .ok r t' ∧ s.To t' s.blk
      ∧ (view s.blk).Resolves dir parts r := by
  induction parts with
  | nil =>
    intro dir t ht _
    exact ⟨some dir, t, rfl, ht, .here dir⟩
  | cons name rest ih =>
    rintro dir t ht ⟨hd, hrest⟩
    have hct := hc.of_eq ht.geom
    have It : Inv t.blk := by rw [ht.blk]; exact I
    obtain ⟨r, t1, hfind, ht1, hres⟩ := find_entry_spec t hct It dir name
      (by rw [ht.blk]; exact hd)
    rw [ht.blk] at hres ht1
    unfold lookup_from
    rw [bind_of_ok hfind]
    cases r with
    | none => exact ⟨none, t1, rfl, ht.trans ht1, .missing hd hres⟩
    | some ino =>
      obtain ⟨-, q, hentry⟩ := hres
      obtain ⟨r, t', hrun, ht', hresolves⟩ :=
        ih ino t1 (ht.trans ht1) (hrest q _ hentry)
      exact ⟨r, t', hrun, ht', .entry hd hentry hresolves⟩

/-- **`lookup` of a path that searches directories only.** -/
theorem lookup_spec (hc : s.geom.covers) (I : Inv s.blk) (path : String)
    (h : (view s.blk).SearchesDirs 0 (path_parts path)) :
    ∃ r t, lookup path s = .ok r t ∧ s.To t s.blk
      ∧ (view s.blk).Resolves ROOT_INO (path_parts path) r :=
  lookup_from_spec hc I (path_parts path) ROOT_INO s (Fs.To.rfl s) h

end HepOS.HepFS
