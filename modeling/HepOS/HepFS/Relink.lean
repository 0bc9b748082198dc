/-
What `rename` and `move_entry` change, and what they leave.

Both rewrite one entry: `rename` in place, `move_entry` by clearing it and storing it in the
other directory. Everything else is as before, the listings of the other directories and all
contents, because no other inode owns a block that is written. A call that returns `false`
has not written a block.

That the entry is then found under its new path takes a name that is one part of a path.
`rename` looks at the length of the new name only; after a rename to `x/y` the entry is
listed, but no path names it.
-/
import HepOS.HepFS.Frame
import HepOS.HepFS.Lookup
import HepOS.HepFS.Tree

set_option autoImplicit false

namespace HepOS.HepFS

open Bytes Hoare Ledger Trace Chains List

variable {q : ℕ × ℕ} {ino : UInt32}

/-! ## Paths that do not use an entry -/

/-- No entry of the view is one for inode 0. -/
theorem view_entry_ne_zero {D : Disk} {d i : ℕ} {name : String}
    (h : (view D).entry d q = some (i, name)) : i ≠ 0 := by
  obtain ⟨-, -, hne, hi, -⟩ := view_entry_some.mp h
  rw [← hi]
  exact toNat_ne_zero.mpr hne

section

variable {D : Disk} {w : View} {d i j : ℕ} {parts : List String}

theorem leads_below (h : (view D).Leads d parts j) : Below (view D).Link d j := by
  induction h with
  | here d => exact .refl
  | entry hd he _ ih => exact .head ⟨_, hd, view_entry_ne_zero he, _, he⟩ ih

/-- A path to an inode that is not below `i` does not use the entry of `i`. -/
theorem leads_avoids (h : (view D).Leads d parts j) (hj : ¬ Below (view D).Link i j)
    (hflags : w.flags = (view D).flags)
    (hkeep : ∀ a q y name, (view D).entry a q = some (y, name) → y ≠ i →
      w.entry a q = some (y, name)) :
    w.Leads d parts j := by
  induction h with
  | here d => exact .here d
  | entry hd he hrest ih =>
    refine .entry (by rw [hflags]; exact hd) (hkeep _ _ _ _ he ?_) (ih hj)
    rintro rfl
    exact hj (leads_below hrest)

theorem View.Leads.last {v : View} (h : v.Leads d parts j) :
    j = d ∨ ∃ name ∈ parts, ∃ x q, v.flags x = F_DIR ∧ v.entry x q = some (j, name) := by
  induction h with
  | here d => exact .inl rfl
  | entry hd he hrest ih =>
    refine .inr ?_
    rcases ih with rfl | ⟨name, hmem, hlast⟩
    · exact ⟨_, mem_cons_self, _, _, hd, he⟩
    · exact ⟨name, mem_cons_of_mem _ hmem, hlast⟩

theorem View.Resolves.leads {v : View} {dir : UInt32} {r : Option UInt32}
    (h : v.Resolves dir parts r) (hr : r = some ino) : v.Leads dir.toNat parts ino.toNat := by
  induction h with
  | here d =>
    cases hr
    exact .here _
  | missing hd h => simp at hr
  | entry hd he _ ih => exact .entry hd he (ih hr)

end

/-! ## Looking up the new path -/

/-- `lookup` of the path returns the inode. -/
def LookupGives (s : Fs) (path : String) (ino : UInt32) : Prop :=
  ∃ t, lookup path s = .ok (some ino) t

section

variable {s : Fs} (hc : s.geom.covers) (I : Inv s.blk) {d : ℕ} {q : ℕ × ℕ} {ino : UInt32}
  {name path : String} (he : (view s.blk).entry d q = some (ino.toNat, name))

include hc I he in
theorem lookupGives_of_fit (hnames : (view s.blk).UniqueNames)
    (hpath : (view s.blk).Leads 0 (path_parts path) d) (hfit : FitName name) :
    LookupGives s (path ++ "/" ++ name) ino := by
  have hleads : (view s.blk).Leads 0 (path_parts (path ++ "/" ++ name)) ino.toNat := by
    rw [path_parts_append path hfit]
    exact hpath.snoc (view_entry_some.mp he).1 he
  obtain ⟨t, hrun, -⟩ := lookup_of_leads hc I hnames hleads
  exact ⟨t, hrun⟩

include hc I he in
/-- An inode has one entry. Unless its name is one part of a path, no path leads to it. -/
theorem not_lookupGives (hfit : ¬ FitName name)
    (hdirs : (view s.blk).SearchesDirs 0 (path_parts path)) : ¬ LookupGives s path ino := by
  rintro ⟨t, hrun⟩
  obtain ⟨r, t', hrun', -, hres⟩ := lookup_spec hc I path hdirs
  obtain ⟨rfl, -⟩ := EStateM.Result.ok.inj (hrun'.symm.trans hrun)
  have hne := view_entry_ne_zero he
  rcases (hres.leads rfl).last with hzero | ⟨name', hmem, x, q', hx, he'⟩
  · exact hne hzero
  · obtain ⟨rfl, rfl⟩ := I.linked.link_inj ⟨hx, hne, name', he'⟩
      ⟨(view_entry_some.mp he).1, hne, name, he⟩
    rw [he, Option.some.injEq, Prod.mk.injEq] at he'
    rw [he'.2] at hfit
    exact hfit (fitName_of_mem_path_parts hmem)

end

/-- In `s'` the inode is found under the name in the directory, whatever path leads to the
directory, if the name is one part of a path. Otherwise it is not, along all paths that do
not take a file for a directory. -/
def FoundIfFit (s s' : Fs) (dir : UInt32) (name : String) (ino : UInt32) : Prop :=
  ∀ path, (view s.blk).Leads 0 (path_parts path) dir.toNat →
    (FitName name → LookupGives s' (path ++ "/" ++ name) ino)
      ∧ (¬ FitName name → (view s'.blk).SearchesDirs 0 (path_parts (path ++ "/" ++ name)) →
        ¬ LookupGives s' (path ++ "/" ++ name) ino)

/-! ## `rename` -/

/-- Everything but the listings of the directories `changed` is as before. -/
structure SameElsewhere (s s' : Fs) (changed : UInt32 → Prop) : Prop where
  kinds : ∀ i, kindAt s'.blk i = kindAt s.blk i
  listings : ∀ d, kindAt s.blk d.toNat = F_DIR → ¬ changed d → ∀ entries, Lists s d entries →
    Lists s' d entries
  contents : ∀ f, kindAt s.blk f.toNat = F_FILE → ∀ data, Reads s f data → Reads s' f data

theorem Kept.sameElsewhere {s s' : Fs} {touched : ℕ → Prop} (h : Kept s.blk s'.blk touched)
    (hc : s.geom.covers) (hc' : s'.geom.covers) (I : Inv s.blk) (I' : Inv s'.blk)
    (hflags : (view s'.blk).flags = (view s.blk).flags)
    (hdirs : ∀ i, touched i → HepFS.kindAt s.blk i = F_DIR) :
    SameElsewhere s s' (fun d => touched d.toNat) := by
  refine ⟨fun i => ?_, fun d hd ht entries => h.lists hc hc' I.acc I'.acc hd ht,
    fun f hf data => ?_⟩
  · rw [← view_flags, hflags, view_flags]
  · refine h.reads hc hc' I I' hf (fun ht => ?_)
    rw [hdirs _ ht] at hf
    exact absurd hf (by decide)

/-- The entry of the inode `ino` in the directory has another name, at the same position, and
nothing else is different. -/
structure Renamed (s s' : Fs) (parent_ino : UInt32) (old_name new_name : String)
    (ino : UInt32) : Prop where
  listing : ∃ before after, Lists s parent_ino (before ++ (ino, old_name) :: after)
    ∧ Lists s' parent_ino (before ++ (ino, new_name) :: after)
  elsewhere : SameElsewhere s s' (· = parent_ino)

section

variable {s s' : Fs} (hc : s.geom.covers) (hc' : s'.geom.covers) (I : Inv s.blk)

include hc hc' I in
theorem renamed_of_putEntry {d : UInt32} {old_name new_name : String}
    (hd : kindAt s.blk d.toNat = F_DIR) (hq : q ∈ places (inodeAt s.blk d.toNat))
    (hnamed : (entryAt s.blk q).named old_name = true) (hlen : (nameBytes new_name).length ≤ 27)
    (hblk : s'.blk = putEntry s.blk q (DirEntry.mk_named (entryAt s.blk q).inode new_name))
    (I' : Inv s'.blk) : Renamed s s' d old_name new_name (entryAt s.blk q).inode := by
  have hlive := live_of_dir hd
  obtain ⟨hne0, hentry⟩ := entry_of_named hd hq hnamed
  have hold : listedAt s.blk q = some ((entryAt s.blk q).inode, old_name) := by
    rw [listedAt, if_pos hne0, (view_entry_some.mp hentry).2.2.2.2]
  have hsame : entryAt s'.blk q = DirEntry.mk_named (entryAt s.blk q).inode new_name := by
    rw [hblk]
    exact entryAt_putEntry_same _ ((mem_places (D := s.blk)).mp hq).1 _
  have hnew : listedAt s'.blk q = some ((entryAt s.blk q).inode, new_name) := by
    rw [listedAt, hsame, DirEntry.inode_mk_named, if_pos hne0, DirEntry.name_str_mk_named _ _ hlen]
  have hflags : (view s'.blk).flags = (view s.blk).flags := by
    rw [hblk, view_putEntry I.acc hd hq]
    rfl
  have hd' : kindAt s'.blk d.toNat = F_DIR := by
    rw [← view_flags, hflags]
    exact hd
  constructor
  · obtain ⟨before, after, hl, hl'⟩ := listing_putEntry I.acc hlive hq
      (DirEntry.mk_named (entryAt s.blk q).inode new_name)
    rw [← hblk, hnew] at hl'
    rw [hold] at hl
    refine ⟨before, after, (lists_iff hc I.acc hd _).mpr ?_, (lists_iff hc' I'.acc hd' _).mpr ?_⟩
    · rw [hl]
      simp
    · rw [hl']
      simp
  · have hkept : Kept s.blk s'.blk (· = d.toNat) := by
      rw [hblk]
      exact kept_putEntry I.acc hlive hq _
    have helse := hkept.sameElsewhere hc hc' I I' hflags (by rintro i rfl; exact hd)
    exact ⟨helse.kinds, fun x hx hxd => helse.listings x hx
      (fun hn => hxd (UInt32.toNat_inj.mp hn)), helse.contents⟩

include I in
/-- The new name is found under every path to the directory. -/
theorem foundIfFit_of_rename {d : UInt32} {old_name new_name : String}
    (hc' : s'.geom.covers) (hnames : (view s.blk).UniqueNames)
    (hd : kindAt s.blk d.toNat = F_DIR)
    (hentry : (view s.blk).entry d.toNat q = some (ino.toNat, old_name))
    (hnew : (view s.blk).Unnamed d.toNat new_name) (I' : Inv s'.blk)
    (hview : view s'.blk = (view s.blk).setEntry d.toNat q (some (ino.toNat, new_name))) :
    FoundIfFit s s' d new_name ino := by
  have hentry' : (view s'.blk).entry d.toNat q = some (ino.toNat, new_name) := by
    rw [hview]
    exact View.entry_setEntry_same _ _ _ _
  have hne := view_entry_ne_zero hentry
  intro path hpath
  refine ⟨fun hfit => ?_, fun hfit => not_lookupGives hc' I' hentry' hfit⟩
  -- the directory is on no path below the entry that changes its name
  have hout : ¬ Below (view s.blk).Link ino.toNat d.toNat := by
    have hroot : Chain (view s.blk).Link 0 [] 0 := .root
    obtain ⟨l, hchain⟩ := hroot.extend (leads_below hpath)
    exact hchain.not_below (fun _ _ _ _ _ h1 h2 => I.linked.link_inj h1 h2)
      (fun _ _ h0 => h0.2.1 rfl)
      ⟨hd, hne, old_name, hentry⟩
  refine lookupGives_of_fit hc' I' hentry' ?_ ?_ hfit
  · rw [hview]
    exact hnames.setEntry (fun t j _ => hnew t j)
  · refine leads_avoids hpath hout (by rw [hview]; rfl) ?_
    intro a t y name ht hy
    rw [hview, View.entry_setEntry_ne]
    · exact ht
    · rintro ⟨rfl, rfl⟩
      rw [hentry, Option.some.injEq, Prod.mk.injEq] at ht
      exact hy ht.1.symm

end

/-! ## `move_entry` -/

/-- There is an empty place in the directory or a block for another one. -/
def HasRoom (D : Disk) (d : ℕ) : Prop := NoPlace D (inodeAt D d) → 1 ≤ freeCount D

/-- The entry of the inode `ino` stands in the other directory, and nothing else is different. -/
structure Moved (s s' : Fs) (from_parent to_parent : UInt32) (name : String)
    (ino : UInt32) : Prop where
  source : ∃ before after, Lists s from_parent (before ++ (ino, name) :: after)
    ∧ Lists s' from_parent (before ++ after)
  target : ∃ entries entries', Lists s to_parent entries ∧ Lists s' to_parent entries'
    ∧ entries'.Perm ((ino, name) :: entries)
  elsewhere : SameElsewhere s s' (fun d => d = from_parent ∨ d = to_parent)

section

variable {s s' : Fs} (hc : s.geom.covers) (hc' : s'.geom.covers) (I : Inv s.blk)
  {d d' : UInt32} {q q' : ℕ × ℕ} {name : String} (hd : kindAt s.blk d.toNat = F_DIR)
  (hd' : kindAt s.blk d'.toNat = F_DIR) (hdd : d.toNat ≠ d'.toNat)

include hc hc' I hd hd' hdd in
theorem moved_of_stores {e : DirEntry} (hq : q ∈ places (inodeAt s.blk d.toNat))
    (hnamed : (entryAt s.blk q).named name = true) (I' : Inv s'.blk)
    (hstores : Stores (putEntry s.blk q default) d'.toNat q' e s'.blk) (hview : view s'.blk
      = (view s.blk).move (entryAt s.blk q).inode.toNat d.toNat q d'.toNat q' name) :
    Moved s s' d d' name (entryAt s.blk q).inode := by
  have hlive := live_of_dir hd
  obtain ⟨hne0, hentry⟩ := entry_of_named hd hq hnamed
  have hflags : (view s'.blk).flags = (view s.blk).flags := by
    rw [hview]
    rfl
  have hdir : ∀ {x : UInt32}, kindAt s.blk x.toNat = F_DIR → kindAt s'.blk x.toNat = F_DIR := by
    intro x hx
    rw [← view_flags, hflags]
    exact hx
  have hclear := kept_putEntry I.acc hlive hq default
  have hadd := hstores.toAdded.kept
  have hkept : Kept s.blk s'.blk (fun i => i = d.toNat ∨ i = d'.toNat) :=
    (hclear.mono (fun _ _ h => .inl h)).trans (hadd.mono (fun _ _ h => .inr h))
  refine ⟨?_, ?_, ?_⟩
  · -- the old directory lists the same without the entry
    obtain ⟨before, after, hl, hl'⟩ := listing_putEntry I.acc hlive hq default
    rw [listedAt, if_pos hne0, (view_entry_some.mp hentry).2.2.2.2] at hl
    have hempty : listedAt (putEntry s.blk q default) q = none := by
      rw [listedAt, entryAt_putEntry_same _ ((mem_places (D := s.blk)).mp hq).1]
      exact if_neg (fun h => h rfl)
    rw [hempty] at hl'
    have hliveq : Live (inodeAt (putEntry s.blk q default)) d.toNat := by
      refine ⟨hlive.1, ?_⟩
      rw [inodeAt_putEntry I.acc hlive hq hlive.1]
      exact hlive.2
    refine ⟨before, after, (lists_iff hc I.acc hd _).mpr ?_,
      (lists_iff hc' I'.acc (hdir hd) _).mpr ?_⟩
    · rw [hl]
      simp
    · rw [hadd.listing hliveq hdd, hl']
      simp
  · -- the new one lists one entry more, somewhere
    refine ⟨listing s.blk (inodeAt s.blk d'.toNat), _, (lists_iff hc I.acc hd' _).mpr rfl,
      (lists_iff hc' I'.acc (hdir hd') _).mpr rfl, I'.listing_perm (hdir hd') ?_ ?_⟩
    · -- the moved inode was not listed in the other directory
      rw [map_cons, nodup_cons]
      refine ⟨fun hmem => ?_, I.nodup_listing hd'⟩
      obtain ⟨⟨j, n⟩, hlisted, hj⟩ := mem_map.mp hmem
      obtain rfl : j = (entryAt s.blk q).inode := hj
      obtain ⟨t, ht⟩ := (mem_listing hd').mp hlisted
      exact hdd (I.linked.link_inj ⟨hd, view_entry_ne_zero hentry, name, hentry⟩
        ⟨hd', view_entry_ne_zero ht, n, ht⟩).1
    · intro j n
      have hother : (view s.blk).entry d'.toNat q' = none := by
        have hv5 := view_putEntry (e := default) I.acc hd hq
        have hto5 : kindAt (putEntry s.blk q default) d'.toNat = F_DIR := by
          rw [← view_flags, hv5]
          exact hd'
        have hempty := (hstores.view_eq hto5).2
        rwa [hv5, View.entry_setEntry_ne _ _ (fun hcase => hdd hcase.1.symm)] at hempty
      rw [hview, mem_cons, mem_listing hd', Prod.mk.injEq]
      constructor
      · rintro (⟨rfl, rfl⟩ | ⟨t, ht⟩)
        · exact ⟨q', View.entry_setEntry_same _ _ _ _⟩
        · refine ⟨t, ?_⟩
          rw [View.move, View.entry_setEntry_ne,
            View.entry_setEntry_ne _ _ (fun hcase => hdd hcase.1.symm)]
          · exact ht
          · rintro ⟨-, rfl⟩
            rw [hother] at ht
            simp at ht
      · rintro ⟨t, ht⟩
        rw [View.move, View.entry_setEntry] at ht
        by_cases hcase : d'.toNat = d'.toNat ∧ t = q'
        · rw [if_pos hcase, Option.some.injEq, Prod.mk.injEq] at ht
          exact .inl ⟨(UInt32.toNat_inj.mp ht.1).symm, ht.2.symm⟩
        · rw [if_neg hcase, View.entry_setEntry_ne _ _ (fun h => hdd h.1.symm)] at ht
          exact .inr ⟨t, ht⟩
  · -- no other record and no block of another inode is written
    have helse := hkept.sameElsewhere hc hc' I I' hflags (by
      rintro i (rfl | rfl)
      · exact hd
      · exact hd')
    refine ⟨helse.kinds, fun x hx hxd => helse.listings x hx ?_, helse.contents⟩
    rintro (h | h)
    · exact hxd (.inl (UInt32.toNat_inj.mp h))
    · exact hxd (.inr (UInt32.toNat_inj.mp h))

include hc' in
/-- A moved entry is found under every path to its new directory. -/
theorem foundIfFit_of_move (hnames : (view s.blk).UniqueNames)
    (hentry : (view s.blk).entry d.toNat q = some (ino.toNat, name))
    (hnew : (view s.blk).Unnamed d'.toNat name) (hempty : (view s.blk).entry d'.toNat q' = none)
    (hout : ¬ Below (view s.blk).Link ino.toNat d'.toNat) (I' : Inv s'.blk)
    (hview : view s'.blk = (view s.blk).move ino.toNat d.toNat q d'.toNat q' name) :
    FoundIfFit s s' d' name ino := by
  have hentry' : (view s'.blk).entry d'.toNat q' = some (ino.toNat, name) := by
    rw [hview]
    exact View.entry_setEntry_same _ _ _ _
  intro path hpath
  refine ⟨fun hfit => ?_, fun hfit => not_lookupGives hc' I' hentry' hfit⟩
  refine lookupGives_of_fit hc' I' hentry' ?_ ?_ hfit
  · rw [hview]
    refine (hnames.clearEntry d.toNat q).setEntry ?_
    intro t j _ ht
    exact hnew t j (View.entry_of_clearEntry ht)
  · refine leads_avoids hpath hout (by rw [hview]; rfl) ?_
    intro a t y n ht hy
    rw [hview, View.move, View.entry_setEntry_ne, View.entry_setEntry_ne]
    · exact ht
    · rintro ⟨rfl, rfl⟩
      rw [hentry, Option.some.injEq, Prod.mk.injEq] at ht
      exact hy ht.1.symm
    · rintro ⟨rfl, rfl⟩
      rw [hempty] at ht
      simp at ht

end

/-! ## Both calls -/

/-- **`rename` and `move_entry` move one entry or nothing.** Both return. With `false` no block
has changed. With `true` the listings differ by the one entry, all other listings and all
contents are as before, and the inode is found under its new path just if the name is one
part of a path. -/
theorem rename_move_one_entry {s : Fs} (h : Reachable s) (hnames : (view s.blk).UniqueNames) :
    (∀ parent_ino old_name new_name, kindAt s.blk parent_ino.toNat = F_DIR →
      ∃ r s', rename parent_ino old_name new_name s = .ok r s' ∧ (r = false → s'.blk = s.blk)
        ∧ (r = true → ∃ ino, Renamed s s' parent_ino old_name new_name ino
          ∧ FoundIfFit s s' parent_ino new_name ino))
    ∧ ∀ from_parent to_parent name, kindAt s.blk from_parent.toNat = F_DIR →
      kindAt s.blk to_parent.toNat = F_DIR → HasRoom s.blk to_parent.toNat →
      (∀ q i, (view s.blk).entry from_parent.toNat q = some (i, name) →
        ¬ Below (view s.blk).Link i to_parent.toNat) →
      ∃ r s', move_entry from_parent to_parent name s = .ok r s' ∧ (r = false → s'.blk = s.blk)
        ∧ (r = true → ∃ ino, Moved s s' from_parent to_parent name ino
          ∧ FoundIfFit s s' to_parent name ino) := by
  obtain ⟨hc, I⟩ := h.inv
  constructor
  · intro parent_ino old_name new_name hd
    obtain ⟨r, s', hrun, hb, hres⟩ := rename_writes s hc I parent_ino old_name new_name hd
    have hc' := hc.of_eq hb.geom
    refine ⟨r, s', hrun, ?_, ?_⟩
    · rintro rfl
      exact hres.1
    · rintro rfl
      obtain ⟨q, hq, hnamed, hnew, hlen, hblk⟩ := hres
      obtain ⟨hne0, hentry⟩ := entry_of_named hd hq hnamed
      obtain ⟨I', hview⟩ := I.renamed hd hq hnamed hlen hblk
      exact ⟨_, renamed_of_putEntry hc hc' I hd hq hnamed hlen hblk I',
        foundIfFit_of_rename I hc' hnames hd hentry hnew I' hview⟩
  · intro from_parent to_parent name hd hd' hroom hout
    obtain ⟨r, s', hrun, hb, hres⟩ :=
      (move_entry_writes s hc I from_parent to_parent name hd hd').exists_ok (by
      rintro e _ ⟨-, hzero, hfull⟩
      have := hroom hfull
      omega)
    have hc' := hc.of_eq hb.geom
    refine ⟨r, s', hrun, ?_, ?_⟩
    · rintro rfl
      exact hres.1
    · rintro rfl
      obtain ⟨hdd, hnew, q, hq, hnamed, hlen, q', hstores⟩ := hres
      obtain ⟨hne0, hentry⟩ := entry_of_named hd hq hnamed
      obtain ⟨I', hview, hempty⟩ := I.moved hd hd' hdd hq hnamed hlen hstores
      exact ⟨_, moved_of_stores hc hc' I hd hd' hdd hq hnamed I' hstores hview,
        foundIfFit_of_move hc' hnames hentry hnew hempty (hout q _ hentry) I' hview⟩

theorem listing_one {D : Disk} (I : Inv D) {d : ℕ} {name : String} (hd : kindAt D d = F_DIR)
    (h : ∀ t i n, (view D).entry d t = some (i, n) ↔ t = q ∧ i = ino.toNat ∧ n = name) :
    listing D (inodeAt D d) = [(ino, name)] := by
  refine perm_singleton.mp (I.listing_perm hd (by simp) ?_)
  intro i n
  rw [mem_singleton, Prod.mk.injEq]
  constructor
  · rintro ⟨rfl, rfl⟩
    exact ⟨q, (h _ _ _).mpr ⟨rfl, rfl, rfl⟩⟩
  · rintro ⟨t, ht⟩
    obtain ⟨-, hi, hn⟩ := (h _ _ _).mp ht
    exact ⟨UInt32.toNat_inj.mp hi, hn⟩

theorem View.uniqueNames_root_create {kind : UInt32} {name : String} :
    (View.root.create 1 kind 0 q name).UniqueNames := by
  intro d t t' i i' n h h'
  rw [(View.entry_root_create.mp h).2.1, (View.entry_root_create.mp h').2.1]

/-- A state with the one file `a`, in the root directory. -/
theorem exists_one_file : ∃ s q, Reachable s ∧ (view s.blk).UniqueNames ∧ kindAt s.blk 0 = F_DIR
    ∧ ∀ t i n, (view s.blk).entry 0 t = some (i, n) ↔ t = q ∧ i = (1 : UInt32).toNat ∧ n = "a" := by
  obtain ⟨-, s, q, -, -, -, hreach, hview, -⟩ := exists_created .file "a" (by decide)
  refine ⟨s, q, hreach, ?_, kindAt_of_root_create hview 0, fun t i n => ?_⟩
  · rw [hview]
    exact View.uniqueNames_root_create
  · rw [hview, View.entry_root_create]
    exact and_iff_right rfl

/-- A file of the root directory renamed from `a` to `b`. -/
theorem rename_move_one_entry_created : ∃ s, Reachable s ∧ (view s.blk).UniqueNames
    ∧ ∃ r s', rename 0 "a" "b" s = .ok r s' ∧ (r = false → s'.blk = s.blk)
      ∧ (r = true → ∃ ino, Renamed s s' 0 "a" "b" ino ∧ FoundIfFit s s' 0 "b" ino) := by
  obtain ⟨s, q, hreach, hnames, hd, -⟩ := exists_one_file
  exact ⟨s, hreach, hnames, (rename_move_one_entry hreach hnames).1 0 "a" "b" hd⟩

/-- A file of the root directory renamed from `a` to `x/y` is not found there. -/
theorem rename_slash_not_found : ∃ s s', Reachable s ∧ (view s.blk).UniqueNames
    ∧ rename 0 "a" "x/y" s = .ok true s' ∧ Lists s 0 [(1, "a")] ∧ Lists s' 0 [(1, "x/y")]
    ∧ (view s.blk).Leads 0 (path_parts "") 0 ∧ ∃ t,
      lookup ("" ++ "/" ++ "x/y") s' = .ok none t := by
  obtain ⟨s, q, hreach, hnames, hd, hentries⟩ := exists_one_file
  obtain ⟨hc, I⟩ := hreach.inv
  obtain ⟨r, s', hrun, hb, hres⟩ := rename_spec s hc I 0 "a" "x/y" hd
  have hc' := hc.of_eq hb.geom
  have hthere : (view s.blk).entry 0 q = some ((1 : UInt32).toNat, "a") :=
    (hentries _ _ _).mpr ⟨rfl, rfl, rfl⟩
  cases r with
  | false =>
    rcases hres.2 with ⟨t, i, ht⟩ | hlong | hmissing
    · exact absurd ((hentries _ _ _).mp ht).2.2 (by decide)
    · exact absurd hlong (by decide)
    · exact absurd hthere (hmissing q _)
  | true =>
    obtain ⟨t, i, ht, -, -, -, I', hview⟩ := hres
    obtain ⟨rfl, rfl, -⟩ := (hentries _ _ _).mp ht
    have hd' : kindAt s'.blk 0 = F_DIR := by
      rw [← view_flags, hview]
      exact hd
    have hentries' : ∀ u i n, (view s'.blk).entry 0 u = some (i, n)
        ↔ u = t ∧ i = (1 : UInt32).toNat ∧ n = "x/y" := by
      intro u i n
      rw [hview, View.entry_setEntry]
      by_cases hcase : (0 : ℕ) = (0 : UInt32).toNat ∧ u = t
      · rw [if_pos hcase, Option.some.injEq, Prod.mk.injEq]
        exact ⟨fun h => ⟨hcase.2, h.1.symm, h.2.symm⟩, fun h => ⟨h.2.1.symm, h.2.2.symm⟩⟩
      · rw [if_neg hcase, hentries]
        exact ⟨fun h => absurd ⟨rfl, h.1⟩ hcase, fun h => absurd ⟨rfl, h.1⟩ hcase⟩
    have hnone : (view s'.blk).Unnamed 0 "x" := by
      intro u i hu
      exact absurd ((hentries' _ _ _).mp hu).2.2 (by decide)
    refine ⟨s, s', hreach, hnames, hrun,
      (lists_iff hc I.acc (d := 0) hd _).mpr (listing_one I hd hentries).symm,
      (lists_iff hc' I'.acc (d := 0) hd' _).mpr (listing_one I' hd' hentries').symm, .here 0, ?_⟩
    obtain ⟨r, u, hlookup, -, hresolves⟩ := lookup_spec hc' I' ("" ++ "/" ++ "x/y") (by
      exact ⟨hd', fun u i hu => absurd hu (hnone u i)⟩)
    refine ⟨u, ?_⟩
    cases hresolves with
    | missing _ _ => exact hlookup
    | entry _ he _ => exact absurd he (hnone _ _)

end HepOS.HepFS
