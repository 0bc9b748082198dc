/-
What a call leaves alone.

`Kept D D' touched` says that every inode in use, except those that are touched, has the same
record and the same blocks on `D'` as on `D`. Then it is listed and read as before, and it
owns the same blocks. The operations of HepFS touch few inodes: storing an entry touches its
directory, writing a file touches the file, giving an inode back touches that inode.

The second half is about the directory that is touched. `Stores` tells its blocks apart from
its entries: it keeps the blocks it had, so its listing is the old one with one entry more.
-/
import HepOS.HepFS.Reach

set_option autoImplicit false

namespace HepOS.HepFS

open Bytes Hoare Ledger Trace List

variable {D : Disk} {d : ℕ}

/-! ## Inodes that are not touched -/

structure Kept (D D' : Disk) (touched : ℕ → Prop) : Prop where
  record : ∀ i, Live (inodeAt D) i → ¬ touched i → inodeAt D' i = inodeAt D i
  blocks : ∀ i, Live (inodeAt D) i → ¬ touched i → ∀ c ∈ owned D (inodeAt D i), D' c = D c

section

variable {D D' D'' : Disk} {touched touched' : ℕ → Prop} {i : ℕ}

theorem Kept.rfl (D : Disk) (touched : ℕ → Prop) : Kept D D touched :=
  ⟨fun _ _ _ => Eq.refl _, fun _ _ _ _ _ => Eq.refl _⟩

section

variable (h : Kept D D' touched)

include h

theorem Kept.mono (hsub : ∀ i, Live (inodeAt D) i → touched i → touched' i) :
    Kept D D' touched' :=
  ⟨fun i hi ht => h.record i hi (fun hc => ht (hsub i hi hc)),
    fun i hi ht => h.blocks i hi (fun hc => ht (hsub i hi hc))⟩

theorem Kept.live (hi : Live (inodeAt D) i) (ht : ¬ touched i) :
    Live (inodeAt D') i := by
  refine ⟨hi.1, ?_⟩
  rw [h.record i hi ht]
  exact hi.2

theorem Kept.slotOf (hi : Live (inodeAt D) i) (ht : ¬ touched i) :
    slotOf D' (inodeAt D' i) = slotOf D (inodeAt D i) := by
  rw [h.record i hi ht]
  exact slotOf_frame (h.blocks i hi ht)

theorem Kept.owned (hi : Live (inodeAt D) i) (ht : ¬ touched i) :
    owned D' (inodeAt D' i) = owned D (inodeAt D i) := by
  rw [HepFS.owned, HepFS.owned, h.slotOf hi ht]

theorem Kept.trans (h' : Kept D' D'' touched) : Kept D D'' touched := by
  constructor
  · intro i hi ht
    rw [h'.record i (h.live hi ht) ht, h.record i hi ht]
  · intro i hi ht c hc
    rw [h'.blocks i (h.live hi ht) ht c (by rw [h.owned hi ht]; exact hc), h.blocks i hi ht c hc]

theorem Kept.kindAt (hi : Live (inodeAt D) i) (ht : ¬ touched i) :
    kindAt D' i = kindAt D i := by
  rw [kindAt_of_lt _ hi.1, kindAt_of_lt _ hi.1, h.record i hi ht]

theorem Kept.listing (hi : Live (inodeAt D) i) (ht : ¬ touched i) :
    listing D' (inodeAt D' i) = listing D (inodeAt D i) := by
  rw [h.record i hi ht]
  exact listing_congr (h.blocks i hi ht)

theorem Kept.content (A : Acc D (inodeAt D)) (hi : Live (inodeAt D) i)
    (ht : ¬ touched i) : content D' (inodeAt D' i) = content D (inodeAt D i) := by
  obtain ⟨m, t, hsh⟩ := A.shape i hi
  refine content_congr hsh (h.slotOf hi ht) (by rw [h.record i hi ht]) ?_
  intro j hj
  exact h.blocks i hi ht _ (mem_owned.mpr ⟨.data j, Eq.refl _, (hsh.data j).mpr hj⟩)

end

end

/-! ## What is listed and what is read -/

/-- `list_dir` returns `entries`. -/
def Lists (s : Fs) (d : UInt32) (entries : List (UInt32 × String)) : Prop :=
  ∃ t, list_dir d s = .ok entries t

/-- `read_file` returns `data`. -/
def Reads (s : Fs) (f : UInt32) (data : List UInt8) : Prop := ∃ t, read_file f s = .ok data t

section

variable {s s' : Fs} {touched : ℕ → Prop}

theorem lists_iff (hc : s.geom.covers) (A : Acc s.blk (inodeAt s.blk)) {d : UInt32}
    (hd : kindAt s.blk d.toNat = F_DIR) (entries : List (UInt32 × String)) :
    Lists s d entries ↔ entries = listing s.blk (inodeAt s.blk d.toNat) := by
  obtain ⟨t, hrun, -⟩ := list_dir_spec s hc A d hd
  constructor
  · rintro ⟨t', hrun'⟩
    exact (EStateM.Result.ok.inj (hrun'.symm.trans hrun)).1
  · rintro rfl
    exact ⟨t, hrun⟩

theorem reads_iff (hc : s.geom.covers) (I : Inv s.blk) {f : UInt32}
    (hf : kindAt s.blk f.toNat = F_FILE) (data : List UInt8) :
    Reads s f data ↔ data = content s.blk (inodeAt s.blk f.toNat) := by
  obtain ⟨t, hrun, -⟩ := read_file_spec s hc f (I.target hf)
  constructor
  · rintro ⟨t', hrun'⟩
    exact (EStateM.Result.ok.inj (hrun'.symm.trans hrun)).1
  · rintro rfl
    exact ⟨t, hrun⟩

section

variable (h : Kept s.blk s'.blk touched) (hc : s.geom.covers) (hc' : s'.geom.covers)

include h hc hc'

/-- **A directory that is not touched is listed as before.** -/
theorem Kept.lists (A : Acc s.blk (inodeAt s.blk)) (A' : Acc s'.blk (inodeAt s'.blk)) {d : UInt32}
    (hd : HepFS.kindAt s.blk d.toNat = F_DIR) (ht : ¬ touched d.toNat)
    {entries : List (UInt32 × String)} (hl : Lists s d entries) : Lists s' d entries := by
  have hlive := live_of_dir hd
  rw [lists_iff hc A hd] at hl
  rw [lists_iff hc' A' (by rw [h.kindAt hlive ht]; exact hd), h.listing hlive ht]
  exact hl

/-- **A file that is not touched is read as before.** -/
theorem Kept.reads (I : Inv s.blk) (I' : Inv s'.blk) {f : UInt32}
    (hf : HepFS.kindAt s.blk f.toNat = F_FILE) (ht : ¬ touched f.toNat) {data : List UInt8}
    (hr : Reads s f data) : Reads s' f data := by
  have hlive := live_of_file hf
  rw [reads_iff hc I hf] at hr
  rw [reads_iff hc' I' (by rw [h.kindAt hlive ht]; exact hf), h.content I.acc hlive ht]
  exact hr

end

end

/-! ## What the operations touch -/

section

variable {D D' : Disk} {d i : ℕ} {q : ℕ × ℕ}

theorem Added.kept {e : DirEntry} (h : Added D d q e D') : Kept D D' (· = d) :=
  ⟨fun i hi ht => h.other i hi.1 ht, fun i hi ht => h.frame i hi ht⟩

theorem Wrote.kept {data : List UInt8} (h : Wrote D i data D') (A : Acc D (inodeAt D))
    (hi : Live (inodeAt D) i) : Kept D D' (· = i) :=
  ⟨fun j hj ht => h.other j hj.1 ht, fun _ hj ht _ hc => h.apply_other A hi hj ht hc⟩

theorem Released.kept (h : Released D i D') (A : Acc D (inodeAt D)) : Kept D D' (· = i) :=
  ⟨fun j hj ht => h.other j hj.1 ht,
    fun _ hj _ c hc => h.data c (.inr (A.owned_range hj hc).1)⟩

theorem kept_putEntry (A : Acc D (inodeAt D)) (hd : Live (inodeAt D) d)
    (hq : q ∈ places (inodeAt D d)) (e : DirEntry) : Kept D (putEntry D q e) (· = d) := by
  constructor
  · intro j hj _
    exact inodeAt_putEntry A hd hq hj.1
  · intro j hj ht c hc
    refine putEntry_apply_ne ?_
    rintro rfl
    exact A.not_owned hd hj ht hc (places_subset_owned D hq)

theorem Inv.kept_newFile (I : Inv D) (hi : FreshInode D i) :
    Kept D (newFile D i) (fun _ => False) := by
  constructor
  · intro j hj _
    exact inodeAt_newFile_ne I hi hj
  · intro j hj _ c hc
    rw [newFile, newInode_apply_ne hi.lt (.inr (.inr (I.acc.owned_range hj hc).1))]

theorem Inv.kept_newDir (I : Inv D) (hi : FreshInode D i) {b : UInt32} (hb : Fresh D b.toNat) :
    Kept D (newDir D i b) (fun _ => False) := by
  constructor
  · intro j hj _
    refine inodeAt_newDir_ne hi hb hj.1 ?_
    rintro rfl
    exact live_iff_kindAt.mp hj (I.free_of_fresh hi)
  · intro j hj _ c hc
    exact newDir_apply_ne hi hb (I.acc.owned_ne_fresh hj hb hc) (I.acc.owned_range hj hc).1

end

/-! ## Places and listings -/

theorem Acc.nodup_blocks (A : Acc D (inodeAt D)) (hd : Live (inodeAt D) d) :
    (inodeAt D d).blocks.Nodup := by
  rw [Inode.blocks, List.Nodup, pairwise_filter, pairwise_iff_getElem]
  intro i j hi hj hij hne _ heq
  rw [Vector.length_toList] at hi hj
  rw [Vector.getElem_toList, Vector.getElem_toList] at heq
  have hslot : slotOf D (inodeAt D d) (.data i) = slotOf D (inodeAt D d) (.data j) := by
    rw [slotOf_data_direct _ _ hi, slotOf_data_direct _ _ hj, heq]
  have hne' : slotOf D (inodeAt D d) (.data i) ≠ 0 := by
    rw [slotOf_data_direct _ _ hi]
    exact toNat_ne_zero.mpr (by simpa using hne)
  have hsame := Slot.data.inj (A.slotInj hd _ _ hne' hslot)
  omega

theorem nodup_placesOf {blks : List UInt32} (h : blks.Nodup) : (placesOf blks).Nodup := by
  rw [placesOf, nodup_flatMap]
  constructor
  · intro b _
    refine nodup_range.map ?_
    intro i j hij
    exact (Prod.mk.inj hij).2
  · refine h.imp ?_
    intro b c hbc q hq hq'
    obtain ⟨i, -, rfl⟩ := mem_map.mp hq
    obtain ⟨j, -, hj⟩ := mem_map.mp hq'
    exact hbc (UInt32.toNat_inj.mp (Prod.mk.inj hj).1.symm)

/-- What is listed of the entry at a place. -/
def listedAt (D : Disk) (q : ℕ × ℕ) : Option (UInt32 × String) :=
  if (entryAt D q).inode ≠ 0 then some ((entryAt D q).inode, (entryAt D q).name_str) else none

theorem listing_eq (D : Disk) (n : Inode) : listing D n = (places n).filterMap (listedAt D) := rfl

theorem listedAt_some {q : ℕ × ℕ} {x : UInt32 × String} (hd : kindAt D d = F_DIR)
    (hq : q ∈ places (inodeAt D d)) (h : listedAt D q = some x) :
    x.1 ≠ 0 ∧ (view D).entry d q = some (x.1.toNat, x.2) := by
  unfold listedAt at h
  by_cases h0 : (entryAt D q).inode ≠ 0
  · rw [if_pos h0] at h
    cases h
    exact ⟨h0, view_entry_some.mpr ⟨hd, hq, h0, rfl, rfl⟩⟩
  · rw [if_neg h0] at h
    simp at h

theorem Inv.nodup_listing (I : Inv D) (hd : kindAt D d = F_DIR) :
    ((listing D (inodeAt D d)).map Prod.fst).Nodup := by
  have hplaces : (places (inodeAt D d)).Nodup :=
    nodup_placesOf (I.acc.nodup_blocks (live_of_dir hd))
  rw [List.Nodup, pairwise_map, listing_eq, pairwise_filterMap]
  refine List.Pairwise.imp_of_mem ?_ hplaces
  -- the same inode at two places would be held twice
  intro q q' hq hq' hne x hx y hy hsame
  obtain ⟨hx0, hentry⟩ := listedAt_some hd hq hx
  obtain ⟨-, hentry'⟩ := listedAt_some hd hq' hy
  have hheld := View.held_of_entry hentry
  refine hne (I.linked.ledger.inj d d hd hd q q' ?_ ?_).2
  · rw [hheld]
    exact toNat_ne_zero.mpr hx0
  · rw [hheld, View.held_of_entry hentry', hsame]

/-- A listing is determined up to order by the entries of the view. -/
theorem Inv.listing_perm (I : Inv D) (hd : kindAt D d = F_DIR)
    {l : List (UInt32 × String)} (hnodup : (l.map Prod.fst).Nodup)
    (hmem : ∀ ino name, (ino, name) ∈ l ↔ ∃ q, (view D).entry d q = some (ino.toNat, name)) :
    (listing D (inodeAt D d)).Perm l := by
  refine (perm_ext_iff_of_nodup (List.Nodup.of_map _ (I.nodup_listing hd))
    (List.Nodup.of_map _ hnodup)).mpr ?_
  rintro ⟨ino, name⟩
  rw [mem_listing hd, hmem]

/-- Overwriting an entry changes a listing at one place. -/
theorem listing_putEntry (A : Acc D (inodeAt D)) (hd : Live (inodeAt D) d)
    {q : ℕ × ℕ} (hq : q ∈ places (inodeAt D d)) (e : DirEntry) :
    ∃ before after, listing D (inodeAt D d) = before ++ (listedAt D q).toList ++ after
      ∧ listing (putEntry D q e) (inodeAt (putEntry D q e) d)
        = before ++ (listedAt (putEntry D q e) q).toList ++ after := by
  obtain ⟨l1, l2, hsplit⟩ := append_of_mem hq
  have hnodup : (places (inodeAt D d)).Nodup := nodup_placesOf (A.nodup_blocks hd)
  rw [hsplit, nodup_append, nodup_cons] at hnodup
  obtain ⟨-, ⟨hq2, -⟩, hdis⟩ := hnodup
  have hother : ∀ l : List (ℕ × ℕ), q ∉ l →
      l.filterMap (listedAt (putEntry D q e)) = l.filterMap (listedAt D) := by
    intro l hl
    apply filterMap_congr
    intro p hp
    have hne : p ≠ q := by
      rintro rfl
      exact hl hp
    rw [listedAt, listedAt, entryAt_putEntry_ne D hne]
  have hparts : ∀ E : Disk, (l1 ++ q :: l2).filterMap (listedAt E)
      = l1.filterMap (listedAt E) ++ (listedAt E q).toList ++ l2.filterMap (listedAt E) := by
    intro E
    rw [filterMap_append, filterMap_cons, append_assoc]
    cases listedAt E q with
    | none => rfl
    | some x => rfl
  refine ⟨l1.filterMap (listedAt D), l2.filterMap (listedAt D), ?_, ?_⟩
  · rw [listing_eq, hsplit, hparts]
  · rw [inodeAt_putEntry A hd hq hd.1, listing_eq, hsplit, hparts, hother l2 hq2,
      hother l1 (fun h => hdis q h q (by simp) rfl)]

/-! ## HepFS and the abstract file system -/

end HepOS.HepFS
