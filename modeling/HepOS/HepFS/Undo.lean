/-
Removing what was created and written.

A new file takes an inode, the blocks of its content with the tables over them, and perhaps
one block for the directory that gets its entry. `remove` gives back the inode and all the
blocks the file owns. That those are all the writer took is not argued about the loops again:
in every state the bits that are set are those of the metadata and of the blocks the inodes
in use own, the file owns nothing right after `create_file`, and writing it changes what no
other inode owns. So the block bits after `remove` are those after `create_file`.
-/
import HepOS.HepFS.Frame

set_option autoImplicit false

namespace HepOS.HepFS

open Bytes Hoare Ledger Trace

/-! ## The bits the file does not own -/

section

variable {D D' : Disk} {f : ℕ} {data : List UInt8}

/-- Writing a file that owned nothing: the blocks in use that it does not own are those that
were in use before. -/
theorem Wrote.bits_iff (h : Wrote D f data D') (I : Inv D) (hf : kindAt D f = F_FILE)
    (hbare : owned D (inodeAt D f) = []) {c : ℕ} (hc : c < 131072) :
    (bitAt D' 2 c = true ∧ c ∉ owned D' (inodeAt D' f)) ↔ bitAt D 2 c = true := by
  have I' := I.write h hf
  have hlive := live_of_file hf
  have hlive' := live_of_file (h.kind hf)
  have hkept := h.kept I.acc hlive
  rw [I'.accounted.block_bits c hc, I.accounted.block_bits c hc]
  constructor
  · rintro ⟨hlow | ⟨i, hi, hown⟩, hnot⟩
    · exact .inl hlow
    · have hne : i ≠ f := by
        rintro rfl
        exact hnot hown
      have hi0 : Live (inodeAt D) i := by
        refine ⟨hi.1, ?_⟩
        rw [← h.other i hi.1 hne]
        exact hi.2
      rw [hkept.owned hi0 hne] at hown
      exact .inr ⟨i, hi0, hown⟩
  · rintro (hlow | ⟨i, hi, hown⟩)
    · refine ⟨.inl hlow, fun hown => ?_⟩
      have hr := I'.acc.owned_range hlive' hown
      omega
    · have hne : i ≠ f := by
        rintro rfl
        rw [hbare] at hown
        simp at hown
      have hown' : c ∈ owned D' (inodeAt D' i) := by
        rw [hkept.owned hi hne]
        exact hown
      have hi' := hkept.live hi hne
      exact ⟨.inr ⟨i, hi', hown'⟩, I'.acc.not_owned hlive' hi' hne hown'⟩

/-- What the file then owns are the blocks that were taken. -/
theorem Wrote.length_owned_le (h : Wrote D f data D') (I : Inv D) (hf : kindAt D f = F_FILE)
    (hbare : owned D (inodeAt D f) = []) :
    (owned D' (inodeAt D' f)).length ≤ need D (inodeAt D f) (blocksFor data.length) := by
  have I' := I.write h hf
  have hlive' := live_of_file (h.kind hf)
  have hcard : (owned D' (inodeAt D' f)).toFinset.card = (owned D' (inodeAt D' f)).length :=
    List.toFinset_card_of_nodup (I'.accounted.nodup f hlive')
  have hdis : Disjoint (owned D' (inodeAt D' f)).toFinset (freeBlocks D') := by
    refine Finset.disjoint_left.mpr fun c hc hfree => ?_
    have hown := List.mem_toFinset.mp hc
    have hclear := (mem_freeBlocks.mp hfree).2.2
    have hset := (I'.accounted.block_bits c (I'.acc.owned_range hlive' hown).2).mpr
      (.inr ⟨f, hlive', hown⟩)
    rw [hclear] at hset
    exact absurd hset (by decide)
  have hsub : (owned D' (inodeAt D' f)).toFinset ∪ freeBlocks D' ⊆ freeBlocks D := by
    intro c hc
    have hr : 38 ≤ c ∧ c < 131072 := by
      rcases Finset.mem_union.mp hc with hc | hc
      · exact I'.acc.owned_range hlive' (List.mem_toFinset.mp hc)
      · exact ⟨(mem_freeBlocks.mp hc).1, (mem_freeBlocks.mp hc).2.1⟩
    refine mem_freeBlocks.mpr ⟨hr.1, hr.2, Bool.eq_false_iff.mpr fun hset => ?_⟩
    obtain ⟨hset', hnot⟩ := (h.bits_iff I hf hbare hr.2).mpr hset
    rcases Finset.mem_union.mp hc with hc | hc
    · exact hnot (List.mem_toFinset.mp hc)
    · rw [(mem_freeBlocks.mp hc).2.2] at hset'
      exact absurd hset' (by decide)
  have hle := Finset.card_le_card hsub
  rw [Finset.card_union_of_disjoint hdis, hcard] at hle
  have hcount := h.count
  unfold freeCount at hcount
  omega

theorem need_bare {n : Inode} (h : Bare n) (k : ℕ) : need D n k = (slotsFor k).length := by
  rw [need, h.slotOf]
  simp

theorem owned_bare {n : Inode} (h : Bare n) : owned D n = [] := by
  rw [owned, h.slotOf]
  simp

/-- Giving back an inode and clearing its entry leaves the blocks of the directory alone. -/
theorem owned_unlink {i d : ℕ} {q : ℕ × ℕ} (I : Inv D) (R : Released D i D')
    (hi : Live (inodeAt D) i) (hd : kindAt D d = F_DIR) (hdi : d ≠ i)
    (hq : q ∈ places (inodeAt D d)) :
    owned (putEntry D' q default) (inodeAt (putEntry D' q default) d) = owned D (inodeAt D d) := by
  have hlive := live_of_dir hd
  have hkept := R.kept I.acc
  have A' := R.acc I.acc hi
  have hlive' := hkept.live hlive hdi
  have hq' : q ∈ places (inodeAt D' d) := by
    rw [hkept.record d hlive hdi]
    exact hq
  rw [owned, inodeAt_putEntry A' hlive' hq' hlive.1, slotOf_putEntry A' hlive' hq', ← owned,
    hkept.owned hlive hdi]

end

/-! ## The three calls -/

/-- The free blocks suffice for a directory entry and a content of `k` blocks. -/
def FitsFile (D : Disk) (d k : ℕ) : Prop :=
  (slotsFor k).length ≤ freeCount D
    ∧ (NoPlace D (inodeAt D d) → (slotsFor k).length + 1 ≤ freeCount D)

/-- The directory `d` has gained one block at most since `D`, and no other block bit changed. -/
def BitsBut (D : Disk) (d : ℕ) (D' : Disk) : Prop :=
  (∀ c < 131072, bitAt D' 2 c = bitAt D 2 c)
    ∨ ∃ b, bitAt D 2 b = false ∧ b ∈ owned D' (inodeAt D' d)
      ∧ ∀ c < 131072, bitAt D' 2 c = if c = b then true else bitAt D 2 c

section

variable {s : Fs} (hc : s.geom.covers) (I : Inv s.blk) {d : UInt32} {name : String}
  (hd : kindAt s.blk d.toNat = F_DIR)

include I hd in
theorem Inv.noPlace_newFile {i : ℕ} (hi : FreshInode s.blk i)
    (h : NoPlace (newFile s.blk i) (inodeAt (newFile s.blk i) d.toNat)) :
    NoPlace s.blk (inodeAt s.blk d.toNat) := by
  have hlive := live_of_dir hd
  exact h.congr (inodeAt_newFile_ne I hi hlive) (I.entryAt_newFile hi hlive)

include hc I hd in
/-- `create_file` when there is an inode and room for the entry: an empty place or a block. -/
theorem create_file_fits (hlen : (nameBytes name).length ≤ 27)
    (hfree : ∃ i < 1024, kindAt s.blk i = F_FREE)
    (hroom : NoPlace s.blk (inodeAt s.blk d.toNat) → 1 ≤ freeCount s.blk) :
    ∃ ino s', create_file d name s = .ok ino s' ∧ s.Bumped s' ∧ FreshInode s.blk ino.toNat
      ∧ ∃ q, Stores (newFile s.blk ino.toNat) d.toNat q (DirEntry.mk_named ino name) s'.blk := by
  obtain ⟨ino, s', hrun, hb, -, hfresh, hstores⟩ :=
    (create_file_places s hc I d name hd).exists_ok (by
      rintro e _ (⟨-, hfull⟩ | ⟨-, hlong⟩ | ⟨-, hnone | ⟨hzero, hplace⟩⟩)
      · obtain ⟨i, hi, hifree⟩ := hfree
        exact hfull i hi hifree
      · omega
      · omega
      · have := hroom hplace
        omega)
  exact ⟨ino, s', hrun, hb, hfresh, hstores⟩

theorem Stores.bitsBut {D D' : Disk} {i d : ℕ} {q : ℕ × ℕ} {e : DirEntry} (hi : FreshInode D i)
    (h : Stores (newFile D i) d q e D') : BitsBut D d D' := by
  have hsame : ∀ c < 131072, bitAt (newFile D i) 2 c = bitAt D 2 c :=
    fun c hc => bitAt_block_newInode hi.lt hc
  rcases h.bits with ⟨-, hbits⟩ | ⟨-, b, hb, ⟨j, -, hslot⟩, hbits⟩
  · refine .inl fun c hc => ?_
    rw [hbits c hc, hsame c hc]
  · have hge := hb.ge
    refine .inr
      ⟨b, by rw [← hsame b hb.lt]; exact hb.clear, mem_owned.mpr ⟨_,
        hslot, by omega⟩, fun c hc => ?_⟩
    rw [hbits c hc, hsame c hc]

/-- How many blocks are left after the entry of a new file is stored. -/
theorem Stores.freeCount_newFile {D D' : Disk} {i d : ℕ} {q : ℕ × ℕ} {e : DirEntry}
    (hi : FreshInode D i) (h : Stores (newFile D i) d q e D') : freeCount D' = freeCount D
      ∨ (NoPlace (newFile D i) (inodeAt (newFile D i) d) ∧ freeCount D' + 1 = freeCount D) := by
  rw [← HepFS.freeCount_newFile (D := D) hi.lt]
  rcases h.bits with ⟨-, hbits⟩ | ⟨hfull, b, hb, -, hbits⟩
  · exact .inl (freeCount_congr hbits)
  · exact .inr ⟨hfull, freeCount_of_set hb.mem hbits⟩

end

/-- The pages the three calls may take for a content of `k` blocks. -/
def undoPages (k : ℕ) : ℕ := 147 + writePages k + 2 * (slotsFor k).length

/-- **`remove` undoes `create_file` and `write_file`.** In a directory without the name, for a
content of any size that fits, and with the pages, the three calls return, `remove` with `true`,
and both bit maps are what they were, but for one block the directory may have gained. -/
theorem create_write_remove {s : Fs} (h : Reachable s) (d : UInt32) (name : String)
    (data : List UInt8) (hd : kindAt s.blk d.toNat = F_DIR) (hlen : (nameBytes name).length ≤ 27)
    (hnew : (view s.blk).Unnamed d.toNat name) (hfree : ∃ i < 1024, kindAt s.blk i = F_FREE)
    (hmax : blocksFor data.length ≤ 12 + 1024 + 1024 * 1024)
    (hfits : FitsFile s.blk d.toNat (blocksFor data.length)) {n : ℕ}
    (hpages : undoPages (blocksFor data.length) ≤ n) :
    ∃ ino s₁ s₂ s₃, create_file d name (s.limit n) = .ok ino s₁ ∧ write_file ino data s₁ = .ok () s₂
      ∧ remove d name s₂ = .ok true s₃
      ∧ (∀ i < 32768, bitAt s₃.blk 1 i = bitAt s.blk 1 i) ∧ BitsBut s.blk d.toNat s₃.blk := by
  obtain ⟨hc, I⟩ := h.inv
  -- the three calls
  obtain ⟨ino, s₁, hrun1, hb1, hfresh, q, hstores⟩ := create_file_fits hc I hd hlen hfree (by
    intro hfull
    have := hfits.2 hfull
    omega)
  have hc1 := hc.of_eq hb1.geom
  have hcreated := Created.of_newFile I hfresh hd hlen hstores.toAdded
  have I1 := hcreated.inv
  have hbare : Bare (inodeAt s₁.blk ino.toNat) := by
    rw [hcreated.file rfl]
    exact bare_file
  have hf1 := hcreated.kind_new
  have hroom : need s₁.blk (inodeAt s₁.blk ino.toNat) (blocksFor data.length)
      ≤ freeCount s₁.blk := by
    rw [need_bare hbare]
    rcases hstores.freeCount_newFile hfresh with hsame | ⟨hfull, hless⟩
    · have := hfits.1
      omega
    · have := hfits.2 (I.noPlace_newFile hd hfresh hfull)
      omega
  obtain ⟨s₂, hrun2, ht2, hwrote⟩ :=
    write_file_returns s₁ hc1 ino data (I1.target hf1) (by omega) hroom
  have hc2 := hc1.of_eq ht2.geom
  have I2 := I1.write hwrote hf1
  have hview2 : view s₂.blk = ((view s.blk).create ino.toNat F_FILE d.toNat q name).write
      ino.toNat data := by
    rw [hwrote.view I1.acc hf1, hcreated.view_eq]
  have hdne := hcreated.dir_ne (live_of_dir hd)
  have hd2 : kindAt s₂.blk d.toNat = F_DIR := by
    rw [← view_flags, hview2]
    exact (Function.update_of_ne hdne _ _).trans hd
  have hentry : ∀ t i, (view s₂.blk).entry d.toNat t = some (i, name) → t = q ∧ i = ino.toNat := by
    intro t i ht
    rw [hview2, ← hcreated.view_eq] at ht
    have ht' := (hcreated.entry_dir t).symm.trans ht
    by_cases hcase : t = q
    · rw [if_pos hcase, Option.some.injEq, Prod.mk.injEq] at ht'
      exact ⟨hcase, ht'.1.symm⟩
    · rw [if_neg hcase] at ht'
      exact absurd ht' (hnew t i)
  have hthere : (view s₂.blk).entry d.toNat q = some (ino.toNat, name) := by
    rw [hview2]
    exact View.entry_setEntry_same _ _ _ _
  have hf2 := hwrote.kind hf1
  obtain ⟨r, s₃, hrun3, -, hres⟩ := remove_frees s₂ hc2 I2 d name hd2
  cases r with
  | false =>
    -- it is there, and it is not a directory
    rcases hres.2 with hmissing | ⟨t, i, ht, hdir, -⟩
    · exact absurd hthere (hmissing q _)
    · rw [(hentry t i ht).2, hf2] at hdir
      exact absurd hdir (by decide)
  | true =>
    obtain ⟨t, i, D, ht, -, -, R, hblk, htaken⟩ := hres
    obtain ⟨rfl, rfl⟩ := hentry t i ht
    have hlived := live_of_dir hd2
    have hq : t ∈ places (inodeAt s₂.blk d.toNat) := (view_entry_some.mp hthere).2.1
    have hr := I2.acc.place_range hlived hq
    have hbit3 : ∀ b x, b + x / 32768 < 38 → bitAt s₃.blk b x = bitAt D b x := by
      intro b x hbx
      rw [hblk]
      exact bitAt_congr (putEntry_apply_ne (by omega))
    have hown3 : owned s₃.blk (inodeAt s₃.blk d.toNat) = owned s₁.blk (inodeAt s₁.blk d.toNat) := by
      have hd1 := hcreated.live (live_of_dir hd)
      rw [hblk, owned_unlink I2 R (live_of_file hf2) hd2 hdne hq,
        (hwrote.kept I1.acc (live_of_file hf1)).owned hd1 hdne]
    have hbits3 : ∀ c < 131072, bitAt s₃.blk 2 c = bitAt s₁.blk 2 c := by
      intro c hcl
      rw [hbit3 2 c (by omega), Bool.eq_iff_iff, R.bits c hcl]
      exact hwrote.bits_iff I1 hf1 (owned_bare hbare) hcl
    -- the pages of the three calls
    have hend : s₃.pages ≤ s.pages + n := by
      have hcreate := (spends_create_file (k := 0) _ _).high hrun1
      have hwrite := (spends_write_file (k := 0) _ _).high hrun2
      have howned := hwrote.length_owned_le I1 hf1 (owned_bare hbare)
      rw [need_bare hbare] at howned
      unfold undoPages at hpages
      omega
    have hlow3 := (paged_remove _ _).low hrun3
    have hlow2 := (spends_write_file (k := 0) _ _).low hrun2
    refine ⟨ino, _, _, s₃.on (some (s.pages + n)),
      limit_of_free (spends_create_file (k := 0) d name).toSteady hrun1 (by omega),
      (spends_write_file (k := 0) ino data).toSteady.limit hrun2 _ (by simp; omega),
      (paged_remove d name).limit hrun3 _ (by simp; omega), ?_, ?_⟩
    · show ∀ j < 32768, bitAt s₃.blk 1 j = bitAt s.blk 1 j
      intro j hj
      rw [hbit3 1 j (by omega), R.inode_bits j hj]
      by_cases hji : j = ino.toNat
      · rw [if_pos hji, hji, hfresh.clear]
      · rw [if_neg hji, bitAt_congr (hwrote.low _ (by omega)),
          bitAt_congr (hstores.low _ (by omega)), newFile, bitAt_newInode hfresh.lt hj, if_neg hji]
    · show BitsBut s.blk d.toNat s₃.blk
      rcases hstores.bitsBut hfresh with hsame | ⟨b, hclear, hown, hset⟩
      · exact .inl fun c hcl => by rw [hbits3 c hcl, hsame c hcl]
      · exact .inr
          ⟨b, hclear, by rw [hown3]; exact hown, fun c hcl => by rw [hbits3 c hcl, hset c hcl]⟩

/-- Two bytes in a file of the root directory, with 200 pages left. -/
theorem create_write_remove_formatted : ∃ s, format unformatted = .ok () s ∧ ∃ ino s₁ s₂ s₃,
    create_file 0 "a" (s.limit 200) = .ok ino s₁ ∧ write_file ino [72, 105] s₁ = .ok () s₂
      ∧ remove 0 "a" s₂ = .ok true s₃
      ∧ (∀ i < 32768, bitAt s₃.blk 1 i = bitAt s.blk 1 i) ∧ BitsBut s.blk 0 s₃.blk := by
  obtain ⟨s, hformat, hreach, hview, hcount⟩ := exists_formatted
  have hkind := kindAt_of_root hview
  have hslots : (slotsFor 1).length = 1 := by decide
  refine ⟨s, hformat, create_write_remove hreach 0 "a" [72, 105] (hkind 0) (by decide) ?_
    ⟨1, by decide, hkind 1⟩ (by decide) ?_ (by decide)⟩
  · intro q i
    rw [hview]
    simp [View.root]
  · show FitsFile s.blk 0 1
    unfold FitsFile
    omega

/-- **Memory runs out before the disk.** On a machine with the pages that `format` takes and no
other, `create_file` stops the kernel. -/
theorem create_file_runs_out : ∃ memory s, format (unformatted.on (some memory)) = .ok () s
    ∧ (view s.blk).Unnamed 0 "a" ∧ (∃ i < 1024, kindAt s.blk i = F_FREE) ∧ FitsFile s.blk 0 0
    ∧ ∃ t, create_file 0 "a" s = .error .oom t := by
  obtain ⟨s, hformat, -, hview, hcount⟩ := exists_formatted
  refine ⟨s.pages, s.on (some s.pages), paged_format.limit hformat _ (by simp), ?_,
    ⟨1, by decide, kindAt_of_root hview 1⟩, ⟨Nat.zero_le _, ?_⟩,
    (needs_alloc_inode.bind _).bumped _ s.not_hasPage_limit⟩
  · intro q i
    show (view s.blk).entry 0 q ≠ _
    rw [hview]
    simp [View.root]
  · intro _
    show (slotsFor 0).length + 1 ≤ freeCount s.blk
    have hslots : (slotsFor 0).length = 0 := by decide
    omega

end HepOS.HepFS
