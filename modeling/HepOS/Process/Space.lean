/-
The address space of a process while the kernel builds it and adds to it.

`Holds` is what every function that maps pages for a process keeps: the tables of its user half are
its own, the pages with its image, its stack and its anonymous memory are taken and are no tables,
and a set `K` of frames that belong to others is as it was. `K` is left open: the kernel's tables
are one choice, and no frame at all is another.

The functions write to new pages, to data pages of the process and through `map_leaf`, so each of
these has one lemma. The addresses of an image have to lie in the user half for it (`UserImage`);
`load` does not look at that.
-/
import HepOS.Process.Elf

set_option autoImplicit false

namespace HepOS.Process

open Bytes Hoare Phys Paging Radix List

variable {f : Frame} {mem : Ram} {e virt : UInt64} {page_map : PageMap} {data : List UInt8}

/-- The page has memory of the process in it. -/
def data_use : Use → Bool
  | .image | .stack | .anon => true
  | .pml4 | .table => false

structure Holds (K : Set Frame) (mem₀ : Ram) (cr3 pml4 : Frame) (m : Mach) : Prop where
  space : Space m pml4
  used : ∀ g ∈ K, is_used m.pmm g.val = true
  kept : ∀ g ∈ K, SameFrame mem₀ m.mem g
  apart : ∀ g, IsTable m pml4 g → g ∉ K
  data : ∀ u f, (u, f) ∈ m.allocs → data_use u = true →
    f.val < MAX_PAGES ∧ is_used m.pmm f.val = true ∧ f ∉ K ∧ ¬ IsTable m pml4 f
  high : ∀ i : Fin 512, 256 ≤ i.val → Paging.entry m.mem pml4 i = Paging.entry mem₀ cr3 i

section

variable {K : Set Frame} {mem₀ : Ram} {cr3 pml4 : Frame} {m m' : Mach}

/-! ## The three ways to write -/

theorem Holds.takes (h : Holds K mem₀ cr3 pml4 m) {use : Use} (htakes : m.Takes use f m') :
    Holds K mem₀ cr3 pml4 m' := by
  have hmore : ∀ q, is_used m.pmm q = true → is_used m'.pmm q = true := by
    intro q hq
    rw [htakes.used, hq, Bool.true_or]
  -- the page was nobody's
  have hfresh : ∀ g : Frame, is_used m.pmm g.val = true → f ≠ g := by
    rintro g hg rfl
    rw [htakes.free] at hg
    exact absurd hg (by decide)
  have hsame : ∀ g, IsTable m pml4 g → SameFrame m.mem m'.mem g :=
    fun g _ => htakes.mem ▸ SameFrame.refl _ _
  obtain ⟨hspace, htable, -⟩ := h.space.of_same hsame fun g hg => hmore _ (h.space.used g hg).2
  refine ⟨hspace, fun g hg => hmore _ (h.used g hg), fun g hg => htakes.mem ▸ h.kept g hg,
    fun g hg => h.apart g ((htable g).mp hg), fun u g hg hu => ?_,
      fun i hi => htakes.mem ▸ h.high i hi⟩
  rw [htakes.allocs] at hg
  rcases mem_cons.mp hg with heq | hold
  · obtain ⟨rfl, rfl⟩ := Prod.mk.inj heq
    refine ⟨htakes.lt, by rw [htakes.used, decide_eq_true rfl,
      Bool.or_true], fun hK => hfresh g (h.used g hK) rfl, fun hg => ?_⟩
    exact hfresh g (h.space.used g ((htable g).mp hg)).2 rfl
  · obtain ⟨hlt, hused, hK, hno⟩ := h.data u g hold hu
    exact ⟨hlt, hmore _ hused, hK, mt (htable g).mp hno⟩

/-- A frame that is neither a table nor one of `K` is written. -/
theorem Holds.write_apart (h : Holds K mem₀ cr3 pml4 m) (hfK : f ∉ K) (hftable : ¬ IsTable m pml4 f)
    (hmem : ∀ g, g ≠ f → SameFrame m.mem mem g) : Holds K mem₀ cr3 pml4 { m with mem := mem } := by
  have hsame : ∀ g, IsTable m pml4 g → SameFrame m.mem ({ m with mem := mem } : Mach).mem g :=
    fun g hg => hmem g fun heq => hftable (heq ▸ hg)
  obtain ⟨hspace, htable, -⟩ := h.space.of_same hsame fun g hg => (h.space.used g hg).2
  refine ⟨hspace, h.used, fun g hg => (h.kept g hg).trans (hmem g fun heq => hfK (heq ▸ hg)),
    fun g hg => h.apart g ((htable g).mp hg), fun v g hg hv => ?_, fun i hi => ?_⟩
  · obtain ⟨hlt, hused, hK, hno⟩ := h.data v g hg hv
    exact ⟨hlt, hused, hK, mt (htable g).mp hno⟩
  · exact ((hsame pml4 isTable_root).entry i).trans (h.high i hi)

theorem Holds.map_leaf (h : Holds K mem₀ cr3 pml4 m) (hvirt : (i4 virt).val < 256)
    (hmap : Paging.map_leaf m pml4 virt e = some m') : Holds K mem₀ cr3 pml4 m'
      ∧ Maps pml4 m virt e m' := by
  have hmaps := h.space.map_leaf hvirt hmap
  have hgrows := hmaps.grows
  -- what was taken before is a table afterwards only if it was one before
  have hold : ∀ g : Frame, is_used m.pmm g.val = true → IsTable m' pml4 g → IsTable m pml4 g := by
    intro g hg htable
    rcases hgrows.tables g htable with hbefore | hfree
    · exact hbefore
    · rw [hg] at hfree
      exact absurd hfree (by decide)
  refine ⟨⟨hmaps.space, fun g hg => hgrows.used _ (h.used g hg), fun g hg => ?_, fun g hg hK => ?_,
    fun u f hf hu => ?_, fun i hi => (hgrows.high i hi).trans (h.high i hi)⟩, hmaps⟩
  · exact (h.kept g hg).trans (hgrows.kept g (h.used g hg) fun htable => h.apart g htable hg)
  · exact h.apart g (hold g (h.used g hK) hg) hK
  · obtain ⟨new, hallocs, -⟩ := hgrows.allocs
    rw [hallocs] at hf
    rcases mem_append.mp hf with hnew | hbefore
    · -- the pages that the mapping itself took are tables
      obtain ⟨g, -, heq⟩ := mem_map.mp hnew
      cases heq
      exact absurd hu (by decide)
    · obtain ⟨hlt, hused, hK, hno⟩ := h.data u f hbefore hu
      exact ⟨hlt, hgrows.used _ hused, hK, fun htable => hno (hold f hused htable)⟩

end

/-! ## The pages of the user half -/

/-- The entry of a page of the user half. -/
def page_entry (m : Mach) (pml4 : Frame) (virt : UInt64) : Option UInt64 :=
  translate m pml4 (path virt) (i1 virt)

/-- A frame with memory of the process. -/
def Mach.IsData (m : Mach) (f : Frame) : Prop := ∃ u, (u, f) ∈ m.allocs ∧ data_use u = true

/-- `Holds`, and the user half leads to memory of the process and to frames of `S`. -/
structure Confined (K S : Set Frame) (mem₀ : Ram) (cr3 pml4 : Frame) (m : Mach) :
    Prop extends Holds K mem₀ cr3 pml4 m where
  leaves : ∀ virt e, (i4 virt).val < 256 → page_entry m pml4 virt = some e →
    Mach.IsData m (frame e) ∨ frame e ∈ S

/-- `m'` has the entries of `m`, but for the pages in the list, which have the ones that are given
there. What is taken stays taken, and the new tables are pages that were free. -/
structure Remapped (pml4 : Frame) (m : Mach) (ves : List (UInt64 × UInt64)) (m' : Mach) : Prop where
  entries : ∀ virt, (i4 virt).val < 256 →
    (∃ ve ∈ ves, vpn virt = vpn ve.1 ∧ page_entry m' pml4 virt = leaf ve.2)
      ∨ ((∀ ve ∈ ves, vpn virt ≠ vpn ve.1) ∧ page_entry m' pml4 virt = page_entry m pml4 virt)
  used : ∀ q, is_used m.pmm q = true → is_used m'.pmm q = true
  tables : ∀ g, IsTable m' pml4 g → IsTable m pml4 g ∨ is_used m.pmm g.val = false

section

variable {K S : Set Frame} {mem₀ : Ram} {cr3 pml4 : Frame} {m m' m'' : Mach}

theorem Remapped.refl : Remapped pml4 m [] m where
  entries _ _ := .inr ⟨by simp, rfl⟩
  used _ hq := hq
  tables _ hg := .inl hg

theorem Remapped.trans {ves ves' : List (UInt64 × UInt64)} (h : Remapped pml4 m ves m')
    (h' : Remapped pml4 m' ves' m'') :
    Remapped pml4 m (ves ++ ves') m'' where
  entries virt hvirt := by
    rcases h'.entries virt hvirt with ⟨ve, hve, hpage, hentry⟩ | ⟨hother', hsame'⟩
    · exact .inl ⟨ve, mem_append_right _ hve, hpage, hentry⟩
    · rcases h.entries virt hvirt with ⟨ve, hve, hpage, hentry⟩ | ⟨hother, hsame⟩
      · exact .inl ⟨ve, mem_append_left _ hve, hpage, hsame'.trans hentry⟩
      · refine .inr ⟨fun ve hve => ?_, hsame'.trans hsame⟩
        rcases mem_append.mp hve with hve | hve
        · exact hother ve hve
        · exact hother' ve hve
  used q hq := h'.used q (h.used q hq)
  tables g hg := by
    rcases h'.tables g hg with hmid | hfree
    · exact h.tables g hmid
    · exact .inr (is_free_of_le h.used hfree)

theorem Mach.IsData.mono (h : Mach.IsData m f) (hallocs : m.allocs ⊆ m'.allocs) :
    Mach.IsData m' f := by
  obtain ⟨u, hf, hu⟩ := h
  exact ⟨u, hallocs hf, hu⟩

section

variable (h : Confined K S mem₀ cr3 pml4 m)

include h

theorem Confined.takes {use : Use} (htakes : m.Takes use f m') :
    Confined K S mem₀ cr3 pml4 m' ∧ Remapped pml4 m [] m' ∧ m.allocs ⊆ m'.allocs := by
  have hentry : ∀ virt, page_entry m' pml4 virt = page_entry m pml4 virt := by
    intro virt
    unfold page_entry Paging.translate
    rw [htakes.mem]
  have hallocs : m.allocs ⊆ m'.allocs := by
    rw [htakes.allocs]
    exact subset_cons_self _ _
  have hsame : Remapped pml4 m [] m' := by
    refine ⟨fun virt _ => .inr ⟨by simp, hentry virt⟩, fun q hq => ?_, fun g hg => .inl ?_⟩
    · rw [htakes.used, hq, Bool.true_or]
    · unfold IsTable at hg ⊢
      rwa [htakes.mem] at hg
  refine ⟨⟨h.toHolds.takes htakes, fun virt e hvirt he => ?_⟩, hsame, hallocs⟩
  rw [hentry] at he
  exact (h.leaves virt e hvirt he).imp_left fun hdata => hdata.mono hallocs

/-- A frame that is neither a table nor one of `K` is written. -/
theorem Confined.write_apart (hfK : f ∉ K) (hftable : ¬ IsTable m pml4 f)
    (hmem : ∀ g, g ≠ f → SameFrame m.mem mem g) :
    Confined K S mem₀ cr3 pml4 { m with mem := mem }
        ∧ Remapped pml4 m [] { m with mem := mem } := by
  have hsame : ∀ g, IsTable m pml4 g → SameFrame m.mem ({ m with mem := mem } : Mach).mem g :=
    fun g hg => hmem g fun heq => hftable (heq ▸ hg)
  obtain ⟨-, htable, htranslate⟩ := h.space.of_same hsame fun g hg => (h.space.used g hg).2
  have hentry : ∀ virt, (i4 virt).val < 256 → page_entry { m with mem := mem } pml4 virt
      = page_entry m pml4 virt :=
    fun virt hvirt => htranslate _ (path_user hvirt) _
  refine ⟨⟨h.toHolds.write_apart hfK hftable hmem, fun virt e hvirt he => ?_⟩,
    fun virt hvirt => .inr ⟨by simp, hentry virt hvirt⟩, fun _ hq => hq,
    fun g hg => .inl ((htable g).mp hg)⟩
  rw [hentry virt hvirt] at he
  exact h.leaves virt e hvirt he

theorem Confined.write_data (hf : Mach.IsData m f) (hmem : ∀ g, g ≠ f → SameFrame m.mem mem g) :
    Confined K S mem₀ cr3 pml4 { m with mem := mem }
        ∧ Remapped pml4 m [] { m with mem := mem } := by
  obtain ⟨u, hmem_f, hu⟩ := hf
  obtain ⟨-, -, hfK, hftable⟩ := h.data u f hmem_f hu
  exact h.write_apart hfK hftable hmem

theorem Confined.map_leaf (hvirt : (i4 virt).val < 256)
    (he : Mach.IsData m (frame e) ∨ frame e ∈ S) (hmap : Paging.map_leaf m pml4 virt e = some m') :
    Confined K S mem₀ cr3 pml4 m' ∧ Remapped pml4 m [(virt, e)] m' ∧ m.allocs ⊆ m'.allocs := by
  obtain ⟨hholds, hmaps⟩ := h.toHolds.map_leaf hvirt hmap
  have hallocs : m.allocs ⊆ m'.allocs := by
    obtain ⟨new, hnew, -⟩ := hmaps.grows.allocs
    rw [hnew]
    exact subset_append_right _ _
  have hvalue : ∀ w, (i4 w).val < 256 →
      page_entry m' pml4 w = if vpn w = vpn virt then leaf e else page_entry m pml4 w := by
    intro w hw
    have hsame := hmaps.value _ (path_user hw) rfl (i1 w)
    simp only [path_inj] at hsame
    exact hsame
  refine ⟨⟨hholds, fun w e' hw he' => ?_⟩, ⟨fun w hw => ?_, hmaps.grows.used, hmaps.grows.tables⟩,
    hallocs⟩
  · rw [hvalue w hw] at he'
    split_ifs at he' with hpage
    · -- an entry that is present is itself what it leads to
      obtain rfl : e = e' := by
        unfold leaf at he'
        split_ifs at he' with hpresent
        exact Option.some.inj he'
      exact he.imp_left fun hdata => hdata.mono hallocs
    · exact (h.leaves w e' hw he').imp_left fun hdata => hdata.mono hallocs
  · rw [hvalue w hw]
    by_cases hpage : vpn w = vpn virt
    · exact .inl ⟨(virt, e), mem_singleton_self _, hpage, if_pos hpage⟩
    · refine .inr ⟨fun ve hve => ?_, if_neg hpage⟩
      rw [mem_singleton.mp hve]
      exact hpage

end

/-! ## Pages that are added -/

theorem confined_alloc (h : Confined K S mem₀ cr3 pml4 m) {u : Use} (hu : data_use u = true)
    (fault : Fault) :
    Post (alloc u fault) m (fun f m' => Confined K S mem₀ cr3 pml4 m' ∧ Remapped pml4 m [] m'
      ∧ m.allocs ⊆ m'.allocs
      ∧ Mach.IsData m' f) (fun _ m' => Confined K S mem₀ cr3 pml4 m') := by
  refine (post_alloc u fault m).mono (fun f m1 htakes => ?_) ?_
  · obtain ⟨hconfined, hsame, hallocs⟩ := h.takes htakes
    refine ⟨hconfined, hsame, hallocs, u, ?_, hu⟩
    rw [htakes.allocs]
    exact mem_cons_self
  · rintro - _ ⟨-, rfl⟩
    exact h

theorem confined_map (h : Confined K S mem₀ cr3 pml4 m) (hvirt : (i4 virt).val < 256)
    (he : Mach.IsData m (frame e) ∨ frame e ∈ S) :
    Post (map pml4 virt e) m (fun _ m' => Confined K S mem₀ cr3 pml4 m'
      ∧ Remapped pml4 m [(virt, e)] m' ∧ m.allocs ⊆ m'.allocs)
      (fun _ m' => Confined K S mem₀ cr3 pml4 m') := by
  cases hmap : Paging.map_leaf m pml4 virt e with
  | none =>
    have hrun : map pml4 virt e m = .error .panic m := by simp only [map, mapping, hmap]
    exact Post.of_eq_error hrun h
  | some m' =>
    have hrun : map pml4 virt e m = .ok () m' := by simp only [map, mapping, hmap]
    exact Post.of_eq_ok hrun (h.map_leaf hvirt he hmap)

theorem frame_flags (f : Frame) : frame (f.addr ||| (USER ||| WRITE) ||| PRESENT) = f := by
  rw [frame_or _ (by decide), frame_or _ (by decide), frame_addr]

/-- A new page is zeroed and mapped, and then comes the rest. -/
theorem confined_new_page {α : Type} {rest : Unit → KernelM α} {Q : α → Mach → Prop}
    (h : Confined K S mem₀ cr3 pml4 m) (hf : Mach.IsData m f) (hvirt : (i4 virt).val < 256)
    (he : frame e = f) (hrest : ∀ m', Confined K S mem₀ cr3 pml4 m' →
      Remapped pml4 m [(virt, e)] m' → m.allocs ⊆ m'.allocs →
      Post (rest ()) m' Q fun _ m' => Confined K S mem₀ cr3 pml4 m') :
    Post (zero f >>= fun _ => map pml4 virt e >>= rest) m Q fun _ m' =>
      Confined K S mem₀ cr3 pml4 m' := by
  obtain ⟨hzero, hsame⟩ := h.write_data hf fun g hg => sameFrame_zero_page hg
  refine Post.step (rfl : zero f m = .ok () { m with mem := zero_page m.mem f }) ?_
  refine Post.seq (confined_map hzero hvirt (.inl (he ▸ hf))) ?_
  rintro - m' ⟨hconfined, hmapped, hallocs⟩
  exact hrest m' hconfined (hsame.trans hmapped) hallocs

/-- The frames of the image are memory of the process. -/
def PageMap.Data (page_map : PageMap) (m : Mach) : Prop := ∀ vp ∈ page_map, Mach.IsData m vp.2

theorem PageMap.Data.mono (h : page_map.Data m) (hallocs : m.allocs ⊆ m'.allocs) :
    page_map.Data m' :=
  fun vp hvp => (h vp hvp).mono hallocs

theorem confined_image_page (h : Confined K S mem₀ cr3 pml4 m) (hdata : page_map.Data m)
    (hvirt : (i4 virt).val < 256) : Post (image_page pml4 virt page_map) m
      (fun r m' => Confined K S mem₀ cr3 pml4 m' ∧ PageMap.Data r.2 m' ∧ Mach.IsData m' r.1)
      (fun _ m' => Confined K S mem₀ cr3 pml4 m') := by
  unfold image_page
  cases hfind : page_map.find? fun vp => vp.1 = virt with
  | some vp => exact Post.pure ⟨h, hdata, hdata vp (mem_of_find?_eq_some hfind)⟩
  | none =>
    refine Post.seq (confined_alloc h (by rfl) _) ?_
    rintro f m1 ⟨h1, -, hallocs1, hf⟩
    refine confined_new_page h1 hf hvirt (frame_flags f) ?_
    intro m2 h2 _ hallocs2
    refine Post.pure ⟨h2, fun vp hvp => ?_, hf.mono hallocs2⟩
    rcases mem_append.mp hvp with hold | hnew
    · exact hdata.mono (List.Subset.trans hallocs1 hallocs2) vp hold
    · rw [mem_singleton.mp hnew]
      exact hf.mono hallocs2

theorem confined_fill_page (h : Confined K S mem₀ cr3 pml4 m) (hdata : page_map.Data m)
    {phys : Frame} (hphys : Mach.IsData m phys) (data : List UInt8) (ph : Phdr) (p : ℕ) :
    Post (fill_page data ph p phys) m (fun _ m' => Confined K S mem₀ cr3 pml4 m' ∧ page_map.Data m')
      (fun _ m' => Confined K S mem₀ cr3 pml4 m') := by
  unfold fill_page
  dsimp only
  split
  · split
    case isTrue hbound =>
      -- the bytes stay inside the page
      refine Post.of_eq_ok rfl ⟨(h.write_data hphys fun g hg => ?_).1, hdata⟩
      intro a hlow hhigh
      have hapart := frame_apart hg
      refine Mem.byte_write_outside _ _ _ ?_
      rw [length_take]
      omega
    case isFalse => exact h
  · exact Post.pure ⟨h, hdata⟩

theorem confined_load_pages (data : List UInt8) (ph : Phdr) (n : ℕ) :
    ∀ (p : ℕ) (page_map : PageMap) (m : Mach),
      (∀ k, p ≤ k → k < p + n → (i4 (ph.virt k)).val < 256) →
      Confined K S mem₀ cr3 pml4 m → page_map.Data m →
      Post (load_pages data pml4 ph n p page_map) m
        (fun r m' => Confined K S mem₀ cr3 pml4 m' ∧ PageMap.Data r m')
        (fun _ m' => Confined K S mem₀ cr3 pml4 m') := by
  induction n with
  | zero => exact fun _ _ _ _ h hdata => Post.pure ⟨h, hdata⟩
  | succ n ih =>
    intro p page_map m hvirt h hdata
    refine Post.seq (confined_image_page h hdata (hvirt p (le_rfl) (by omega))) ?_
    rintro ⟨phys, page_map'⟩ m1 ⟨h1, hdata1, hphys⟩
    refine Post.seq (confined_fill_page h1 hdata1 hphys data ph p) ?_
    rintro - m2 ⟨h2, hdata2⟩
    exact ih (p + 1) page_map' m2 (fun k hlow hhigh => hvirt k (by omega) (by omega)) h2 hdata2

end

/-! ## Addresses -/

theorem toNat_page_floor (x : UInt64) : (page_floor x).toNat = x.toNat / 4096 * 4096 := by
  have hmask : (~~~(4095 : UInt64)).toNat = 2 ^ 64 - 2 ^ 12 := by decide
  rw [page_floor, UInt64.toNat_and, hmask]
  exact and_high_mask x.toNat_lt (by decide)

/-- The segment ends at or below the address. -/
def Phdr.EndsBelow (ph : Phdr) (limit : ℕ) : Prop := ph.p_vaddr.toNat + ph.p_memsz.toNat ≤ limit

/-- The header brings a segment into memory. -/
def Phdr.Loads (ph : Phdr) : Prop := ph.p_type = 1 ∧ ph.p_memsz ≠ 0

/-- The header `i` of the file. -/
def header (data : List UInt8) (i : ℕ) : Phdr := phdr data (ph_off data i).toNat

/-- All segments lie in the user half. -/
def UserImage (data : List UInt8) : Prop :=
  ∀ i < e_phnum data, (header data i).Loads → (header data i).EndsBelow (2 ^ 47)

/-- The pages of a segment of the user half. -/
theorem Phdr.toNat_virt {ph : Phdr} (h : ph.EndsBelow (2 ^ 47)) {p : ℕ} (hp : p < ph.num_pages) :
    (ph.virt p).toNat = (ph.p_vaddr.toNat / 4096 + p) * 4096 ∧ (ph.virt p).toNat < 2 ^ 47 := by
  unfold EndsBelow at h
  have hend : (ph.p_vaddr + ph.p_memsz + 4095).toNat
      = ph.p_vaddr.toNat + ph.p_memsz.toNat + 4095 := by
    rw [UInt64.toNat_add, UInt64.toNat_add, show (4095 : UInt64).toNat = 4095 from rfl]
    omega
  have hstart : ph.page_start.toNat = ph.p_vaddr.toNat / 4096 * 4096 := toNat_page_floor _
  have hpages : ph.num_pages = (ph.p_vaddr.toNat + ph.p_memsz.toNat + 4095) / 4096
      - ph.p_vaddr.toNat / 4096 := by
    have hlast : ph.page_end.toNat
        = (ph.p_vaddr.toNat + ph.p_memsz.toNat + 4095) / 4096 * 4096 := by
      unfold Phdr.page_end
      rw [toNat_page_floor, hend]
    unfold Phdr.num_pages
    rw [UInt64.toNat_div, UInt64.toNat_sub, hlast, hstart,
      show (4096 : UInt64).toNat = 4096 from rfl]
    omega
  have hvirt : (ph.virt p).toNat = (ph.p_vaddr.toNat / 4096 + p) * 4096 := by
    unfold Phdr.virt
    rw [UInt64.toNat_add, UInt64.toNat_mul, UInt64.toNat_ofNat', hstart,
      show (4096 : UInt64).toNat = 4096 from rfl]
    omega
  exact ⟨hvirt, by omega⟩

theorem i4_of_lt (h : virt.toNat < 2 ^ 47) : (i4 virt).val < 256 := by
  rw [i4_lt_iff]
  unfold vpn
  omega

theorem i4_stack {i : ℕ} (hi : i < USER_STACK_PAGES) :
    (i4 (USER_STACK_BASE + UInt64.ofNat i * 4096)).val < 256 := by
  apply i4_of_lt
  unfold USER_STACK_PAGES at hi
  unfold USER_STACK_BASE
  rw [UInt64.toNat_add, UInt64.toNat_mul, UInt64.toNat_ofNat',
    show (4096 : UInt64).toNat = 4096 from rfl,
    show (0x7FFF7000 : UInt64).toNat = 0x7FFF7000 from rfl]
  omega

/-! ## The launch -/

section

variable {K S : Set Frame} {mem₀ : Ram} {cr3 pml4 : Frame} {m m' : Mach}

theorem confined_load_header (h : Confined K S mem₀ cr3 pml4 m) (hdata : page_map.Data m)
    {i : ℕ} (hlow : (header data i).Loads → (header data i).EndsBelow (2 ^ 47)) :
    Post (load_header data pml4 i page_map) m (fun r m' => Confined K S mem₀ cr3 pml4 m'
      ∧ PageMap.Data r m')
      (fun _ m' => Confined K S mem₀ cr3 pml4 m') := by
  unfold load_header
  dsimp only
  split
  · exact Post.throw h
  split
  · exact Post.throw h
  split
  · exact Post.pure ⟨h, hdata⟩
  case isFalse htype =>
    split
    · exact Post.pure ⟨h, hdata⟩
    case isFalse hmemsz =>
      split
      · exact Post.throw h
      · have hends := hlow ⟨not_not.mp htype, hmemsz⟩
        refine confined_load_pages data _ _ 0 page_map m (fun k _ hk => ?_) h hdata
        exact i4_of_lt (Phdr.toNat_virt hends (by rwa [Nat.zero_add] at hk)).2

theorem confined_load_headers (is : List ℕ) : ∀ (page_map : PageMap) (m : Mach),
      (∀ i ∈ is, (header data i).Loads → (header data i).EndsBelow (2 ^ 47)) →
      Confined K S mem₀ cr3 pml4 m → page_map.Data m →
      Post (load_headers data pml4 is page_map) m (fun r m' => Confined K S mem₀ cr3 pml4 m'
        ∧ PageMap.Data r m')
        (fun _ m' => Confined K S mem₀ cr3 pml4 m') := by
  induction is with
  | nil => exact fun _ _ _ h hdata => Post.pure ⟨h, hdata⟩
  | cons i is ih =>
    intro page_map m hlow h hdata
    refine Post.seq (confined_load_header h hdata (hlow i mem_cons_self)) ?_
    rintro page_map' m1 ⟨h1, hdata1⟩
    exact ih page_map' m1 (fun j hj => hlow j (mem_cons_of_mem _ hj)) h1 hdata1

theorem confined_load (h : Confined K S mem₀ cr3 pml4 m) (himage : UserImage data) :
    Post (load data pml4) m (fun _ m' => Confined K S mem₀ cr3 pml4 m')
      (fun _ m' => Confined K S mem₀ cr3 pml4 m') := by
  iterate 7 refine Post.guard (fun _ => h) fun _ => ?_
  have hlow : ∀ i ∈ List.range (e_phnum data), (header data i).Loads →
      (header data i).EndsBelow (2 ^ 47) :=
    fun i hi => himage i (mem_range.mp hi)
  refine Post.seq (confined_load_headers _ [] m hlow h fun _ hvp => absurd hvp not_mem_nil) ?_
  rintro page_map m1 ⟨h1, -⟩
  exact Post.guard (fun _ => h1) fun _ => Post.pure h1

theorem confined_map_stack (is : List ℕ) :
    ∀ m : Mach, (∀ i ∈ is, i < USER_STACK_PAGES) → Confined K S mem₀ cr3 pml4 m →
      Post (map_stack pml4 is) m (fun _ m' => Confined K S mem₀ cr3 pml4 m')
        (fun _ m' => Confined K S mem₀ cr3 pml4 m') := by
  induction is with
  | nil => exact fun _ _ h => Post.pure h
  | cons i is ih =>
    intro m his h
    refine Post.seq (confined_alloc h (by rfl) _) ?_
    rintro f m1 ⟨h1, -, -, hf⟩
    refine confined_new_page h1 hf (i4_stack (his i mem_cons_self)) (frame_flags f) ?_
    intro m2 h2 _ _
    refine Post.seq (ih m2 (fun j hj => his j (mem_cons_of_mem _ hj)) h2) ?_
    exact fun _ _ h3 => Post.pure h3

end

/-! ## `create_user_pml4` -/

section

variable {mem : Ram} {cr3 pml4 : Frame}

theorem copy_entries_frame {g : Frame} (hg : g ≠ pml4) (l : List ℕ) :
    ∀ mem, SameFrame mem (copy_entries mem cr3 pml4 l) g := by
  induction l with
  | nil => exact fun mem => .refl _ _
  | cons k l ih => exact fun mem => (sameFrame_set_entry hg _ _).trans (ih _)

theorem copy_entries_other {i : Fin 512} (l : List ℕ) : ∀ mem, (∀ k ∈ l, Fin.ofNat 512 k ≠ i) →
      Paging.entry (copy_entries mem cr3 pml4 l) pml4 i = Paging.entry mem pml4 i := by
  induction l with
  | nil => exact fun _ _ => rfl
  | cons k l ih =>
    intro mem hother
    refine (ih _ fun j hj => hother j (mem_cons_of_mem _ hj)).trans ?_
    rw [entry_set_entry, store_of_ne (.inr (hother k mem_cons_self).symm)]

theorem copy_entries_copied (hne : cr3 ≠ pml4) {i : Fin 512} (l : List ℕ) :
    ∀ mem, (∃ k ∈ l, Fin.ofNat 512 k = i) →
      Paging.entry (copy_entries mem cr3 pml4 l) pml4 i = Paging.entry mem cr3 i := by
  induction l with
  | nil =>
    rintro mem ⟨k, hk, -⟩
    simp at hk
  | cons k l ih =>
    rintro mem ⟨j, hj, hi⟩
    by_cases hlater : ∃ j ∈ l, Fin.ofNat 512 j = i
    · refine (ih _ hlater).trans ?_
      exact (sameFrame_set_entry hne _ _).entry i
    · have hhere : Fin.ofNat 512 k = i := by
        rcases mem_cons.mp hj with rfl | hj
        · exact hi
        · exact absurd ⟨j, hj, hi⟩ hlater
      have hother : ∀ j ∈ l, Fin.ofNat 512 j ≠ i := fun j hj heq => hlater ⟨j, hj, heq⟩
      refine (copy_entries_other l _ hother).trans ?_
      rw [entry_set_entry, hhere, store_self]

end

/-- An address space in which the user half is empty. -/
structure Begun (cr3 : Frame) (m : Mach) (pml4 : Frame) (m' : Mach) : Prop where
  takes : ∃ m₁, m.Takes .pml4 pml4 m₁ ∧ m'.pmm = m₁.pmm ∧ m'.allocs = m₁.allocs
  kept : ∀ g, g ≠ pml4 → SameFrame m.mem m'.mem g
  low : ∀ i : Fin 512, i.val < 256 → Paging.entry m'.mem pml4 i = 0
  high : cr3 ≠ pml4 → ∀ i : Fin 512, 256 ≤ i.val →
    Paging.entry m'.mem pml4 i = Paging.entry m.mem cr3 i

theorem begun_of_takes (cr3 : Frame) {pml4 : Frame} {m m1 : Mach} (htakes : m.Takes .pml4 pml4 m1) :
    Begun cr3 m pml4 { m1 with
      mem := copy_entries (zero_page m1.mem pml4) cr3 pml4 (List.range' 256 256) } := by
  have hmem : ∀ {k : ℕ}, k ∈ List.range' 256 256 ↔ 256 ≤ k ∧ k < 512 := mem_range'_1
  generalize List.range' 256 256 = l at hmem ⊢
  refine ⟨⟨m1, htakes, rfl, rfl⟩, fun g hg => ?_, fun i hi => ?_, fun hne i hi => ?_⟩
  · rw [← htakes.mem]
    exact (sameFrame_zero_page hg).trans (copy_entries_frame hg _ _)
  · refine (copy_entries_other l _ fun k hk heq => ?_).trans ?_
    · have hval : k % 512 = i.val := congrArg Fin.val heq
      have hrange := hmem.mp hk
      omega
    · rw [entry_zero_page]
      unfold clear
      rw [Function.update_self]
  · refine (copy_entries_copied hne l _ ⟨i.val, hmem.mpr ⟨hi, i.isLt⟩, ?_⟩).trans ?_
    · exact Fin.ext (Nat.mod_eq_of_lt i.isLt)
    · rw [← htakes.mem]
      exact (sameFrame_zero_page hne).entry i

theorem begun_create_user_pml4 (cr3 : Frame) (m : Mach) :
    Post (create_user_pml4 cr3) m (fun pml4 m' => Begun cr3 m pml4 m') (fun _ m' => m' = m) := by
  refine Post.andThen (post_alloc .pml4 .panic m) (fun _ _ he => he.2) fun pml4 m1 htakes => ?_
  refine Post.step rfl (Post.step rfl (Post.pure ?_))
  exact begun_of_takes cr3 htakes

section

variable {K S : Set Frame} {cr3 pml4 : Frame} {m m' : Mach}

section

variable (h : Begun cr3 m pml4 m')

include h

theorem Begun.follow_eq {p : List (Fin 512)} (hp : p ∈ UserPath) {g : Frame}
    (hg : follow child (Paging.entry m'.mem) pml4 p = some g) : p = [] ∧ g = pml4 := by
  cases p with
  | nil => exact ⟨rfl, (Option.some.inj hg).symm⟩
  | cons i p =>
    have hzero := h.low i (hp.2 i rfl)
    unfold follow at hg
    rw [hzero, child_zero] at hg
    simp at hg

theorem Begun.space : Space m' pml4 := by
  obtain ⟨m1, htakes, hpmm, -⟩ := h.takes
  constructor
  · intro p hp q hq t hpt hqt
    rw [(h.follow_eq hp hpt).1, (h.follow_eq hq hqt).1]
  · rintro g ⟨p, hp, hg⟩
    rw [(h.follow_eq hp hg).2, hpmm, htakes.used, decide_eq_true rfl, Bool.or_true]
    exact ⟨htakes.lt, rfl⟩
  · intro p hp _ t ht i hi
    obtain ⟨rfl, rfl⟩ := h.follow_eq hp ht
    exact .inl (h.low i (hi rfl))

theorem Begun.page_entry_eq (hvirt : (i4 virt).val < 256) :
    page_entry m' pml4 virt = none := by
  unfold page_entry Paging.translate value
  cases hfollow : follow child (Paging.entry m'.mem) pml4 (path virt) with
  | none => rfl
  | some g => exact absurd (h.follow_eq (path_user hvirt) hfollow).1 (cons_ne_nil _ _)

/-- The kernel's half is the one of the tables in use, and the frames of `K` are as they were. -/
theorem Begun.confined (hcr3 : is_used m.pmm cr3.val = true)
    (hK : ∀ g ∈ K, is_used m.pmm g.val = true) (hallocs : m.allocs = []) :
    Confined K S m.mem cr3 pml4 m' := by
  obtain ⟨m1, htakes, hpmm, hallocs'⟩ := h.takes
  -- the new page was nobody's
  have hfresh : ∀ g : Frame, is_used m.pmm g.val = true → g ≠ pml4 := by
    rintro g hg rfl
    rw [htakes.free] at hg
    exact absurd hg (by decide)
  refine ⟨⟨h.space, fun g hg => ?_, fun g hg => h.kept g (hfresh g (hK g hg)), ?_,
    fun u f hf hu => ?_, h.high (hfresh cr3 hcr3)⟩, fun virt e hvirt he => ?_⟩
  · rw [hpmm, htakes.used, hK g hg, Bool.true_or]
  · rintro g ⟨p, hp, hg⟩ hgK
    exact hfresh g (hK g hgK) (h.follow_eq hp hg).2
  · rw [hallocs', htakes.allocs, hallocs] at hf
    obtain ⟨rfl, -⟩ := Prod.mk.inj (mem_singleton.mp hf)
    exact absurd hu (by decide)
  · rw [h.page_entry_eq hvirt] at he
    simp at he

/-- What holds without a word about the tables in use. -/
theorem Begun.confined_alone (hallocs : m.allocs = []) :
    Confined ∅ Set.univ m'.mem pml4 pml4 m' := by
  obtain ⟨m1, htakes, hpmm, hallocs'⟩ := h.takes
  refine ⟨⟨h.space, fun _ hg => absurd hg id, fun _ hg => absurd hg id, fun _ _ hg => hg,
    fun u f hf hu => ?_, fun _ _ => rfl⟩, fun _ _ _ _ => .inr (Set.mem_univ _)⟩
  rw [hallocs', htakes.allocs, hallocs] at hf
  obtain ⟨rfl, -⟩ := Prod.mk.inj (mem_singleton.mp hf)
  exact absurd hu (by decide)

end

/-- The rest of the launch. -/
theorem Confined.launch_rest {mem₀ : Ram} (h : Confined K S mem₀ cr3 pml4 m) {data : List UInt8}
    (himage : UserImage data) :
    Post (do
      let loaded ← load data pml4
      let stack_pages ← map_stack pml4 (List.range USER_STACK_PAGES)
      pure (⟨pml4, loaded, stack_pages, USER_MMIO_BASE⟩ : Proc)) m
      (fun p m' => p.pml4 = pml4 ∧ Confined K S mem₀ cr3 pml4 m' ∧ p.mmio_next_va = USER_MMIO_BASE)
      (fun _ m' => Confined K S mem₀ cr3 pml4 m') := by
  refine Post.seq (confined_load h himage) fun loaded m1 h1 => ?_
  refine Post.seq (confined_map_stack _ m1 (fun i hi => mem_range.mp hi) h1) fun pages m2 h2 => ?_
  exact Post.pure ⟨rfl, h2, rfl⟩

end

/-! ## The mapping calls -/

section

variable {K S : Set Frame} {mem₀ : Ram} {cr3 pml4 : Frame}

/-- The entry that `map_page_current_user` makes. -/
def mmio_entry (phys_base : UInt64) (i : ℕ) : UInt64 :=
  (phys_base + UInt64.ofNat i * 4096) ||| (WRITE ||| NOCACHE) ||| PRESENT ||| USER

theorem confined_mmio_pages (virt_base phys_base : UInt64) (is : List ℕ) :
    ∀ m : Mach, (∀ i ∈ is, (i4 (virt_base + UInt64.ofNat i * 4096)).val < 256) →
      (∀ i ∈ is, frame (mmio_entry phys_base i) ∈ S) → Confined K S mem₀ cr3 pml4 m →
      Post (map_mmio_pages pml4 virt_base phys_base is) m (fun _ m' => Confined K S mem₀ cr3 pml4 m'
          ∧ Remapped pml4 m
            (is.map fun i => (virt_base + UInt64.ofNat i * 4096, mmio_entry phys_base i)) m')
        (fun _ m' => Confined K S mem₀ cr3 pml4 m') := by
  induction is with
  | nil => exact fun _ _ _ h => Post.pure ⟨h, .refl⟩
  | cons i is ih =>
    intro m hvirt hS h
    refine Post.seq (confined_map h (hvirt i mem_cons_self) (.inr (hS i mem_cons_self))) ?_
    rintro - m1 ⟨h1, hmapped, -⟩
    refine (ih m1 (fun j hj => hvirt j (mem_cons_of_mem _ hj))
      (fun j hj => hS j (mem_cons_of_mem _ hj)) h1).mono
      ?_ fun _ _ h' => h'
    rintro - m2 ⟨h2, hmapped'⟩
    exact ⟨h2, hmapped.trans hmapped'⟩

theorem frame_anon (f : Frame) : frame (f.addr ||| WRITE ||| PRESENT ||| USER) = f := by
  rw [frame_or _ (by decide), frame_or _ (by decide), frame_or _ (by decide), frame_addr]

theorem confined_anon_pages (virt_base : UInt64) (is : List ℕ) :
    ∀ m : Mach, (∀ i ∈ is, (i4 (virt_base + UInt64.ofNat i * 4096)).val < 256) →
      Confined K S mem₀ cr3 pml4 m →
      Post (map_anon_pages pml4 virt_base is) m
        (fun _ m' => Confined K S mem₀ cr3 pml4 m' ∧ ∃ ves, Remapped pml4 m ves m'
          ∧ ∀ ve ∈ ves, ∃ i ∈ is, ve.1 = virt_base + UInt64.ofNat i * 4096)
        (fun _ m' => Confined K S mem₀ cr3 pml4 m') := by
  induction is with
  | nil => exact fun _ _ h => Post.pure ⟨h, [], .refl, by simp⟩
  | cons i is ih =>
    intro m hvirt h
    cases halloc : m.alloc .anon with
    | none =>
      have hrun : map_anon_pages pml4 virt_base (i :: is) m
        = .ok false m := by simp only [map_anon_pages, halloc]
      exact Post.of_eq_ok hrun ⟨h, [], .refl, by simp⟩
    | some r =>
      obtain ⟨f, m1⟩ := r
      have htakes := Mach.alloc_spec halloc
      obtain ⟨h1, hsame, -⟩ := h.takes htakes
      have hf : Mach.IsData m1 f := ⟨.anon, htakes.allocs ▸ mem_cons_self, rfl⟩
      have hrest : Post (do
          zero f
          map_current_user pml4 (virt_base + UInt64.ofNat i * 4096) f.addr WRITE
          map_anon_pages pml4 virt_base is) m1
          (fun _ m' => Confined K S mem₀ cr3 pml4 m' ∧ ∃ ves, Remapped pml4 m ves m'
            ∧ ∀ ve ∈ ves, ∃ j ∈ i :: is, ve.1 = virt_base + UInt64.ofNat j * 4096)
          (fun _ m' => Confined K S mem₀ cr3 pml4 m') := by
        refine confined_new_page h1 hf (hvirt i mem_cons_self) (frame_anon f) ?_
        intro m2 h2 hmapped _
        refine (ih m2 (fun j hj => hvirt j (mem_cons_of_mem _ hj)) h2).mono ?_ fun _ _ h' => h'
        rintro - m3 ⟨h3, ves, hmapped', hves⟩
        refine ⟨h3, _, (hsame.trans hmapped).trans hmapped', fun ve hve => ?_⟩
        rcases mem_cons.mp hve with rfl | hve
        · exact ⟨i, mem_cons_self, rfl⟩
        · obtain ⟨j, hj, heq⟩ := hves ve hve
          exact ⟨j, mem_cons_of_mem _ hj, heq⟩
      unfold Post at hrest ⊢
      simp only [map_anon_pages, halloc]
      exact hrest

end

end HepOS.Process
