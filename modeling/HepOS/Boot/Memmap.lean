/-
The memory map on its way from the firmware to the page allocator: the loop of `efi_main_inner` in
`hepbl` that turns the descriptors of `GetMemoryMap` into the regions of `BootInfo`, and `pmm::init`
on those regions.

The loop appends a descriptor to the last region when it has the same type and starts where that
region ends, and stops when the table is full. A region is therefore a chain of descriptors of one
type; nothing else gets into it (`MadeOf`), and while the table has room nothing is lost
(`Includes`). Both are shown for one step of the loop and carried through it.

The sums are those of `u64` in a release build. A chain may wrap around at the end of the address
space: the region of such a chain has its end before its start, `init` frees none of its pages, and
what is freed elsewhere is still right. This is the one case in which conventional memory above 1
MiB is lost although the table has room.
-/
import HepOS.Pmm.Accounting

set_option autoImplicit false

namespace HepOS.Boot.Memmap

open Phys Trace List Bool

/-! ## The loop -/

structure MemoryDescriptor where
  typ : UInt32
  phys_start : UInt64
  num_pages : UInt64
deriving DecidableEq, Repr

def EFI_CONVENTIONAL_MEMORY : UInt32 := 7

def MAX_MEMMAP : ℕ := 128

/-- `base`, `len` and `typ` of a turn of the loop. -/
def MemoryDescriptor.region (d : MemoryDescriptor) : MemRegion where
  base := d.phys_start
  len := d.num_pages * 4096
  typ := if d.typ = EFI_CONVENTIONAL_MEMORY then 1 else 0

/-- `prev.len += len` for the last region, if there is one that the descriptor goes on from. The
regions stand in the order of the stack: the last one comes first. -/
def extend : List MemRegion → MemRegion → Option (List MemRegion)
  | [], _ => none
  | prev :: rest, r =>
    if prev.typ = r.typ ∧ prev.base + prev.len = r.base then
      some ({ prev with len := prev.len + r.len } :: rest)
    else none

def convert_from : List MemRegion → List MemoryDescriptor → List MemRegion
  | regions, [] => regions
  | regions, d :: ds =>
    match extend regions d.region with
    | some regions' => convert_from regions' ds
    | none =>
      -- `if n >= MAX_MEMMAP { break; }`
      if MAX_MEMMAP ≤ regions.length then regions else convert_from (d.region :: regions) ds

section

variable (ds : List MemoryDescriptor)

/-- `bi.memmap[..bi.memmap_count]`, which `kmain` gives to `pmm::init`. -/
def convert : List MemRegion := (convert_from [] ds).reverse

/-! ## The merged list

The same regions from a table without an end. The loop gives those of a first part of the
descriptors. -/

def push (regions : List MemRegion) (r : MemRegion) : List MemRegion :=
  (extend regions r).getD (r :: regions)

def merge_from (regions : List MemRegion) (ds : List MemoryDescriptor) : List MemRegion :=
  ds.foldl (fun regions d => push regions d.region) regions

def merged : List MemRegion := (merge_from [] ds).reverse

theorem merge_from_cons (regions : List MemRegion) (d : MemoryDescriptor)
    (ds : List MemoryDescriptor) :
    merge_from regions (d :: ds) = merge_from (push regions d.region) ds := rfl

/-- The two ways a step of the loop goes. -/
theorem push_cases (regions : List MemRegion) (r : MemRegion) :
    (extend regions r = none ∧ push regions r = r :: regions)
      ∨ ∃ prev rest, regions = prev :: rest ∧ prev.typ = r.typ ∧ prev.base + prev.len = r.base
        ∧ extend regions r = some (push regions r)
        ∧ push regions r = { prev with len := prev.len + r.len } :: rest := by
  cases regions with
  | nil => exact .inl ⟨rfl, rfl⟩
  | cons prev rest =>
    by_cases h : prev.typ = r.typ ∧ prev.base + prev.len = r.base
    · have hext : extend (prev :: rest) r = some ({ prev with len := prev.len + r.len } :: rest) :=
        if_pos h
      have hpush : push (prev :: rest) r = { prev with len := prev.len + r.len } :: rest := by
        rw [push, hext, Option.getD_some]
      exact .inr ⟨prev, rest, rfl, h.1, h.2, by rw [hext, hpush], hpush⟩
    · have hext : extend (prev :: rest) r = none := if_neg h
      exact .inl ⟨hext, by rw [push, hext, Option.getD_none]⟩

theorem length_push (regions : List MemRegion) (r : MemRegion) :
    regions.length ≤ (push regions r).length := by
  rcases push_cases regions r with ⟨-, hpush⟩ | ⟨prev, rest, rfl, -, -, -, hpush⟩
  · rw [hpush, length_cons]
    omega
  · rw [hpush, length_cons, length_cons]

theorem length_merge_from (ds : List MemoryDescriptor) : ∀ regions : List MemRegion,
    regions.length ≤ (merge_from regions ds).length := by
  induction ds with
  | nil => exact fun regions => le_rfl
  | cons d ds ih => exact fun regions => (length_push regions d.region).trans (ih _)

/-- The loop stops early only when the merged list is longer than the table. -/
theorem convert_from_spec (ds : List MemoryDescriptor) : ∀ regions : List MemRegion,
    (∃ ds', ds' <+: ds ∧ convert_from regions ds = merge_from regions ds')
      ∧ ((merge_from regions ds).length ≤ MAX_MEMMAP →
        convert_from regions ds = merge_from regions ds) := by
  induction ds with
  | nil => exact fun regions => ⟨⟨[], prefix_refl _, rfl⟩, fun _ => rfl⟩
  | cons d ds ih =>
    intro regions
    -- a turn that does not leave the loop
    have hturn : convert_from regions (d :: ds) = convert_from (push regions d.region) ds →
        (∃ ds', ds' <+: d :: ds ∧ convert_from regions (d :: ds) = merge_from regions ds')
          ∧ ((merge_from regions (d :: ds)).length ≤ MAX_MEMMAP →
            convert_from regions (d :: ds) = merge_from regions (d :: ds)) := by
      intro heq
      obtain ⟨⟨ds', hpre, hds'⟩, hfull⟩ := ih (push regions d.region)
      rw [heq]
      exact ⟨⟨d :: ds', cons_prefix_cons.mpr ⟨rfl, hpre⟩, hds'⟩, hfull⟩
    rcases push_cases regions d.region with ⟨hext, hpush⟩ | ⟨prev, rest, -, -, -, hext, -⟩
    · by_cases hroom : MAX_MEMMAP ≤ regions.length
      · have hstop : convert_from regions (d :: ds) = regions := by
          rw [convert_from, hext]
          exact if_pos hroom
        refine ⟨⟨[], nil_prefix, hstop⟩, fun hlen => ?_⟩
        have hmore := length_merge_from ds (push regions d.region)
        rw [hpush, length_cons] at hmore
        rw [merge_from_cons, hpush] at hlen
        omega
      · refine hturn ?_
        rw [convert_from, hext, hpush]
        exact if_neg hroom
    · refine hturn ?_
      rw [convert_from, hext]

theorem convert_prefix (ds : List MemoryDescriptor) : ∃ ds', ds' <+: ds
    ∧ convert ds = merged ds' := by
  obtain ⟨⟨ds', hpre, heq⟩, -⟩ := convert_from_spec ds []
  exact ⟨ds', hpre, congrArg List.reverse heq⟩

theorem convert_eq_merged {ds : List MemoryDescriptor} (h : (merged ds).length ≤ MAX_MEMMAP) :
    convert ds = merged ds := by
  unfold merged at h
  rw [length_reverse] at h
  exact congrArg List.reverse ((convert_from_spec ds []).2 h)

/-- What holds of the region of each descriptor, and of a region that goes on with another one,
holds of all. -/
theorem forall_merge_from {P : MemRegion → Prop}
    (hgrow : ∀ prev r : MemRegion, P prev → P r → prev.typ = r.typ → prev.base + prev.len = r.base →
      P { prev with len := prev.len + r.len })
    (ds : List MemoryDescriptor) : ∀ regions, (∀ d ∈ ds, P d.region) → (∀ e ∈ regions, P e) →
      ∀ e ∈ merge_from regions ds, P e := by
  induction ds with
  | nil => exact fun regions _ hregions => hregions
  | cons d ds ih =>
    intro regions hds hregions
    have hd := hds d mem_cons_self
    refine ih _ (fun d' hd' => hds d' (mem_cons_of_mem _ hd')) ?_
    show ∀ e ∈ push regions d.region, P e
    rcases push_cases regions d.region with ⟨-, hpush⟩ | ⟨prev, rest, rfl, htyp, hbase, -, hpush⟩
    · rw [hpush]
      exact forall_mem_cons.mpr ⟨hd, hregions⟩
    · obtain ⟨hprev, hrest⟩ := forall_mem_cons.mp hregions
      rw [hpush]
      exact forall_mem_cons.mpr ⟨hgrow prev _ hprev hd htyp hbase, hrest⟩

theorem forall_merged {P : MemRegion → Prop} {ds : List MemoryDescriptor}
    (hgrow : ∀ prev r : MemRegion, P prev → P r → prev.typ = r.typ → prev.base + prev.len = r.base →
      P { prev with len := prev.len + r.len })
    (hds : ∀ d ∈ ds, P d.region) : ∀ e ∈ merged ds, P e :=
  fun e he => forall_merge_from hgrow ds [] hds (by simp) e (mem_reverse.mp he)

/-! ## Memory maps -/

/-- The page is one of the descriptor's. -/
def MemoryDescriptor.Covers (d : MemoryDescriptor) (page : ℕ) : Prop :=
  d.phys_start.toNat ≤ page * PAGE_SIZE
    ∧ (page + 1) * PAGE_SIZE ≤ d.phys_start.toNat + d.num_pages.toNat * PAGE_SIZE

instance (d : MemoryDescriptor) (page : ℕ) : Decidable (d.Covers page) :=
  inferInstanceAs (Decidable (_ ∧ _))

/-- Descriptors of whole pages of the 64-bit address space, none of which has a page of another
one. -/
structure UefiMap : Prop where
  aligned : ∀ d ∈ ds, d.phys_start.toNat % PAGE_SIZE = 0
  fits : ∀ d ∈ ds, d.phys_start.toNat + d.num_pages.toNat * PAGE_SIZE ≤ 2 ^ 64
  apart : ds.Pairwise fun d d' => ∀ page, ¬ (d.Covers page ∧ d'.Covers page)

/-- The page was `EfiConventionalMemory`. -/
def Conventional (page : ℕ) : Prop :=
  ∃ d ∈ ds, d.typ = EFI_CONVENTIONAL_MEMORY ∧ d.Covers page

end

/-- The page lies in the region. -/
def Lies (e : MemRegion) (page : ℕ) : Prop :=
  e.base.toNat ≤ page * PAGE_SIZE ∧ (page + 1) * PAGE_SIZE ≤ e.base.toNat + e.len.toNat

variable {d : MemoryDescriptor} {page : ℕ} {e prev r : MemRegion}

theorem region_typ : d.region.typ = 1 ↔ d.typ = EFI_CONVENTIONAL_MEMORY := by
  show (if d.typ = EFI_CONVENTIONAL_MEMORY then (1 : UInt64) else 0) = 1 ↔ _
  split_ifs with h
  · exact iff_of_true rfl h
  · exact iff_of_false (by decide) h

/-- The length in bytes. It is 0 for the descriptor of the whole address space. -/
theorem region_len (d : MemoryDescriptor) : d.region.len.toNat
    = d.num_pages.toNat * PAGE_SIZE % 2 ^ 64 :=
  UInt64.toNat_mul _ _

section

variable {ds : List MemoryDescriptor}

/-- A page of a conventional descriptor is in no descriptor of another type. -/
theorem UefiMap.not_covers (h : UefiMap ds) (hpage : Conventional ds page) (hd : d ∈ ds)
    (htyp : d.typ ≠ EFI_CONVENTIONAL_MEMORY) : ¬ d.Covers page := by
  intro hcovers
  obtain ⟨d', hd', htyp', hcovers'⟩ := hpage
  have hne : d ≠ d' := fun heq => htyp (heq ▸ htyp')
  have hsymm : Std.Symm fun d d' : MemoryDescriptor => ∀ page, ¬ (d.Covers page ∧ d'.Covers page) :=
    ⟨fun _ _ hno page hboth => hno page hboth.symm⟩
  exact h.apart.forall hd hd' hne page ⟨hcovers, hcovers'⟩

theorem UefiMap.page_lt (h : UefiMap ds) (hpage : Conventional ds page) :
    page * PAGE_SIZE < 2 ^ 64 := by
  obtain ⟨d, hd, -, -, hcovers⟩ := hpage
  have hfits := h.fits d hd
  unfold PAGE_SIZE at *
  omega

/-! ## Nothing is made up -/

theorem add_sub_pages {n k : ℕ} (hn : n % PAGE_SIZE = 0) (hle : n ≤ k * PAGE_SIZE) :
    n + (k - n / PAGE_SIZE) * PAGE_SIZE = k * PAGE_SIZE := by
  unfold PAGE_SIZE at *
  omega

/-- Page by page, a region consists of pages of descriptors of its type. The pages are counted from
the start of the region, and come round at the end of the address space. -/
structure MadeOf (ds : List MemoryDescriptor) (e : MemRegion) : Prop where
  aligned : e.base.toNat % PAGE_SIZE = 0
  page : ∀ k, k * PAGE_SIZE < e.len.toNat →
    ∃ d ∈ ds, d.region.typ = e.typ ∧ d.Covers ((e.base.toNat + k * PAGE_SIZE) % 2 ^ 64 / PAGE_SIZE)
  whole : e.len.toNat % PAGE_SIZE = 0

theorem UefiMap.madeOf (h : UefiMap ds) (hd : d ∈ ds) : MadeOf ds d.region := by
  have haligned := h.aligned d hd
  have hfits := h.fits d hd
  have hlen := region_len d
  refine ⟨haligned, fun k hk => ⟨d, hd, rfl, ?_⟩, ?_⟩
  · show d.phys_start.toNat ≤ (d.phys_start.toNat + k * PAGE_SIZE) % 2 ^ 64 / PAGE_SIZE * PAGE_SIZE
      ∧ ((d.phys_start.toNat + k * PAGE_SIZE) % 2 ^ 64 / PAGE_SIZE + 1) * PAGE_SIZE ≤ _
    unfold PAGE_SIZE at *
    omega
  · unfold PAGE_SIZE at *
    omega

theorem MadeOf.grow (h : MadeOf ds prev) (hr : MadeOf ds r) (htyp : prev.typ = r.typ)
    (hbase : prev.base + prev.len = r.base) : MadeOf ds { prev with len := prev.len + r.len } := by
  have hbase' : (prev.base.toNat + prev.len.toNat) % 2 ^ 64 = r.base.toNat := by
    rw [← UInt64.toNat_add, hbase]
  have hlen : (prev.len + r.len).toNat = (prev.len.toNat + r.len.toNat) % 2 ^ 64 :=
    UInt64.toNat_add _ _
  have haligned := h.aligned
  have hwhole := h.whole
  have hwhole' := hr.whole
  refine ⟨haligned, fun k hk => ?_, ?_⟩
  · have hk : k * PAGE_SIZE < (prev.len + r.len).toNat := hk
    by_cases hold : k * PAGE_SIZE < prev.len.toNat
    · exact h.page k hold
    · -- the page is one of the new part, counted from its start
      have hsplit := add_sub_pages hwhole (Nat.not_lt.mp hold)
      obtain ⟨d, hd, hdtyp, hcovers⟩ := hr.page (k - prev.len.toNat / PAGE_SIZE) (by omega)
      refine ⟨d, hd, hdtyp.trans htyp.symm, ?_⟩
      have hsame : (r.base.toNat + (k - prev.len.toNat / PAGE_SIZE) * PAGE_SIZE) % 2 ^ 64
          = (prev.base.toNat + k * PAGE_SIZE) % 2 ^ 64 := by
        omega
      rw [hsame] at hcovers
      exact hcovers
  · show (prev.len + r.len).toNat % PAGE_SIZE = 0
    unfold PAGE_SIZE at *
    omega

theorem UefiMap.madeOf_merged (h : UefiMap ds) {ds' : List MemoryDescriptor} (hsub : ds' ⊆ ds) :
    ∀ e ∈ merged ds', MadeOf ds e :=
  forall_merged (fun _ _ hprev hr => hprev.grow hr) fun _ hd => h.madeOf (hsub hd)

theorem MadeOf.covers (h : MadeOf ds e) (hlies : Lies e page)
    (hpage : page * PAGE_SIZE < 2 ^ 64) : ∃ d ∈ ds, d.region.typ = e.typ ∧ d.Covers page := by
  obtain ⟨hlow, hhigh⟩ := hlies
  have hsplit := add_sub_pages h.aligned hlow
  have hsucc : (page + 1) * PAGE_SIZE = page * PAGE_SIZE + PAGE_SIZE := Nat.succ_mul _ _
  have hpos : 0 < PAGE_SIZE := by decide
  obtain ⟨d, hd, htyp, hcovers⟩ := h.page (page - e.base.toNat / PAGE_SIZE) (by omega)
  rw [hsplit, Nat.mod_eq_of_lt hpage, Nat.mul_div_cancel _ hpos] at hcovers
  exact ⟨d, hd, htyp, hcovers⟩

/-- A page that `init` frees was conventional memory. -/
theorem UefiMap.conventional_of_clear (h : UefiMap ds) (hpage : page < MAX_PAGES)
    (hclear : is_used (init (convert ds)).1 page = false) : Conventional ds page := by
  obtain ⟨ds', hpre, hconvert⟩ := convert_prefix ds
  obtain ⟨e, he, husable, hfirst, hlast⟩ := (init_clear_iff _ hpage).mp hclear
  rw [hconvert] at he
  have hmade := h.madeOf_merged hpre.subset e he
  have hlies : Lies e page := MemRegion.page_mem hmade.aligned hfirst hlast
  obtain ⟨d, hd, htyp, hcovers⟩ :=
    hmade.covers hlies (by unfold MAX_PAGES at hpage; unfold PAGE_SIZE; omega)
  unfold MemRegion.usable at husable
  rw [and_eq_true, beq_iff_eq] at husable
  exact ⟨d, hd, region_typ.mp (htyp.trans husable.1), hcovers⟩

/-! ## Nothing is lost -/

/-- A region of RAM ends before the end of the address space. -/
def Ends (e : MemRegion) : Prop := e.typ = 1 → e.base.toNat + e.len.toNat < 2 ^ 64

theorem Ends.grow (h : Ends prev) (hr : Ends r) (htyp : prev.typ = r.typ)
    (hbase : prev.base + prev.len = r.base) : Ends { prev with len := prev.len + r.len } := by
  intro hone
  have hprev := h hone
  have hend := hr (htyp ▸ hone)
  have hbase' : (prev.base.toNat + prev.len.toNat) % 2 ^ 64 = r.base.toNat := by
    rw [← UInt64.toNat_add, hbase]
  show prev.base.toNat + (prev.len + r.len).toNat < 2 ^ 64
  rw [UInt64.toNat_add]
  omega

/-- The region has all of the other one. -/
structure Includes (e e' : MemRegion) : Prop where
  typ : e.typ = e'.typ
  base : e.base.toNat ≤ e'.base.toNat
  last : e'.base.toNat + e'.len.toNat ≤ e.base.toNat + e.len.toNat

theorem Includes.refl (e : MemRegion) : Includes e e := ⟨rfl, le_rfl, le_rfl⟩

theorem Includes.trans {e' e'' : MemRegion} (h : Includes e e') (h' : Includes e' e'') :
    Includes e e'' :=
  ⟨h.typ.trans h'.typ, h.base.trans h'.base, h'.last.trans h.last⟩

theorem includes_grow (hone : prev.typ = 1) (h : Ends prev) (hr : Ends r) (htyp : prev.typ = r.typ)
    (hbase : prev.base + prev.len = r.base) :
    Includes { prev with len := prev.len + r.len } prev
        ∧ Includes { prev with len := prev.len + r.len } r := by
  have hprev := h hone
  have hend := hr (htyp ▸ hone)
  have hbase' : (prev.base.toNat + prev.len.toNat) % 2 ^ 64 = r.base.toNat := by
    rw [← UInt64.toNat_add, hbase]
  have hlen : (prev.len + r.len).toNat = prev.len.toNat + r.len.toNat := by
    rw [UInt64.toNat_add]
    omega
  refine ⟨⟨rfl, le_rfl, ?_⟩, ⟨htyp, ?_, ?_⟩⟩
  · show _ ≤ prev.base.toNat + (prev.len + r.len).toNat
    omega
  · show prev.base.toNat ≤ _
    omega
  · show _ ≤ prev.base.toNat + (prev.len + r.len).toNat
    omega

theorem push_includes {regions : List MemRegion} (hends : ∀ e ∈ regions, Ends e) (hr : Ends r)
    (hone : e.typ = 1) (he : e ∈ regions ∨ e = r) : ∃ e' ∈ push regions r, Includes e' e := by
  rcases push_cases regions r with ⟨-, hpush⟩ | ⟨prev, rest, rfl, htyp, hbase, -, hpush⟩
  · rw [hpush]
    refine ⟨e, ?_, Includes.refl e⟩
    rcases he with hold | rfl
    · exact mem_cons_of_mem _ hold
    · exact mem_cons_self
  · rw [hpush]
    have hprev := hends prev mem_cons_self
    rcases he with hold | rfl
    · rcases mem_cons.mp hold with rfl | hrest
      · exact ⟨_, mem_cons_self, (includes_grow hone hprev hr htyp hbase).1⟩
      · exact ⟨e, mem_cons_of_mem _ hrest, Includes.refl e⟩
    · exact ⟨_, mem_cons_self, (includes_grow (htyp.trans hone) hprev hr htyp hbase).2⟩

theorem merge_from_includes (ds : List MemoryDescriptor) :
    ∀ regions, (∀ d ∈ ds, Ends d.region) → (∀ e ∈ regions, Ends e) →
    ∀ e : MemRegion, e.typ = 1 → (e ∈ regions ∨ ∃ d ∈ ds, d.region = e) →
      ∃ e' ∈ merge_from regions ds, Includes e' e := by
  induction ds with
  | nil =>
    rintro regions - - e - (he | ⟨d, hd, -⟩)
    · exact ⟨e, he, Includes.refl e⟩
    · simp at hd
  | cons d ds ih =>
    intro regions hds hregions e hone he
    have hd := hds d mem_cons_self
    have hrest : ∀ d ∈ ds, Ends d.region := fun d' hd' => hds d' (mem_cons_of_mem _ hd')
    have hpush : ∀ e ∈ push regions d.region, Ends e :=
      forall_merge_from (fun _ _ hprev hr => hprev.grow hr) [d] regions
        (fun d' hd' => mem_singleton.mp hd' ▸ hd) hregions
    -- what is there or comes now is in the regions after this step
    have hnow : (e ∈ regions ∨ e = d.region) → ∃ e' ∈ merge_from regions (d :: ds),
        Includes e' e := by
      intro hnow
      obtain ⟨e1, he1, hinc⟩ := push_includes hregions hd hone hnow
      obtain ⟨e2, he2, hinc'⟩ := ih _ hrest hpush e1 (hinc.typ.trans hone) (.inl he1)
      exact ⟨e2, he2, hinc'.trans hinc⟩
    rcases he with hold | ⟨d', hd', rfl⟩
    · exact hnow (.inl hold)
    · rcases mem_cons.mp hd' with rfl | hlater
      · exact hnow (.inr rfl)
      · exact ih _ hrest hpush _ hone (.inr ⟨d', hlater, rfl⟩)

/-- No conventional memory at the very end of the address space. -/
def EndsBefore (ds : List MemoryDescriptor) : Prop :=
  ∀ d ∈ ds, d.typ = EFI_CONVENTIONAL_MEMORY →
    d.phys_start.toNat + d.num_pages.toNat * PAGE_SIZE < 2 ^ 64

theorem EndsBefore.region (h : EndsBefore ds) (hd : d ∈ ds) : Ends d.region := by
  intro hone
  have hlt := h d hd (region_typ.mp hone)
  have hlen := region_len d
  show d.phys_start.toNat + d.region.len.toNat < 2 ^ 64
  omega

theorem EndsBefore.lies (h : EndsBefore ds) (hpage : Conventional ds page) :
    ∃ e ∈ merged ds, e.typ = 1 ∧ Lies e page := by
  obtain ⟨d, hd, htyp, hlow, hhigh⟩ := hpage
  have hone : d.region.typ = 1 := region_typ.mpr htyp
  obtain ⟨e, he, hinc⟩ := merge_from_includes ds [] (fun _ => h.region) (by simp) d.region hone
    (.inr ⟨d, hd, rfl⟩)
  refine ⟨e, mem_reverse.mpr he, hinc.typ.trans hone, ?_⟩
  have hbase : e.base.toNat ≤ d.phys_start.toNat := hinc.base
  have hlast : d.phys_start.toNat + d.region.len.toNat ≤ e.base.toNat + e.len.toNat := hinc.last
  have hlt := h d hd htyp
  have hlen := region_len d
  refine ⟨by omega, ?_⟩
  omega

theorem UefiMap.typ_of_lies (h : UefiMap ds) (hpage : Conventional ds page) (he : e ∈ merged ds)
    (hlies : Lies e page) : e.typ = 1 := by
  obtain ⟨d, hd, htyp, hcovers⟩ :=
    (h.madeOf_merged (fun _ hd => hd) e he).covers hlies (h.page_lt hpage)
  by_contra hne
  refine h.not_covers hpage hd (fun hconv => hne ?_) hcovers
  rw [← htyp]
  exact region_typ.mpr hconv

theorem UefiMap.clear_of_lies (h : UefiMap ds) (hends : EndsBefore ds)
    (hfull : (merged ds).length ≤ MAX_MEMMAP) (hpage : Conventional ds page) (he : e ∈ merged ds)
    (hlies : Lies e page) (hbase : 0x100000 ≤ e.base.toNat) (hlt : page < MAX_PAGES) :
    is_used (init (convert ds)).1 page = false := by
  have hone := h.typ_of_lies hpage he hlies
  have hend : Ends e := forall_merged (fun _ _ hprev hr => hprev.grow hr)
    (fun _ => hends.region) e he
  have hend := hend hone
  obtain ⟨hlow, hhigh⟩ := hlies
  rw [init_clear_iff _ hlt, convert_eq_merged hfull]
  refine ⟨e, he, ?_, ?_, ?_⟩
  · unfold MemRegion.usable
    rw [hone, and_eq_true]
    refine ⟨rfl, decide_eq_true ?_⟩
    exact hbase
  · unfold MemRegion.first PAGE_SIZE at *
    omega
  · unfold MemRegion.last PAGE_SIZE at *
    rw [UInt64.toNat_add]
    omega

end

/-! ## Hand-over -/

/-- **Hand-over.** What `init` frees was conventional memory, so no call ever gives out a page of
another descriptor. When the table has room and conventional memory ends before the end of the
address space, every conventional page is in a region, and it is free if the region starts at or
above 1 MiB and the bit map reaches it. -/
theorem handover {ds : List MemoryDescriptor} (h : UefiMap ds) :
    (∀ page < MAX_PAGES, is_used (init (convert ds)).1 page = false → Conventional ds page)
    ∧ (∀ calls s, Steps Calls.Next (Calls.State.start (convert ds)) calls s → ∀ d ∈ ds,
      d.typ ≠ EFI_CONVENTIONAL_MEMORY →
        ∀ page, d.Covers page → page ∉ s.owned ∧ (page < MAX_PAGES → is_used s.pmm page = true))
    ∧ ((merged ds).length ≤ MAX_MEMMAP → EndsBefore ds → ∀ page, Conventional ds page →
        (∃ e ∈ merged ds, Lies e page) ∧ ∀ e ∈ merged ds, Lies e page → 0x100000 ≤ e.base.toNat →
          page < MAX_PAGES →
          is_used (init (convert ds)).1 page = false) := by
  refine ⟨fun page => h.conventional_of_clear, fun calls s hrun d hd htyp page hcovers => ?_,
    fun hfull hends page hpage => ⟨?_, ?_⟩⟩
  · have hstart : Calls.Within (Conventional ds) (Calls.State.start (convert ds)) :=
      ⟨fun page => h.conventional_of_clear, fun page hpage =>
        absurd hpage (Finset.notMem_empty page)⟩
    have hwithin : Calls.Within (Conventional ds) s :=
      hrun.keeps hstart fun _ _ _ hw hstep => hw.step hstep
    have hno : ¬ Conventional ds page := fun hpage => h.not_covers hpage hd htyp hcovers
    refine ⟨fun howned => hno (hwithin.owned page howned).2, fun hlt => ?_⟩
    rw [← not_eq_false]
    exact fun hclear => hno (hwithin.clear page hlt hclear)
  · obtain ⟨e, he, -, hlies⟩ := hends.lies hpage
    exact ⟨e, he, hlies⟩
  · exact fun e he hlies hbase hlt => h.clear_of_lies hends hfull hpage he hlies hbase hlt

/-- A map with two conventional descriptors in a row, boot data between them and a third one. -/
def small_map : List MemoryDescriptor :=
  [⟨7, 0x100000, 1⟩, ⟨7, 0x101000, 2⟩, ⟨2, 0x103000, 1⟩, ⟨7, 0x104000, 1⟩]

theorem handover_small_map : UefiMap small_map ∧ is_used (init (convert small_map)).1 0x102 = false
    ∧ is_used (init (convert small_map)).1 0x103 = true := by
  have hapart : ∀ d d' : MemoryDescriptor, d.phys_start.toNat + d.num_pages.toNat * PAGE_SIZE
    ≤ d'.phys_start.toNat →
      ∀ page, ¬ (d.Covers page ∧ d'.Covers page) := by
    rintro d d' hle page ⟨⟨-, hhigh⟩, hlow, -⟩
    unfold PAGE_SIZE at *
    omega
  have hpairs : small_map.Pairwise fun d d' =>
      d.phys_start.toNat + d.num_pages.toNat * PAGE_SIZE ≤ d'.phys_start.toNat := by decide
  have hmap : UefiMap small_map := ⟨by decide, by decide, hpairs.imp fun {d d'} => hapart d d'⟩
  obtain ⟨hsound, -, hcomplete⟩ := handover hmap
  have hends : EndsBefore small_map := by
    unfold EndsBefore
    decide
  refine ⟨hmap, ?_, ?_⟩
  · have hpage : Conventional small_map 0x102 := ⟨⟨7, 0x101000, 2⟩, by decide, rfl, by decide⟩
    exact (hcomplete (by decide) hends _ hpage).2 ⟨0x100000, 0x3000, 1⟩ (by decide)
      (by unfold Lies; decide) (by decide)
      (by unfold MAX_PAGES; decide)
  · rw [← not_eq_false]
    intro hclear
    have hpage := hsound _ (by unfold MAX_PAGES; decide) hclear
    exact hmap.not_covers hpage (d := ⟨2, 0x103000, 1⟩) (by decide) (by decide) (by decide)

/-- One conventional descriptor from 1 MiB to the end of the address space. -/
def whole_map : List MemoryDescriptor := [⟨7, 0x100000, 0xfffffffffff00⟩]

/-- The sum of base and length wraps around to 0, and no page is freed. -/
theorem end_of_space_lost : UefiMap whole_map ∧ (merged whole_map).length ≤ MAX_MEMMAP
    ∧ ∃ e ∈ merged whole_map, ∃ page, Conventional whole_map page ∧ Lies e page
    ∧ 0x100000 ≤ e.base.toNat ∧ page < MAX_PAGES
      ∧ is_used (init (convert whole_map)).1 page = true := by
  refine ⟨⟨by decide, by decide, pairwise_singleton _ _⟩, by decide, ⟨0x100000, 0xfffffffffff00000,
    1⟩, by decide, 256, ?_⟩
  refine ⟨⟨⟨7, 0x100000,
    0xfffffffffff00⟩, by decide, rfl, by decide⟩, by unfold Lies; decide, by decide,
    by unfold MAX_PAGES; decide, ?_⟩
  decide +kernel

end HepOS.Boot.Memmap
