/-
How many free pages a launch needs.

`Costs free_pages k` says that a function goes through when `k` pages are free, and takes no more
than these. A mapping costs up to three pages for tables, so a page of memory costs up to four.

Whether a launch goes through also depends on the file. `Single` describes a file that is good: one
segment, with nothing of it in the file.
-/
import HepOS.Process.Elf

set_option autoImplicit false

namespace HepOS.Process

open Bytes Hoare Phys Paging List Finset

/-- The pages that are left. -/
def free_pages (m : Mach) : ℕ := left m.pmm

/-! ## Mappings -/

theorem alloc_some {m : Mach} (use : Use) (h : 1 ≤ free_pages m) :
    ∃ f m', m.alloc use = some (f, m') ∧ free_pages m ≤ free_pages m' + 1 := by
  have hspec := alloc_page_spec m.pmm
  obtain ⟨p', hp'⟩ := alloc_pages_of_le 1 m.pmm h
  obtain ⟨⟨addr, q⟩, halloc, -⟩ := Option.bind_eq_some_iff.mp hp'
  rw [halloc] at hspec
  obtain ⟨page, -, hclaims⟩ := hspec
  have hleft := hclaims.left
  refine ⟨frame addr, { m with pmm := q, allocs := (use, frame addr) :: m.allocs },
    by rw [Mach.alloc, halloc], ?_⟩
  show left m.pmm ≤ left q + 1
  omega

theorem costs_alloc (use : Use) (fault : Fault) : Costs free_pages 1 (alloc use fault) := by
  constructor
  intro m h
  obtain ⟨f, m', halloc, hle⟩ := alloc_some use h
  exact ⟨f, m', by simp only [alloc, halloc], hle⟩

theorem free_pages_mem (m : Mach) (mem : Ram) :
    free_pages { m with mem := mem } = free_pages m := rfl

theorem costs_zero (f : Frame) : Costs free_pages 0 (zero f) := by
  constructor
  intro m _
  refine ⟨(), { m with mem := zero_page m.mem f }, rfl, ?_⟩
  exact Nat.le_add_right_of_le (free_pages_mem m _).ge

/-- A level of the walk takes a page at most. -/
theorem get_or_make_user_some {m : Mach} (table : Frame) (idx : Fin 512) (h : 1 ≤ free_pages m) :
    ∃ f m', get_or_make_user m table idx = some (f, m') ∧ free_pages m ≤ free_pages m' + 1 := by
  unfold get_or_make_user
  cases child (Paging.entry m.mem table idx) with
  | some t => exact ⟨t, m, rfl, by omega⟩
  | none =>
    obtain ⟨f, m', halloc, hle⟩ := alloc_some .table h
    exact ⟨f,
      { m' with mem := set_entry (zero_page m'.mem f) table idx (link f) }, by rw [halloc], hle⟩

theorem costs_map (pml4 : Frame) (virt e : UInt64) : Costs free_pages 3 (map pml4 virt e) := by
  constructor
  intro m h
  obtain ⟨p3, m3, hmake3, hle3⟩ :=
    get_or_make_user_some pml4 (i4 virt) (show 1 ≤ free_pages m by omega)
  obtain ⟨p2, m2, hmake2, hle2⟩ :=
    get_or_make_user_some p3 (i3 virt) (show 1 ≤ free_pages m3 by omega)
  obtain ⟨p1, m1, hmake1, hle1⟩ :=
    get_or_make_user_some p2 (i2 virt) (show 1 ≤ free_pages m2 by omega)
  refine ⟨(), { m1 with mem := set_entry m1.mem p1 (i1 virt) e }, ?_, ?_⟩
  · simp only [map, mapping, map_leaf, hmake3, hmake2, hmake1]
  · show free_pages m ≤ free_pages m1 + 3
    omega

theorem costs_create_user_pml4 (cr3 : Frame) : Costs free_pages 1 (create_user_pml4 cr3) := by
  have hrest : ∀ f : Frame, Costs free_pages 0 (do
      zero f
      modify fun m => { m with mem := copy_entries m.mem cr3 f (List.range' 256 256) }
      pure f) := by
    intro f
    constructor
    intro m _
    refine ⟨f, { m with mem := copy_entries (zero_page m.mem f) cr3 f (List.range' 256 256) }, rfl,
      ?_⟩
    exact Nat.le_add_right_of_le (free_pages_mem m _).ge
  exact (costs_alloc .pml4 .panic).bind hrest

theorem costs_map_stack (pml4 : Frame) (is : List ℕ) :
    Costs free_pages (is.length * 4) (map_stack pml4 is) := by
  induction is with
  | nil => exact (Costs.pure _).mono (Nat.zero_le _)
  | cons i is ih =>
    have hcost := (costs_alloc .stack (.err "run_elf: OOM for stack")).bind fun p =>
        (costs_zero p).bind fun _ =>
      (costs_map pml4 (USER_STACK_BASE + UInt64.ofNat i * 4096)
        (p.addr ||| (USER ||| WRITE) ||| PRESENT)).bind fun _ =>
        ih.bind fun pages => Costs.pure (p :: pages)
    refine hcost.mono ?_
    rw [length_cons]
    omega

theorem costs_map_mmio_pages (pml4 : Frame) (virt_base phys_base : UInt64) (is : List ℕ) :
    Costs free_pages (is.length * 3) (map_mmio_pages pml4 virt_base phys_base is) :=
      Costs.each (fun _ => costs_map _ _ _) is

/-- With enough pages the region is whole. -/
theorem map_anon_pages_true (pml4 : Frame) (virt_base : UInt64) (is : List ℕ) :
    ∀ m, is.length * 4 ≤ free_pages m → ∃ m', map_anon_pages pml4 virt_base is m = .ok true m'
      ∧ free_pages m ≤ free_pages m' + is.length * 4 := by
  induction is with
  | nil => exact fun m _ => ⟨m, rfl, by omega⟩
  | cons i is ih =>
    intro m h
    rw [length_cons] at h ⊢
    obtain ⟨f, m1, halloc, hle1⟩ := alloc_some .anon (show 1 ≤ free_pages m by omega)
    have hzero := free_pages_mem m1 (zero_page m1.mem f)
    obtain ⟨_, m2, hmap, hle2⟩ := (costs_map pml4 (virt_base + UInt64.ofNat i * 4096)
      (f.addr ||| WRITE ||| PRESENT ||| USER)).run { m1 with mem := zero_page m1.mem f } (by omega)
    obtain ⟨m3, hrest, hle3⟩ := ih m2 (by omega)
    refine ⟨m3, ?_, by omega⟩
    simp only [map_anon_pages, halloc]
    exact (bind_of_ok rfl).trans ((bind_of_ok hmap).trans hrest)

/-! ## A file with one segment -/

/-- The file has one segment of one page, and there are no bytes for it. -/
structure Single (data : List UInt8) (ph : Phdr) : Prop where
  header : 64 ≤ data.length ∧ data.take 4 = [0x7F, 0x45, 0x4C, 0x46] ∧ data.getD 4 0 = 2
    ∧ data.getD 5 0 = 1
    ∧ field data 16 2 = 2 ∧ field data 18 2 = 0x3E ∧ 56 ≤ e_phentsize data
  phnum : e_phnum data = 1
  bound : (ph_off data 0 + 56).toNat ≤ data.length ∧ ph_off data 0 ≤ ph_off data 0 + 56
  phdr : phdr data (ph_off data 0).toNat = ph
  loads : ph.p_type = 1 ∧ ph.p_memsz ≠ 0 ∧ ph.p_filesz = 0
  pages : ph.num_pages = 1

instance (data : List UInt8) (ph : Phdr) : Decidable (Single data ph) :=
  decidable_of_iff
    ((64 ≤ data.length ∧ data.take 4 = [0x7F, 0x45, 0x4C, 0x46] ∧ data.getD 4 0 = 2
      ∧ data.getD 5 0 = 1
        ∧ field data 16 2 = 2 ∧ field data 18 2 = 0x3E ∧ 56 ≤ e_phentsize data)
      ∧ e_phnum data = 1 ∧ ((ph_off data 0 + 56).toNat ≤ data.length
        ∧ ph_off data 0 ≤ ph_off data 0 + 56)
      ∧ phdr data (ph_off data 0).toNat = ph ∧ (ph.p_type = 1 ∧ ph.p_memsz ≠ 0 ∧ ph.p_filesz = 0)
      ∧ ph.num_pages = 1)
    ⟨fun ⟨h₁, h₂, h₃, h₄, h₅, h₆⟩ => ⟨h₁, h₂, h₃, h₄, h₅, h₆⟩,
      fun ⟨h₁, h₂, h₃, h₄, h₅, h₆⟩ => ⟨h₁, h₂, h₃, h₄, h₅, h₆⟩⟩

section

variable {data : List UInt8} {ph : Phdr} (h : Single data ph) (pml4 : Frame)

include h

theorem Single.load_header (page_map : PageMap) :
    load_header data pml4 0 page_map = load_pages data pml4 ph 1 0 page_map := by
  obtain ⟨hin, hwrap⟩ := h.bound
  obtain ⟨htype, hmemsz, hfilesz⟩ := h.loads
  unfold Process.load_header
  rw [if_neg (by omega), if_neg (by rwa [UInt64.not_lt]), h.phdr, if_neg (by rw [htype]; decide),
    if_neg hmemsz, if_neg (by rw [hfilesz]; simp), h.pages]

theorem Single.fill_page (p : ℕ) (phys : Frame) : fill_page data ph p phys = pure () := by
  unfold Process.fill_page
  rw [h.loads.2.2, if_neg]
  rw [UInt64.not_lt, UInt64.add_zero]
  have hlo : ph.p_vaddr ≤ max ph.p_vaddr (ph.virt p) := by
    show ph.p_vaddr ≤ if ph.p_vaddr ≤ ph.virt p then ph.virt p else ph.p_vaddr
    split
    · assumption
    · exact UInt64.le_refl _
  have hhi : min ph.p_vaddr (ph.virt p + 4096) ≤ ph.p_vaddr := by
    show (if ph.p_vaddr ≤ ph.virt p + 4096 then ph.p_vaddr else ph.virt p + 4096) ≤ ph.p_vaddr
    split
    · exact UInt64.le_refl _
    · exact UInt64.le_of_lt (UInt64.not_le.mp ‹_›)
  exact UInt64.le_trans hhi hlo

theorem Single.load_eq : load data pml4 = (do
    let page_map ← load_pages data pml4 ph 1 0 []
    if page_map = [] then throw (.err "no PT_LOAD segments found")
    pure ⟨e_entry data, page_map⟩) := by
  obtain ⟨hlen, hmagic, hclass, hendian, htype, hmachine, hentsize⟩ := h.header
  unfold load
  rw [if_neg (by omega), if_neg (not_not.mpr hmagic), if_neg (not_not.mpr hclass),
    if_neg (not_not.mpr hendian),
    if_neg (not_not.mpr htype), if_neg (not_not.mpr hmachine),
      if_neg (by rwa [UInt64.not_lt]), h.phnum]
  show (Process.load_header data pml4 0 [] >>= pure) >>= _ = _
  rw [h.load_header, bind_pure]

theorem Single.load_run {m : Mach} (hm : 4 ≤ free_pages m) :
    ∃ f m', load data pml4 m = .ok ⟨e_entry data, [(ph.virt 0, f)]⟩ m'
      ∧ free_pages m ≤ free_pages m' + 4 := by
  have hpage : Costs free_pages 4 (do
      let phys ← alloc .image (.err "ELF load: out of physical memory")
      zero phys
      map_into pml4 (ph.virt 0) phys.addr (USER ||| WRITE)
      pure phys) :=
    (costs_alloc _ _).bind fun f => (costs_zero f).bind fun _ =>
      (costs_map _ _ _).bind fun _ => Costs.pure f
  obtain ⟨f, m', hrun, hle⟩ := hpage.run m hm
  refine ⟨f, m', ?_, hle⟩
  obtain ⟨f1, m1, halloc, hrun⟩ := exists_of_bind_ok hrun
  obtain ⟨_, m2, hzero, hrun⟩ := exists_of_bind_ok hrun
  obtain ⟨_, m3, hmap, hrun⟩ := exists_of_bind_ok hrun
  obtain ⟨rfl, rfl⟩ := EStateM.Result.ok.inj hrun
  have hload : load_pages data pml4 ph 1 0 [] m = .ok [(ph.virt 0, f1)] m3 := by
    have hpages : image_page pml4 (ph.virt 0) [] m = .ok (f1, [(ph.virt 0, f1)]) m3 :=
      (bind_of_ok halloc).trans ((bind_of_ok hzero).trans ((bind_of_ok hmap).trans rfl))
    refine (bind_of_ok hpages).trans ?_
    dsimp only
    rw [h.fill_page]
    rfl
  rw [h.load_eq]
  exact (bind_of_ok hload).trans rfl

theorem Single.launch_run (cr3 : Frame) {m : Mach} (hm : 37 ≤ free_pages m) :
    ∃ p f m', launch cr3 data m = .ok p m' ∧ p.loaded.page_map = [(ph.virt 0, f)]
      ∧ p.mmio_next_va = USER_MMIO_BASE
      ∧ free_pages m ≤ free_pages m' + 37 := by
  obtain ⟨pml4, m1, hcreate, hle1⟩ := (costs_create_user_pml4 cr3).run m (by omega)
  obtain ⟨f, m2, hload, hle2⟩ := h.load_run pml4 (show 4 ≤ free_pages m1 by omega)
  obtain ⟨pages, m3, hstack, hle3⟩ := (costs_map_stack pml4 (List.range USER_STACK_PAGES)).run m2
    (by rw [length_range, USER_STACK_PAGES]; omega)
  rw [length_range, USER_STACK_PAGES] at hle3
  refine ⟨⟨pml4, ⟨e_entry data, [(ph.virt 0, f)]⟩, pages, USER_MMIO_BASE⟩, f, m3, ?_, rfl,
    rfl, by omega⟩
  exact (bind_of_ok hcreate).trans ((bind_of_ok hload).trans ((bind_of_ok hstack).trans rfl))

end

/-! ## Such a file -/

/-- An executable whose only segment is one page at the address. -/
def image_at (vaddr : UInt64) : List UInt8 :=
  [0x7F, 0x45, 0x4C, 0x46, 2, 1, 1, 0, 0, 0, 0, 0, 0, 0, 0, 0] ++ encodeFields [
    -- `e_type`, `e_machine`, `e_version`, `e_entry`, `e_phoff`, `e_shoff`
    (2, 2), (2, 0x3E), (4, 1), (8, vaddr.toNat), (8, 64), (8, 0),
    -- `e_flags`, `e_ehsize`, `e_phentsize`, `e_phnum`, and three fields about sections
    (4, 0), (2, 64), (2, 56), (2, 1), (2, 0), (2, 0), (2, 0),
    -- `p_type`, `p_flags`, `p_offset`, `p_vaddr`, `p_paddr`, `p_filesz`, `p_memsz`, `p_align`
    (4, 1), (4, 6), (8, 0), (8, vaddr.toNat), (8, 0), (8, 0), (8, 4096), (8, 4096)]

def segment_at (vaddr : UInt64) : Phdr where
  p_type := 1
  p_offset := 0
  p_vaddr := vaddr
  p_filesz := 0
  p_memsz := 4096

example : Single (image_at 0x400000) (segment_at 0x400000) := by decide +kernel

/-- A machine in which only the page 0 is taken, for the kernel's PML4. -/
def booted : Mach where
  mem := Mem.zero
  pmm := ⟨fun word => if word = 0 then 1 else 0, 0⟩
  allocs := []

theorem is_used_booted (page : ℕ) : is_used booted.pmm page = decide (page = 0) := by
  rw [is_used_eq]
  show (if page / 64 = 0 then 1#64 else 0#64).getLsbD (page % 64) = decide (page = 0)
  by_cases hword : page / 64 = 0
  · have hlt : page % 64 = page := by omega
    rw [if_pos hword, hlt, BitVec.getLsbD_one]
    simp
  · rw [if_neg hword, BitVec.getLsbD_zero, decide_eq_false (by omega)]

theorem free_pages_booted : 1000 ≤ free_pages booted := by
  have hsubset : Finset.Icc 1 1000 ⊆ (Finset.range MAX_PAGES).filter fun page =>
      is_used booted.pmm page = false := by
    intro page hpage
    have hrange := mem_Icc.mp hpage
    rw [Finset.mem_filter, Finset.mem_range, is_used_booted, decide_eq_false_iff_not]
    unfold MAX_PAGES
    omega
  have hcard := card_le_card hsubset
  rw [Nat.card_Icc] at hcard
  exact hcard

end HepOS.Process
