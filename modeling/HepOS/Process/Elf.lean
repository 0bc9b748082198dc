/-
Loading a program: `elf::load`, `create_user_pml4`, and `run_elf` up to the entry into ring 3.

The loader's own arithmetic is on 64-bit words and wraps around, as in a release build. A slice
outside the file panics. What the source returns as `Err` and what stops the kernel are both errors
of `KernelM` here, told apart by `Fault`; the state is the one reached.

`pages` and `page_map` are pushed together in the source, so there is only the map.
-/
import HepOS.Lib.Hoare
import HepOS.Paging.Space

set_option autoImplicit false

namespace HepOS.Process

open Bytes Hoare Phys Paging

/-! ## Programs of the kernel -/

inductive Fault
  | panic
  | err (msg : String)
deriving DecidableEq, Repr

abbrev KernelM := EStateM Fault Mach

def alloc (use : Use) (fault : Fault) : KernelM Frame := fun m =>
  match m.alloc use with
  | some (p, m) => .ok p m
  | none => .error fault m

theorem post_alloc (use : Use) (fault : Fault) (m : Mach) :
    Post (alloc use fault) m (fun f m' => m.Takes use f m') (fun e m' => e = fault ∧ m' = m) := by
  cases halloc : m.alloc use with
  | none => exact Post.of_eq_error (by simp only [alloc, halloc]) ⟨rfl, rfl⟩
  | some r => exact Post.of_eq_ok (by simp only [alloc, halloc]) (Mach.alloc_spec halloc)

def zero (f : Frame) : KernelM Unit := fun m => .ok () { m with mem := zero_page m.mem f }

/-- Bytes into a page. -/
def copy (f : Frame) (off : ℕ) (bytes : List UInt8) : KernelM Unit := fun m =>
  .ok () { m with mem := m.mem.write (f.val * 4096 + off) bytes }

/-- `alloc_page().expect(..)` in a mapping function panics. -/
def mapping (f : Mach → Option Mach) : KernelM Unit := fun m =>
  match f m with
  | some m => .ok () m
  | none => .error .panic m

def map_into (pml4 : Frame) (virt phys flags : UInt64) : KernelM Unit :=
  mapping (map_page_into · pml4 virt phys flags)

def map_current_user (pml4 : Frame) (virt phys flags : UInt64) : KernelM Unit :=
  mapping (map_page_current_user · pml4 virt phys flags)

/-- What both come to, for the entry they write. -/
def map (pml4 : Frame) (virt e : UInt64) : KernelM Unit := mapping (map_leaf · pml4 virt e)

/-! ## `elf::load` -/

section

variable (data : List UInt8) (pml4 : Frame)

/-- `len` bytes of the file as a number. -/
def field (off len : ℕ) : ℕ := leNat ((data.drop off).take len)

structure Phdr where
  p_type : ℕ
  p_offset : UInt64
  p_vaddr : UInt64
  p_filesz : UInt64
  p_memsz : UInt64
deriving DecidableEq, Repr

def phdr (off : ℕ) : Phdr where
  p_type := field data off 4
  p_offset := UInt64.ofNat (field data (off + 8) 8)
  p_vaddr := UInt64.ofNat (field data (off + 16) 8)
  p_filesz := UInt64.ofNat (field data (off + 32) 8)
  p_memsz := UInt64.ofNat (field data (off + 40) 8)

def e_entry : UInt64 := UInt64.ofNat (field data 24 8)
def e_phoff : UInt64 := UInt64.ofNat (field data 32 8)
def e_phentsize : UInt64 := UInt64.ofNat (field data 54 2)
def e_phnum : ℕ := field data 56 2

/-- Where the header `i` is. -/
def ph_off (i : ℕ) : UInt64 := e_phoff data + UInt64.ofNat i * e_phentsize data

/-- `x & !(PAGE_SIZE - 1)` -/
def page_floor (x : UInt64) : UInt64 := x &&& ~~~4095

def Phdr.page_start (ph : Phdr) : UInt64 := page_floor ph.p_vaddr
def Phdr.page_end (ph : Phdr) : UInt64 := page_floor (ph.p_vaddr + ph.p_memsz + 4095)
def Phdr.num_pages (ph : Phdr) : ℕ := ((ph.page_end - ph.page_start) / 4096).toNat

/-- The page `p` of a segment. -/
def Phdr.virt (ph : Phdr) (p : ℕ) : UInt64 := ph.page_start + UInt64.ofNat p * 4096

/-- The pages of the image: the virtual page and the frame. -/
abbrev PageMap := List (UInt64 × Frame)

/-- The frame of a page of the segment, a new one unless an earlier segment has brought one. -/
def image_page (virt : UInt64) (page_map : PageMap) : KernelM (Frame × PageMap) :=
  match page_map.find? fun vp => vp.1 = virt with
  | some vp => pure (vp.2, page_map)
  | none => do
    let phys ← alloc .image (.err "ELF load: out of physical memory")
    zero phys
    map_into pml4 virt phys.addr (USER ||| WRITE)
    pure (phys, page_map ++ [(virt, phys)])

/-- The bytes of the file that fall into the page. -/
def fill_page (ph : Phdr) (p : ℕ) (phys : Frame) : KernelM Unit :=
  let page_va_lo := ph.virt p
  let page_va_hi := page_va_lo + 4096
  let file_va_lo := ph.p_vaddr
  let file_va_hi := file_va_lo + ph.p_filesz
  let copy_lo := max file_va_lo page_va_lo
  let copy_hi := min file_va_hi page_va_hi
  if copy_lo < copy_hi then
    let dst_off := copy_lo - page_va_lo
    let src_off := ph.p_offset + (copy_lo - file_va_lo)
    let len := copy_hi - copy_lo
    if dst_off.toNat + len.toNat ≤ 4096 ∧ src_off ≤ src_off + len
      ∧ (src_off + len).toNat ≤ data.length then
      copy phys dst_off.toNat ((data.drop src_off.toNat).take len.toNat)
    else throw .panic
  else pure ()

def load_pages (data : List UInt8) (pml4 : Frame) (ph : Phdr) : ℕ → ℕ → PageMap → KernelM PageMap
  | 0, _, page_map => pure page_map
  | n + 1, p, page_map => do
    let (phys, page_map) ← image_page pml4 (ph.virt p) page_map
    fill_page data ph p phys
    load_pages data pml4 ph n (p + 1) page_map

def load_header (i : ℕ) (page_map : PageMap) : KernelM PageMap :=
  let off := ph_off data i
  if data.length < (off + 56).toNat then throw (.err "program header out of bounds")
  -- the end of the slice has wrapped around
  else if off + 56 < off then throw .panic
  else
    let ph := phdr data off.toNat
    if ph.p_type ≠ 1 then pure page_map
    else if ph.p_memsz = 0 then pure page_map
    else if 0 < ph.p_filesz ∧ data.length < (ph.p_offset + ph.p_filesz).toNat then
      throw (.err "segment data extends past end of file")
    else load_pages data pml4 ph ph.num_pages 0 page_map

def load_headers (data : List UInt8) (pml4 : Frame) : List ℕ → PageMap → KernelM PageMap
  | [], page_map => pure page_map
  | i :: rest, page_map => do
    let page_map ← load_header data pml4 i page_map
    load_headers data pml4 rest page_map

structure Loaded where
  entry : UInt64
  page_map : PageMap

def load : KernelM Loaded := do
  if data.length < 64 then throw (.err "ELF too small")
  if data.take 4 ≠ [0x7F, 0x45, 0x4C, 0x46] then throw (.err "bad ELF magic")
  if data.getD 4 0 ≠ 2 then throw (.err "not ELF64")
  if data.getD 5 0 ≠ 1 then throw (.err "not little-endian")
  if field data 16 2 ≠ 2 then throw (.err "not an executable ELF")
  if field data 18 2 ≠ 0x3E then throw (.err "not x86-64")
  if e_phentsize data < 56 then throw (.err "phentsize too small")
  let page_map ← load_headers data pml4 (List.range (e_phnum data)) []
  if page_map = [] then throw (.err "no PT_LOAD segments found")
  pure ⟨e_entry data, page_map⟩

end

/-! ## `create_user_pml4` and the stack -/

def copy_entries (mem : Ram) (cr3 pml4 : Frame) : List ℕ → Ram
  | [] => mem
  | i :: rest =>
    copy_entries (set_entry mem pml4 (Fin.ofNat 512 i) (Paging.entry mem cr3 (Fin.ofNat 512 i))) cr3
      pml4 rest

/-- The kernel's half is copied entry by entry from the tables in use. -/
def create_user_pml4 (cr3 : Frame) : KernelM Frame := do
  let phys ← alloc .pml4 .panic
  zero phys
  modify fun m => { m with mem := copy_entries m.mem cr3 phys (List.range' 256 256) }
  pure phys

def USER_STACK_PAGES : ℕ := 8
def USER_STACK_TOP : UInt64 := 0x7FFFF000
def USER_STACK_BASE : UInt64 := 0x7FFF7000
def USER_MMIO_BASE : UInt64 := 0x60000000

def map_stack (pml4 : Frame) : List ℕ → KernelM (List Frame)
  | [] => pure []
  | i :: rest => do
    let p ← alloc .stack (.err "run_elf: OOM for stack")
    zero p
    map_into pml4 (USER_STACK_BASE + UInt64.ofNat i * 4096) p.addr (USER ||| WRITE)
    let pages ← map_stack pml4 rest
    pure (p :: pages)

/-- A process in ring 3: what `run_elf` keeps, and `mmio_next_va` of its slot. -/
structure Proc where
  pml4 : Frame
  loaded : Loaded
  stack_pages : List Frame
  mmio_next_va : UInt64

/-- `run_elf` up to `enter_ring3`. -/
def launch (cr3 : Frame) (data : List UInt8) : KernelM Proc := do
  let pml4 ← create_user_pml4 cr3
  let loaded ← load data pml4
  let stack_pages ← map_stack pml4 (List.range USER_STACK_PAGES)
  pure ⟨pml4, loaded, stack_pages, USER_MMIO_BASE⟩

/-! ## Mappings of a process -/

def map_mmio_pages (pml4 : Frame) (virt_base phys_base : UInt64) : List ℕ → KernelM Unit :=
  each fun i => map_current_user pml4 (virt_base + UInt64.ofNat i * 4096)
    (phys_base + UInt64.ofNat i * 4096) (WRITE ||| NOCACHE)

/-- The region's address, or 0, and the process with its new cursor. -/
def map_mmio_for_user (p : Proc) (phys len : UInt64) : KernelM (UInt64 × Proc) :=
  if len = 0 ∨ 16 * 1024 * 1024 < len then pure (0, p)
  else do
    let page_off := phys &&& 0xFFF
    let phys_base := page_floor phys
    let pages := (page_off + len + 0xFFF) / 4096
    let virt_base := p.mmio_next_va
    map_mmio_pages p.pml4 virt_base phys_base (List.range pages.toNat)
    pure (virt_base + page_off, { p with mmio_next_va := p.mmio_next_va + pages * 4096 })

/-- Stops with `false` when there is no page. -/
def map_anon_pages (pml4 : Frame) (virt_base : UInt64) : List ℕ → KernelM Bool
  | [] => pure true
  | i :: rest => fun m =>
    match m.alloc .anon with
    | none => .ok false m
    | some (phys, m) => (do
        zero phys
        map_current_user pml4 (virt_base + UInt64.ofNat i * 4096) phys.addr WRITE
        map_anon_pages pml4 virt_base rest) m

def map_anon_for_user (p : Proc) (len : UInt64) : KernelM (UInt64 × Proc) :=
  if len = 0 ∨ 64 * 1024 * 1024 < len then pure (0, p)
  else do
    let pages := (len + 0xFFF) / 4096
    let virt_base := p.mmio_next_va
    let whole ← map_anon_pages p.pml4 virt_base (List.range pages.toNat)
    pure (if whole then virt_base else 0, { p with mmio_next_va := p.mmio_next_va + pages * 4096 })

/-- A range of physical addresses, the end not included. -/
abbrev Range := UInt64 × UInt64

def ALLOWED_MMIO : List Range := [(0xFEE00000, 0xFEE01000)]

/-- `DYNAMIC_MMIO` after `grant_mmio_range`. -/
def grant_mmio_range (dynamic : List Range) (phys len : UInt64) : List Range :=
  dynamic ++ [(phys, phys + len)]

def mmio_allowed (dynamic : List Range) (phys len : UInt64) : Bool :=
  let ranges := ALLOWED_MMIO ++ dynamic
  if phys + len < phys then false else ranges.any fun r => decide (r.1 ≤ phys ∧ phys + len ≤ r.2)

def sys_mmap_mmio (dynamic : List Range) (p : Proc) (phys len : UInt64) : KernelM (UInt64 × Proc) :=
  if mmio_allowed dynamic phys len then map_mmio_for_user p phys len else pure (0, p)

/-! ## Calls -/

/-- A system call of the process that changes its address space. The list has the ranges that are
granted at the time. -/
inductive Call
  | mmap_mmio (dynamic : List Range) (phys len : UInt64)
  | mmap_anon (len : UInt64)
deriving DecidableEq, Repr

def Call.run (p : Proc) : Call → KernelM (UInt64 × Proc)
  | .mmap_mmio dynamic phys len => sys_mmap_mmio dynamic p phys len
  | .mmap_anon len => map_anon_for_user p len

end HepOS.Process
