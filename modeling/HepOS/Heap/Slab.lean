/-
The kernel heap (`heap.rs`): ten classes of chunks, each with a free list that is threaded through
the chunks themselves, and contiguous pages for whatever is larger than a page.

`alloc` and `dealloc` are modelled on memory by virtual address. All memory of the page allocator is
mapped from `Hhdm.offset` on; that the offset is a multiple of the page size and leaves room for
what the page allocator can give is the boot protocol's, and a field of the structure. A null
pointer is address 0.

`Allocs` and `Frees` say what the two calls can do, one constructor for each way through them;
everything that is proved about the heap is proved from these.
-/
import HepOS.Lib.Bytes
import HepOS.Lib.Cells
import HepOS.Pmm.Accounting

set_option autoImplicit false

namespace HepOS.Heap

open Bytes Cells Phys Function List

/-! ## Size classes -/

/-- Where physical memory is mapped (`vmm::HHDM_OFFSET`). -/
structure Hhdm where
  offset : ℕ
  pos : 0 < offset
  aligned : offset % PAGE_SIZE = 0
  fits : offset + 2 ^ 31 ≤ 2 ^ 64

def phys_to_virt (h : Hhdm) (phys : UInt64) : ℕ := h.offset + phys.toNat

/-- `core::alloc::Layout`. -/
structure Layout where
  size : ℕ
  align : ℕ
  pow2 : ∃ k, align = 2 ^ k
  fits : size + align ≤ 2 ^ 63
deriving DecidableEq

def SIZE_CLASSES : List ℕ := [8, 16, 32, 64, 128, 256, 512, 1024, 2048, 4096]

def NUM_CLASSES : ℕ := 10

/-- `SIZE_CLASSES[ci]`. -/
def class_size (ci : ℕ) : ℕ := SIZE_CLASSES.getD ci 0

def class_for (layout : Layout) : Option ℕ :=
  let min := max (max layout.size layout.align) 8
  SIZE_CLASSES.findIdx? fun sz => decide (min ≤ sz)

def pages_for (bytes : ℕ) : ℕ := (bytes + PAGE_SIZE - 1) / PAGE_SIZE

/-- The bytes that a block of this layout occupies: nothing, a chunk, or whole pages. -/
def Layout.room (layout : Layout) : ℕ :=
  if layout.size = 0 then 0
  else if PAGE_SIZE < layout.size then pages_for layout.size * PAGE_SIZE
  else match class_for layout with
    | none => 0
    | some ci => class_size ci

/-- A chunk of the class, of a layout that takes one. -/
def Layout.chunk (layout : Layout) (ci : ℕ) : Prop :=
  0 < layout.size ∧ layout.size ≤ PAGE_SIZE ∧ class_for layout = some ci

instance (layout : Layout) (ci : ℕ) : Decidable (layout.chunk ci) := instDecidableAnd

theorem class_size_eq : ∀ ci < NUM_CLASSES, class_size ci = 2 ^ (3 + ci) := by decide

theorem class_size_ge : ∀ ci < NUM_CLASSES, 8 ≤ class_size ci := by decide

/-- Chunks fill a page. -/
theorem count_mul_class_size : ∀ ci < NUM_CLASSES, PAGE_SIZE / class_size ci * class_size ci
    = PAGE_SIZE := by
  decide

theorem class_count_pos : ∀ ci < NUM_CLASSES, 0 < PAGE_SIZE / class_size ci := by decide

theorem class_for_spec {layout : Layout} {ci : ℕ} (h : class_for layout = some ci) :
    ci < NUM_CLASSES ∧ layout.size ≤ class_size ci ∧ layout.align ≤ class_size ci := by
  obtain ⟨hlt, hsz, -⟩ := List.findIdx?_eq_some_iff_getElem.mp h
  have hget : class_size ci = SIZE_CLASSES[ci] := getD_eq_getElem _ _ hlt
  have hle := of_decide_eq_true hsz
  exact ⟨hlt, by omega, by omega⟩

section

variable {layout : Layout} {ci : ℕ}

theorem Layout.chunk.lt (h : layout.chunk ci) : ci < NUM_CLASSES := (class_for_spec h.2.2).1

theorem Layout.chunk.room (h : layout.chunk ci) : layout.room = class_size ci := by
  obtain ⟨hpos, hle, hclass⟩ := h
  unfold Layout.room
  rw [if_neg (by omega), if_neg (by omega), hclass]

theorem Layout.chunk.unique {ci' : ℕ} (h : layout.chunk ci) (h' : layout.chunk ci') : ci = ci' :=
  Option.some.inj (h.2.2.symm.trans h'.2.2)

/-- A chunk is aligned as the layout wants it, wherever in a page it is. -/
theorem Layout.chunk.align_dvd (h : layout.chunk ci) : layout.align ∣ class_size ci := by
  obtain ⟨hlt, -, hle⟩ := class_for_spec h.2.2
  obtain ⟨k, hk⟩ := layout.pow2
  rw [class_size_eq ci hlt, hk] at hle ⊢
  exact pow_dvd_pow 2 ((Nat.pow_le_pow_iff_right (by decide)).mp hle)

theorem Layout.room_large (h : PAGE_SIZE < layout.size) :
    layout.room = pages_for layout.size * PAGE_SIZE := by
  unfold Layout.room
  rw [if_neg (by omega), if_pos h]

theorem Layout.room_empty (h : layout.size = 0) : layout.room = 0 := by
  unfold Layout.room
  rw [if_pos h]

theorem pages_for_le (bytes : ℕ) : bytes ≤ pages_for bytes * PAGE_SIZE := by
  unfold pages_for PAGE_SIZE
  omega

theorem class_size_dvd : ∀ ci < NUM_CLASSES, class_size ci ∣ PAGE_SIZE := by decide

end

/-! ## `alloc` and `dealloc` -/

/-- Memory by virtual address, `SlabInner::free_lists` and the page allocator. -/
structure SlabHeap where
  mem : Mem (2 ^ 64)
  free_lists : ℕ → ℕ
  pmm : Pmm

/-- The first word of a chunk. -/
def link (mem : Mem (2 ^ 64)) (chunk : ℕ) : ℕ := leNat (mem.read chunk 8)

/-- Puts a chunk before `head`. -/
def push (mem : Mem (2 ^ 64)) (head chunk : ℕ) : Mem (2 ^ 64) := mem.write chunk (leBytes 8 head)

/-- The loop that threads the chunks of a fresh page onto a list. -/
def thread (base chunk_size : ℕ) (is : List ℕ) (mem : Mem (2 ^ 64)) (head : ℕ) : Mem (2 ^ 64) × ℕ :=
  is.foldl (fun t i => (push t.1 t.2 (base + i * chunk_size), base + i * chunk_size)) (mem, head)

/-- The slow path once it has a page: all chunks but the first go onto the free list. -/
def slice (s : SlabHeap) (ci base : ℕ) (pmm : Pmm) : SlabHeap :=
  let chunk_size := class_size ci
  let count := PAGE_SIZE / chunk_size
  let t := thread base chunk_size (List.range' 1 (count - 1)).reverse s.mem (s.free_lists ci)
  ⟨t.1, update s.free_lists ci t.2, pmm⟩

def alloc (h : Hhdm) (s : SlabHeap) (layout : Layout) : ℕ × SlabHeap :=
  if layout.size = 0 then (layout.align, s)
  else if PAGE_SIZE < layout.size then
    match alloc_contiguous s.pmm (pages_for layout.size) with
    | some (phys, pmm) => (phys_to_virt h phys, { s with pmm := pmm })
    | none => (0, s)
  else match class_for layout with
    | none => (0, s)
    | some ci =>
      if s.free_lists ci ≠ 0 then
        let node := s.free_lists ci
        (node, { s with free_lists := update s.free_lists ci (link s.mem node) })
      else match alloc_page s.pmm with
        | none => (0, s)
        | some (phys, pmm) =>
          let base := phys_to_virt h phys
          (base, slice s ci base pmm)

/-- The loop that gives back the pages of a large block. -/
def free_pages (pmm : Pmm) (phys n : ℕ) : Pmm :=
  (List.range n).foldl (fun pmm i => free_page pmm (UInt64.ofNat (phys + i * PAGE_SIZE))) pmm

def dealloc (h : Hhdm) (s : SlabHeap) (ptr : ℕ) (layout : Layout) : SlabHeap :=
  if ptr = 0 ∨ layout.size = 0 then s
  else if PAGE_SIZE < layout.size then
    { s with pmm := free_pages s.pmm (ptr - h.offset) (pages_for layout.size) }
  else match class_for layout with
    | none => s
    | some ci =>
      { s with mem := push s.mem (s.free_lists ci) ptr, free_lists := update s.free_lists ci ptr }

/-- What `alloc` can do. -/
inductive Allocs (h : Hhdm) (s : SlabHeap) (layout : Layout) : ℕ → SlabHeap → Prop
  | failed : Allocs h s layout 0 s
  | empty (hsize : layout.size = 0) : Allocs h s layout layout.align s
  | large {page : ℕ} {pmm : Pmm} (hsize : PAGE_SIZE < layout.size)
      (hrun : ClaimsRun s.pmm page (pages_for layout.size) pmm) :
      Allocs h s layout (h.offset + page * PAGE_SIZE) { s with pmm := pmm }
  | popped {ci : ℕ} (hchunk : layout.chunk ci) (hhead : s.free_lists ci ≠ 0) :
      Allocs h s layout (s.free_lists ci)
        { s with free_lists := update s.free_lists ci (link s.mem (s.free_lists ci)) }
  | sliced {ci page : ℕ} {pmm : Pmm} (hchunk : layout.chunk ci) (hhead : s.free_lists ci = 0)
      (hclaims : Claims s.pmm page pmm) :
      Allocs h s layout (h.offset + page * PAGE_SIZE) (slice s ci (h.offset + page * PAGE_SIZE) pmm)

theorem alloc_spec (h : Hhdm) (s : SlabHeap) (layout : Layout) :
    Allocs h s layout (alloc h s layout).1 (alloc h s layout).2 := by
  unfold alloc
  by_cases hzero : layout.size = 0
  · rw [if_pos hzero]
    exact .empty hzero
  rw [if_neg hzero]
  by_cases hlarge : PAGE_SIZE < layout.size
  · rw [if_pos hlarge]
    have hpages : 1 ≤ pages_for layout.size := by
      unfold pages_for PAGE_SIZE
      omega
    have hspec := alloc_contiguous_spec s.pmm hpages
    cases hrun : alloc_contiguous s.pmm (pages_for layout.size) with
    | none => exact .failed
    | some r =>
      rw [hrun] at hspec
      obtain ⟨page, hphys, hclaims, -⟩ := hspec
      dsimp only
      unfold phys_to_virt
      rw [hphys]
      exact .large hlarge hclaims
  rw [if_neg hlarge]
  cases hclass : class_for layout with
  | none => exact .failed
  | some ci =>
    have hchunk : layout.chunk ci := ⟨by omega, by omega, hclass⟩
    dsimp only
    -- an empty list takes a page and slices it
    by_cases hhead : s.free_lists ci = 0
    · rw [if_neg (not_not.mpr hhead)]
      have hspec := alloc_page_spec s.pmm
      cases hpage : alloc_page s.pmm with
      | none => exact .failed
      | some r =>
        rw [hpage] at hspec
        obtain ⟨page, hphys, hclaims⟩ := hspec
        dsimp only
        unfold phys_to_virt
        rw [hphys]
        exact .sliced hchunk hhead hclaims
    · rw [if_pos hhead]
      exact .popped hchunk hhead

/-- What `dealloc` can do with a pointer that is not null. -/
inductive Frees (h : Hhdm) (s : SlabHeap) (ptr : ℕ) (layout : Layout) : SlabHeap → Prop
  | empty (hsize : layout.size = 0) : Frees h s ptr layout s
  | large (hsize : PAGE_SIZE < layout.size) :
      Frees h s ptr layout
        { s with pmm := free_pages s.pmm (ptr - h.offset) (pages_for layout.size) }
  | chunk {ci : ℕ} (hchunk : layout.chunk ci) :
      Frees h s ptr layout
        { s with mem := push s.mem (s.free_lists ci) ptr, free_lists := update s.free_lists ci ptr }
  | misfit (hsize : 0 < layout.size) (hle : layout.size ≤ PAGE_SIZE)
    (hclass : class_for layout = none) :
      Frees h s ptr layout s

theorem dealloc_spec (h : Hhdm) (s : SlabHeap) {ptr : ℕ} (hptr : ptr ≠ 0) (layout : Layout) :
    Frees h s ptr layout (dealloc h s ptr layout) := by
  unfold dealloc
  by_cases hzero : layout.size = 0
  · rw [if_pos (.inr hzero)]
    exact .empty hzero
  rw [if_neg (by omega)]
  by_cases hlarge : PAGE_SIZE < layout.size
  · rw [if_pos hlarge]
    exact .large hlarge
  rw [if_neg hlarge]
  cases hclass : class_for layout with
  | none => exact .misfit (by omega) (by omega) hclass
  | some ci => exact .chunk ⟨by omega, by omega, hclass⟩

/-! ## Links and pages -/

/-- A write leaves the first words that it does not touch. -/
theorem link_push_of_apart {mem : Mem (2 ^ 64)} {head chunk a : ℕ}
    (h : a + 8 ≤ chunk ∨ chunk + 8 ≤ a) :
    link (push mem head chunk) a = link mem a := by
  unfold link push
  rw [Mem.read_write_disjoint _ _ _ _ _ (by rwa [length_leBytes])]

theorem link_push_self {mem : Mem (2 ^ 64)} {head chunk : ℕ} (hhead : head < 2 ^ 64)
    (hchunk : chunk + 8 ≤ 2 ^ 64) : link (push mem head chunk) chunk = head := by
  have hread := Mem.read_write_same mem chunk (leBytes 8 head) (by rwa [length_leBytes])
  rw [length_leBytes] at hread
  unfold link push
  rw [hread]
  exact leNat_leBytes 8 head (by rwa [show 256 ^ 8 = 2 ^ 64 by decide])

/-- A list whose chunks have their first words below the end of memory. -/
theorem chain_push {mem : Mem (2 ^ 64)} {head chunk : ℕ} {l : List ℕ}
    (hchain : Chain (link mem) head l)
    (hl : ∀ a ∈ l, a + 8 ≤ 2 ^ 64 ∧ (a + 8 ≤ chunk ∨ chunk + 8 ≤ a))
    (hne : chunk ≠ 0) (hchunk : chunk + 8 ≤ 2 ^ 64) :
    Chain (link (push mem head chunk)) chunk (chunk :: l) := by
  have hhead : head < 2 ^ 64 := by
    cases l with
    | nil =>
      have hzero : head = 0 := hchain
      omega
    | cons a rest =>
      obtain ⟨rfl, -, -⟩ := hchain
      have := (hl head mem_cons_self).1
      omega
  refine Chain.push ?_ hne (link_push_self hhead hchunk)
  exact hchain.congr fun a ha => link_push_of_apart (hl a ha).2

/-- The loop over the chunks `1 .. n` of a fresh page, the last of them first: the list it makes has
them in ascending order, and no word below the page or above it changes. -/
theorem thread_spec (base : ℕ) {size : ℕ} (hbase : 0 < base) (hsize : 8 ≤ size) (n : ℕ) :
    ∀ i (mem : Mem (2 ^ 64)), base + (i + n) * size ≤ 2 ^ 64 →
    Chain (link (thread base size (List.range' i n).reverse mem 0).1)
        (thread base size (List.range' i n).reverse mem 0).2
          ((List.range' i n).map fun k => base + k * size)
      ∧ ∀ a, (a + 8 ≤ base + i * size ∨ base + (i + n) * size ≤ a) →
          link (thread base size (List.range' i n).reverse mem 0).1 a = link mem a := by
  induction n with
  | zero => exact fun i mem _ => ⟨rfl, fun a _ => rfl⟩
  | succ n ih =>
    intro i mem hend
    have hlast : i + 1 + n = i + (n + 1) := by omega
    have hnext : base + (i + 1) * size = base + i * size + size := by ring
    obtain ⟨hchain, hsame⟩ := ih (i + 1) mem (by rwa [hlast])
    rw [hlast] at hsame
    rw [List.range'_succ]
    -- the loop ends with the first chunk
    have hloop : thread base size (i :: List.range' (i + 1) n).reverse mem 0
        = (push (thread base size (List.range' (i + 1) n).reverse mem 0).1
            (thread base size (List.range' (i + 1) n).reverse mem 0).2 (base + i * size),
          base + i * size) := by
      unfold thread
      rw [reverse_cons, foldl_append]
      rfl
    rw [hloop]
    have hup : (i + 1) * size ≤ (i + (n + 1)) * size := Nat.mul_le_mul_right _ (by omega)
    refine ⟨?_, fun a ha => ?_⟩
    · rw [map_cons]
      refine chain_push hchain (fun a ha => ?_) (by omega) (by omega)
      obtain ⟨k, hk, rfl⟩ := mem_map.mp ha
      obtain ⟨hlow, hhigh⟩ := mem_range'_1.mp hk
      have hk1 : (i + 1) * size ≤ k * size := Nat.mul_le_mul_right _ hlow
      have hk2 : (k + 1) * size ≤ (i + (n + 1)) * size := Nat.mul_le_mul_right _ (by omega)
      have hk3 : (k + 1) * size = k * size + size := by ring
      exact ⟨by omega, .inr (by omega)⟩
    · have hapart : a + 8 ≤ base + i * size ∨ base + i * size + 8 ≤ a := by omega
      rw [link_push_of_apart hapart]
      exact hsame a (by omega)

/-- The pages of a large block are free afterwards, the others stay as they are. -/
theorem is_used_free_run (pmm : Pmm) (page n : ℕ) (hle : page + n ≤ MAX_PAGES) (q : ℕ) :
    is_used (free_pages pmm (page * PAGE_SIZE) n) q
        = (is_used pmm q && !decide (page ≤ q ∧ q < page + n)) := by
  induction n with
  | zero =>
    rw [decide_eq_false (by omega)]
    exact (Bool.and_true _).symm
  | succ n ih =>
    have hstep : free_pages pmm (page * PAGE_SIZE) (n + 1)
        = free_page (free_pages pmm (page * PAGE_SIZE) n)
            (UInt64.ofNat (page * PAGE_SIZE + n * PAGE_SIZE)) := by
      unfold free_pages
      rw [range_succ, foldl_append]
      rfl
    have haddr : (UInt64.ofNat (page * PAGE_SIZE + n * PAGE_SIZE)).toNat / PAGE_SIZE
        = page + n := by
      rw [UInt64.toNat_ofNat', ← Nat.add_mul]
      unfold MAX_PAGES at hle
      unfold PAGE_SIZE
      omega
    rw [hstep]
    unfold free_page
    rw [haddr, if_neg (by omega), is_used_set_free]
    show (is_used (free_pages pmm (page * PAGE_SIZE) n) q && _) = _
    rw [ih (by omega), Bool.and_assoc]
    congr 1
    rw [Bool.eq_iff_iff]
    simp only [Bool.and_eq_true, Bool.not_eq_true', decide_eq_false_iff_not, decide_eq_true_eq]
    omega

end HepOS.Heap
