/-
Blocks of the kernel heap do not overlap.

The heap is looked at together with what its callers hold: the live blocks, the pages that the heap
has from the page allocator, and the pages it has ever taken for each class. Between two calls the
rest of the kernel runs. It may write into live blocks and into memory that is not the heap's, and
it may take and give back pages of its own; that is the step `other`.

The invariant counts. A live block and a chunk on a free list are cells of memory, and no address is
in two of them (`Inv.one`). A call moves a cell from one side to the other, or adds cells in pages
that nobody had, so the count of an address either stays as it is or goes from zero to one. The free
lists are threaded through their own chunks, and that no other cell lies over a chunk is the reason
that no write reaches the links.
-/
import HepOS.Heap.Slab

set_option autoImplicit false

namespace HepOS.Heap.Separation

open Bytes Cells Phys Trace Function List Bool

/-! ## The heap and its callers -/

structure Block where
  ptr : ℕ
  layout : Layout
deriving DecidableEq

/-- The address is in the block. -/
def Block.covers (b : Block) (x : ℕ) : Bool := Cells.covers b.ptr b.layout.room x

/-- The address is in the chunk of this class. -/
def chunk_covers (ci a x : ℕ) : Bool := Cells.covers a (class_size ci) x

/-- The block is a chunk of this class and the address is in it. -/
def class_covers (ci : ℕ) (b : Block) (x : ℕ) : Bool := decide (b.layout.chunk ci) && b.covers x

/-- The address is in the page. -/
def page_covers (h : Hhdm) (q x : ℕ) : Bool := Cells.covers (h.offset + q * PAGE_SIZE) PAGE_SIZE x

structure State where
  heap : SlabHeap
  live : List Block
  /-- The pages that the heap has now. -/
  took : Finset ℕ
  /-- The pages that it has ever taken for each class. -/
  taken : ℕ → Finset ℕ

/-- The pages that are in use after a call and were not before. -/
def newly (p p' : Pmm) : Finset ℕ :=
  (Finset.range MAX_PAGES).filter fun q => is_used p q = false ∧ is_used p' q = true

def State.allocated (s : State) (layout : Layout) (ptr : ℕ) (heap : SlabHeap) : State where
  heap := heap
  live := if ptr = 0 then s.live else ⟨ptr, layout⟩ :: s.live
  took := s.took ∪ newly s.heap.pmm heap.pmm
  taken := fun ci =>
    if layout.chunk ci then s.taken ci ∪ newly s.heap.pmm heap.pmm else s.taken ci

def State.freed (s : State) (b : Block) (heap : SlabHeap) : State where
  heap := heap
  live := s.live.erase b
  took := s.took.filter fun q => is_used heap.pmm q = true
  taken := s.taken

inductive Label
  | alloc (layout : Layout)
  | dealloc (b : Block)
  | other

inductive Step (h : Hhdm) (s : State) : Label → State → Prop
  | alloc {layout : Layout} (halign : layout.align ≤ PAGE_SIZE) :
      Step h s (.alloc layout)
        (s.allocated layout (Heap.alloc h s.heap layout).1 (Heap.alloc h s.heap layout).2)
  | dealloc {b : Block} (hlive : b ∈ s.live) :
      Step h s (.dealloc b) (s.freed b (Heap.dealloc h s.heap b.ptr b.layout))
  | other {mem : Mem (2 ^ 64)} {pmm : Pmm}
      (hmem : ∀ q ∈ s.took, ∀ x, page_covers h q x = true → (∀ b ∈ s.live, b.covers x = false) →
        mem.byte x = s.heap.mem.byte x)
      (hpmm : ∀ q ∈ s.took, is_used pmm q = true) :
      Step h s .other { s with heap := { s.heap with mem := mem, pmm := pmm } }

/-- Before the first call. -/
def State.start (mem : Mem (2 ^ 64)) (pmm : Pmm) : State :=
  ⟨⟨mem, fun _ => 0, pmm⟩, [], ∅, fun _ => ∅⟩

/-- The chunk is one of those that a page of `pages` is cut into. -/
def InClass (h : Hhdm) (pages : Finset ℕ) (ci a : ℕ) : Prop :=
  ∃ q ∈ pages, ∃ k < PAGE_SIZE / class_size ci, a = h.offset + q * PAGE_SIZE + k * class_size ci

/-- The heap is in order, and `free` are its free lists. -/
structure Separated (h : Hhdm) (s : State) (free : ℕ → List ℕ) : Prop where
  /-- The lists end, so they have no cycle. -/
  lists : ∀ ci < NUM_CLASSES,
    Chain (link s.heap.mem) (s.heap.free_lists ci) (free ci) ∧ (free ci).Nodup
  live : s.live.Pairwise fun b b' => ∀ x, ¬ (b.covers x = true ∧ b'.covers x = true)
  room : ∀ b ∈ s.live, b.layout.size ≤ b.layout.room ∧ b.layout.align ∣ b.ptr
    ∧ ∀ x, b.covers x = true → ∃ q ∈ s.took, page_covers h q x = true
  took : ∀ q ∈ s.took, q < MAX_PAGES ∧ is_used s.heap.pmm q = true
  live_free : ∀ b ∈ s.live, ∀ ci < NUM_CLASSES, ∀ a ∈ free ci,
    ∀ x, ¬ (b.covers x = true ∧ chunk_covers ci a x = true)
  free_apart : ∀ ci < NUM_CLASSES, (free ci).Pairwise fun a a' =>
    ∀ x, ¬ (chunk_covers ci a x = true ∧ chunk_covers ci a' x = true)
  free_free : ∀ ci < NUM_CLASSES, ∀ ci' < NUM_CLASSES, ci ≠ ci' → ∀ a ∈ free ci, ∀ a' ∈ free ci',
    ∀ x, ¬ (chunk_covers ci a x = true ∧ chunk_covers ci' a' x = true)
  /-- Each address of a page that was ever taken for a class is in one chunk of the class, live or
  free. -/
  parts : ∀ ci < NUM_CLASSES, ∀ q ∈ s.taken ci, q ∈ s.took ∧ ∀ x, page_covers h q x = true →
    covered (class_covers ci) s.live x + covered (chunk_covers ci) (free ci) x = 1
  /-- No chunk lies across two pages. -/
  within : ∀ ci < NUM_CLASSES, (∀ a ∈ free ci, InClass h (s.taken ci) ci a)
    ∧ ∀ b ∈ s.live, b.layout.chunk ci → InClass h (s.taken ci) ci b.ptr

/-! ## The invariant -/

/-- Where a live block is. -/
inductive Placed (h : Hhdm) (took : Finset ℕ) (taken : ℕ → Finset ℕ) (b : Block) : Prop
  | empty (hsize : b.layout.size = 0) (hptr : b.ptr = b.layout.align)
  | large (hsize : PAGE_SIZE < b.layout.size) (halign : b.layout.align ≤ PAGE_SIZE) (page : ℕ)
      (hptr : b.ptr = h.offset + page * PAGE_SIZE)
      (hpages : ∀ j < pages_for b.layout.size, page + j ∈ took)
  | chunk (ci : ℕ) (hchunk : b.layout.chunk ci) (hin : InClass h (taken ci) ci b.ptr)

/-- How many cells of the free lists the address is in. -/
def free_cover (free : ℕ → List ℕ) (x : ℕ) : ℕ :=
  ∑ ci ∈ Finset.range NUM_CLASSES, covered (chunk_covers ci) (free ci) x

structure Inv (h : Hhdm) (s : State) (free : ℕ → List ℕ) : Prop where
  lists : ∀ ci < NUM_CLASSES, Chain (link s.heap.mem) (s.heap.free_lists ci) (free ci)
  one : ∀ x, covered Block.covers s.live x + free_cover free x ≤ 1
  placed : ∀ b ∈ s.live, Placed h s.took s.taken b
  chunks : ∀ ci < NUM_CLASSES, ∀ a ∈ free ci, InClass h (s.taken ci) ci a
  full : ∀ ci < NUM_CLASSES, ∀ q ∈ s.taken ci, ∀ x, page_covers h q x = true →
    covered (class_covers ci) s.live x + covered (chunk_covers ci) (free ci) x = 1
  taken : ∀ ci < NUM_CLASSES, s.taken ci ⊆ s.took
  took : ∀ q ∈ s.took, q < MAX_PAGES ∧ is_used s.heap.pmm q = true

variable {a n q x : ℕ} {pages : Finset ℕ} {b : Block} {layout : Layout}
    {heap : SlabHeap} {pmm : Pmm}

section

variable {h : Hhdm} {s : State} {free : ℕ → List ℕ} {ci : ℕ}

theorem mem_newly {p p' : Pmm} :
    q ∈ newly p p' ↔ q < MAX_PAGES ∧ is_used p q = false ∧ is_used p' q = true := by
  unfold newly
  rw [Finset.mem_filter, Finset.mem_range]

theorem mem_newly_of_claimed {p p' : Pmm} {P : ℕ → Prop} [DecidablePred P]
    (hused : ∀ q, is_used p' q = (is_used p q || decide (P q)))
    (hfree : ∀ q, P q → q < MAX_PAGES ∧ is_used p q = false) : q ∈ newly p p' ↔ P q := by
  rw [mem_newly, hused]
  constructor
  · rintro ⟨-, hno, hyes⟩
    rw [hno, Bool.false_or] at hyes
    exact of_decide_eq_true hyes
  · intro hq
    exact ⟨(hfree q hq).1, (hfree q hq).2, by rw [decide_eq_true hq, Bool.or_true]⟩

theorem newly_self (p : Pmm) : newly p p = ∅ := by
  ext q
  rw [mem_newly]
  simp

theorem page_covers_iff :
    page_covers h q x = true ↔ h.offset + q * PAGE_SIZE ≤ x
        ∧ x < h.offset + q * PAGE_SIZE + PAGE_SIZE :=
  covers_iff

theorem page_covers_first : page_covers h q (h.offset + q * PAGE_SIZE) = true :=
  page_covers_iff.mpr ⟨le_rfl, Nat.lt_add_of_pos_right (by decide)⟩

theorem page_unique {q' : ℕ} (hq : page_covers h q x = true)
    (hq' : page_covers h q' x = true) : q = q' := by
  rw [page_covers_iff] at hq hq'
  unfold PAGE_SIZE at hq hq'
  omega

theorem run_of_page {page : ℕ} (hlow : page ≤ q) (hhigh : q < page + n)
    (hx : page_covers h q x = true) :
    Cells.covers (h.offset + page * PAGE_SIZE) (n * PAGE_SIZE) x = true := by
  have hx := page_covers_iff.mp hx
  have hfirst : page * PAGE_SIZE ≤ q * PAGE_SIZE := Nat.mul_le_mul_right _ hlow
  have hlast : (q + 1) * PAGE_SIZE ≤ (page + n) * PAGE_SIZE := Nat.mul_le_mul_right _ hhigh
  rw [Nat.add_mul, Nat.add_mul, Nat.one_mul] at hlast
  exact covers_iff.mpr ⟨by omega, by omega⟩

theorem page_of_run {page : ℕ}
    (hx : Cells.covers (h.offset + page * PAGE_SIZE) (n * PAGE_SIZE) x = true) :
    ∃ j < n, page_covers h (page + j) x = true := by
  have hx := covers_iff.mp hx
  have hdiv := Nat.div_add_mod' (x - h.offset - page * PAGE_SIZE) PAGE_SIZE
  have hmod := Nat.mod_lt (x - h.offset - page * PAGE_SIZE) (show 0 < PAGE_SIZE by decide)
  refine ⟨(x - h.offset - page * PAGE_SIZE) / PAGE_SIZE, ?_, page_covers_iff.mpr ?_⟩
  · rw [Nat.div_lt_iff_lt_mul (by decide)]
    omega
  · rw [Nat.add_mul]
    omega

theorem InClass.mono {pages' : Finset ℕ} (hin : InClass h pages ci a) (hsub : pages ⊆ pages') :
    InClass h pages' ci a := by
  obtain ⟨q, hq, k, hk, ha⟩ := hin
  exact ⟨q, hsub hq, k, hk, ha⟩

theorem InClass.page (hci : ci < NUM_CLASSES) (hin : InClass h pages ci a) :
    ∃ q ∈ pages, ∀ x, chunk_covers ci a x = true → page_covers h q x = true := by
  obtain ⟨q, hq, k, hk, rfl⟩ := hin
  refine ⟨q, hq, fun x hx => page_covers_iff.mpr ?_⟩
  have hx := covers_iff.mp hx
  have hfill := count_mul_class_size ci hci
  have hk : (k + 1) * class_size ci ≤ PAGE_SIZE / class_size ci * class_size ci :=
    Nat.mul_le_mul_right _ hk
  have hsucc : (k + 1) * class_size ci = k * class_size ci + class_size ci := by ring
  omega

theorem InClass.word (hci : ci < NUM_CLASSES) (hin : InClass h pages ci a)
    (hpages : ∀ q ∈ pages, q < MAX_PAGES) : a ≠ 0 ∧ a + class_size ci ≤ 2 ^ 64 := by
  obtain ⟨q, hq, hpage⟩ := hin.page hci
  have hsize := class_size_ge ci hci
  have hfirst := page_covers_iff.mp (hpage a (covers_iff.mpr (by omega)))
  have hlast := page_covers_iff.mp (hpage (a + class_size ci - 1) (covers_iff.mpr (by omega)))
  have hlt := hpages q hq
  have hpos := h.pos
  have hfits := h.fits
  unfold MAX_PAGES at hlt
  unfold PAGE_SIZE at hfirst hlast
  omega

theorem Placed.mono {took took' : Finset ℕ} {taken taken' : ℕ → Finset ℕ}
    (hb : Placed h took taken b) (htook : took ⊆ took') (htaken : ∀ ci, taken ci ⊆ taken' ci) :
    Placed h took' taken' b := by
  cases hb with
  | empty hsize hptr => exact .empty hsize hptr
  | large hsize halign page hptr hpages =>
    exact .large hsize halign page hptr fun j hj => htook (hpages j hj)
  | chunk ci hchunk hin => exact .chunk ci hchunk (hin.mono (htaken ci))

theorem Placed.ne_zero {took : Finset ℕ} {taken : ℕ → Finset ℕ} (hb : Placed h took taken b) :
    b.ptr ≠ 0 := by
  have hpos := h.pos
  cases hb with
  | empty hsize hptr =>
    obtain ⟨k, hk⟩ := b.layout.pow2
    have := Nat.two_pow_pos k
    omega
  | large hsize halign page hptr hpages => omega
  | chunk ci hchunk hin =>
    obtain ⟨q, -, k, -, ha⟩ := hin
    omega

theorem covers_chunk (hchunk : b.layout.chunk ci) (x : ℕ) :
    b.covers x = chunk_covers ci b.ptr x := by
  unfold Block.covers chunk_covers
  rw [hchunk.room]

theorem covers_empty (hsize : b.layout.size = 0) (x : ℕ) : b.covers x = false := by
  unfold Block.covers
  rw [Layout.room_empty hsize, ← not_eq_true, covers_iff]
  omega

theorem class_covers_of_covers (hx : b.covers x = false) : class_covers ci b x = false := by
  unfold class_covers
  rw [hx, Bool.and_false]

theorem class_covers_of_chunk (hchunk : b.layout.chunk ci) (x : ℕ) :
    class_covers ci b x = b.covers x := by
  unfold class_covers
  rw [decide_eq_true hchunk, Bool.true_and]

theorem class_covers_of_not (hchunk : ¬ b.layout.chunk ci) (x : ℕ) :
    class_covers ci b x = false := by
  unfold class_covers
  rw [decide_eq_false hchunk, Bool.false_and]

theorem class_covered_le (ci : ℕ) (l : List Block) (x : ℕ) :
    covered (class_covers ci) l x ≤ covered Block.covers l x :=
  countP_mono_left fun _ _ hb => (and_eq_true_iff.mp hb).2

theorem free_cover_update (free : ℕ → List ℕ) (hci : ci < NUM_CLASSES) (l : List ℕ) (x : ℕ) :
    free_cover (update free ci l) x + covered (chunk_covers ci) (free ci) x
      = free_cover free x + covered (chunk_covers ci) l x := by
  have hmem := Finset.mem_range.mpr hci
  unfold free_cover
  rw [← Finset.add_sum_erase _ _ hmem, ← Finset.add_sum_erase _ _ hmem, update_self]
  have hrest : ∑ c ∈ (Finset.range NUM_CLASSES).erase ci,
    covered (chunk_covers c) (update free ci l c) x
      = ∑ c ∈ (Finset.range NUM_CLASSES).erase ci, covered (chunk_covers c) (free c) x := by
    refine Finset.sum_congr rfl fun c hc => ?_
    rw [update_of_ne (Finset.ne_of_mem_erase hc)]
  omega

theorem covered_le_free_cover (free : ℕ → List ℕ) (hci : ci < NUM_CLASSES) (x : ℕ) :
    covered (chunk_covers ci) (free ci) x ≤ free_cover free x :=
  Finset.single_le_sum (f := fun c => covered (chunk_covers c) (free c) x)
    (fun _ _ => Nat.zero_le _)
    (Finset.mem_range.mpr hci)

theorem exists_of_free_cover_pos (hpos : 0 < free_cover free x) :
    ∃ ci < NUM_CLASSES, ∃ a ∈ free ci, chunk_covers ci a x = true := by
  obtain ⟨ci, hci, hcov⟩ := Finset.exists_ne_zero_of_sum_ne_zero (Nat.pos_iff_ne_zero.mp hpos)
  obtain ⟨a, ha, hx⟩ := exists_of_covered_pos (Nat.pos_iff_ne_zero.mpr hcov)
  exact ⟨ci, Finset.mem_range.mp hci, a, ha, hx⟩

section

variable (hinv : Inv h s free)

include hinv

theorem Inv.live_page (hb : b ∈ s.live) (hx : b.covers x = true) :
    ∃ q ∈ s.took, page_covers h q x = true := by
  cases hinv.placed b hb with
  | empty hsize hptr =>
    rw [covers_empty hsize] at hx
    simp at hx
  | large hsize halign page hptr hpages =>
    unfold Block.covers at hx
    rw [Layout.room_large hsize, hptr] at hx
    obtain ⟨j, hj, hin⟩ := page_of_run hx
    exact ⟨page + j, hpages j hj, hin⟩
  | chunk ci hchunk hin =>
    obtain ⟨q, hq, hpage⟩ := hin.page hchunk.lt
    rw [covers_chunk hchunk] at hx
    exact ⟨q, hinv.taken ci hchunk.lt hq, hpage x hx⟩

theorem Inv.free_page (hci : ci < NUM_CLASSES) (ha : a ∈ free ci)
    (hx : chunk_covers ci a x = true) : ∃ q ∈ s.took, page_covers h q x = true := by
  obtain ⟨q, hq, hpage⟩ := (hinv.chunks ci hci a ha).page hci
  exact ⟨q, hinv.taken ci hci hq, hpage x hx⟩

theorem Inv.nothing (hq : q ∉ s.took) (hx : page_covers h q x = true) :
    covered Block.covers s.live x = 0 ∧ free_cover free x = 0 := by
  constructor
  · by_contra hpos
    obtain ⟨b, hb, hbx⟩ := exists_of_covered_pos (Nat.pos_iff_ne_zero.mpr hpos)
    obtain ⟨q', hq', hx'⟩ := hinv.live_page hb hbx
    exact hq (page_unique hx hx' ▸ hq')
  · by_contra hpos
    obtain ⟨ci, hci, a, ha, hax⟩ := exists_of_free_cover_pos (Nat.pos_iff_ne_zero.mpr hpos)
    obtain ⟨q', hq', hx'⟩ := hinv.free_page hci ha hax
    exact hq (page_unique hx hx' ▸ hq')

theorem Inv.not_took (hq : is_used s.heap.pmm q = false) : q ∉ s.took := by
  intro hmem
  rw [(hinv.took q hmem).2] at hq
  exact absurd hq (by decide)

/-- A live block lies over no chunk of a free list. -/
theorem Inv.live_free (hb : b ∈ s.live) (hci : ci < NUM_CLASSES)
    (ha : a ∈ free ci) (x : ℕ) : ¬ (b.covers x = true ∧ chunk_covers ci a x = true) := by
  rintro ⟨hbx, hax⟩
  have hone := hinv.one x
  have hlive := covered_pos Block.covers hb hbx
  have hfree := covered_pos (chunk_covers ci) ha hax
  have hle := covered_le_free_cover free hci x
  omega

theorem Inv.free_free (hci : ci < NUM_CLASSES) {ci' : ℕ} (hci' : ci' < NUM_CLASSES)
    (hne : ci ≠ ci') {a' : ℕ} (ha : a ∈ free ci) (ha' : a' ∈ free ci') (x : ℕ) :
    ¬ (chunk_covers ci a x = true ∧ chunk_covers ci' a' x = true) := by
  rintro ⟨hax, hax'⟩
  have hone := hinv.one x
  have hpos := covered_pos (chunk_covers ci) ha hax
  have hpos' := covered_pos (chunk_covers ci') ha' hax'
  -- both terms are in the sum
  have hsum : covered (chunk_covers ci) (free ci) x + covered (chunk_covers ci') (free ci') x
      ≤ free_cover free x := by
    unfold free_cover
    rw [← Finset.add_sum_erase _ _ (Finset.mem_range.mpr hci)]
    refine Nat.add_le_add_left ?_ _
    exact Finset.single_le_sum (f := fun c => covered (chunk_covers c) (free c) x)
      (fun _ _ => Nat.zero_le _)
      (Finset.mem_erase.mpr ⟨hne.symm, Finset.mem_range.mpr hci'⟩)
  omega

end

/-- Two cells that share no address are apart by their whole length. -/
theorem apart_of_covers {b m : ℕ} (hm : 8 ≤ m) (hn : 8 ≤ n)
    (hno : ∀ x, ¬ (Cells.covers a m x = true ∧ Cells.covers b n x = true)) :
    a + 8 ≤ b ∨ b + 8 ≤ a := by
  have hab := hno (max a b)
  rw [covers_iff, covers_iff] at hab
  omega

/-- **Separation**, from the invariant. -/
theorem Inv.separated (hinv : Inv h s free) : Separated h s free where
  lists ci hci := ⟨hinv.lists ci hci, (hinv.lists ci hci).nodup⟩
  live := pairwise_of_count_le_one fun x => by
    have hone := hinv.one x
    omega
  room b hb := by
    refine ⟨?_, ?_, fun x hx => hinv.live_page hb hx⟩
    · cases hinv.placed b hb with
      | empty hsize hptr => omega
      | large hsize halign page hptr hpages =>
        rw [Layout.room_large hsize]
        exact pages_for_le _
      | chunk ci hchunk hin =>
        rw [hchunk.room]
        exact (class_for_spec hchunk.2.2).2.1
    · have hoffset : PAGE_SIZE ∣ h.offset := Nat.dvd_of_mod_eq_zero h.aligned
      cases hinv.placed b hb with
      | empty hsize hptr => rw [hptr]
      | large hsize halign page hptr hpages =>
        -- a power of two up to the page size divides it
        obtain ⟨k, hk⟩ := b.layout.pow2
        have hdvd : b.layout.align ∣ PAGE_SIZE := by
          rw [hk] at halign ⊢
          rw [show PAGE_SIZE = 2 ^ 12 from rfl] at halign ⊢
          exact pow_dvd_pow 2 ((Nat.pow_le_pow_iff_right (by decide)).mp halign)
        rw [hptr]
        exact hdvd.trans (Nat.dvd_add hoffset (Nat.dvd_mul_left _ _))
      | chunk ci hchunk hin =>
        obtain ⟨q, -, k, -, ha⟩ := hin
        have hpage := class_size_dvd ci hchunk.lt
        rw [ha]
        refine hchunk.align_dvd.trans (Nat.dvd_add (Nat.dvd_add ?_ ?_) (Nat.dvd_mul_left _ _))
        · exact hpage.trans hoffset
        · exact hpage.trans (Nat.dvd_mul_left _ _)
  took := hinv.took
  live_free b hb ci hci a ha x := hinv.live_free hb hci ha x
  free_apart ci hci := pairwise_of_count_le_one fun x => by
    have hone := hinv.one x
    have hle := covered_le_free_cover free hci x
    omega
  free_free ci hci ci' hci' hne a ha a' ha' x := hinv.free_free hci hci' hne ha ha' x
  parts ci hci q hq := ⟨hinv.taken ci hci hq, hinv.full ci hci q hq⟩
  within ci hci := by
    refine ⟨hinv.chunks ci hci, fun b hb hchunk => ?_⟩
    cases hinv.placed b hb with
    | empty hsize hptr => exact absurd hchunk.1 (by omega)
    | large hsize halign page hptr hpages => exact absurd hchunk.2.1 (by omega)
    | chunk ci' hchunk' hin => exact hchunk.unique hchunk' ▸ hin

/-! ## One call -/

theorem lists_update {next : ℕ → ℕ} {heads : ℕ → ℕ} {head : ℕ} {l : List ℕ} (hl : Chain next head l)
    (hrest : ∀ c < NUM_CLASSES, c ≠ ci → Chain next (heads c) (free c)) :
    ∀ c < NUM_CLASSES, Chain next (update heads ci head c) (update free ci l c) := by
  intro c hc
  by_cases hcc : c = ci
  · rw [hcc, update_self, update_self]
    exact hl
  · rw [update_of_ne hcc, update_of_ne hcc]
    exact hrest c hc hcc

theorem chunks_update {P : ℕ → ℕ → Prop} {l : List ℕ} (hl : ∀ a ∈ l, P ci a)
    (hrest : ∀ c < NUM_CLASSES, c ≠ ci → ∀ a ∈ free c, P c a) :
    ∀ c < NUM_CLASSES, ∀ a ∈ update free ci l c, P c a := by
  intro c hc a ha
  by_cases hcc : c = ci
  · rw [hcc, update_self] at ha
    exact hcc ▸ hl a ha
  · rw [update_of_ne hcc] at ha
    exact hrest c hc hcc a ha

theorem Inv.took_newly (hinv : Inv h s free)
    (hmono : ∀ q, is_used s.heap.pmm q = true → is_used pmm q = true)
    (hq : q ∈ s.took ∪ newly s.heap.pmm pmm) : q < MAX_PAGES ∧ is_used pmm q = true := by
  rcases Finset.mem_union.mp hq with hold | hnew
  · exact ⟨(hinv.took q hold).1, hmono q (hinv.took q hold).2⟩
  · obtain ⟨hlt, -, hused⟩ := mem_newly.mp hnew
    exact ⟨hlt, hused⟩

theorem inv_start (mem : Mem (2 ^ 64)) (pmm : Pmm) : Inv h (State.start mem pmm) fun _ => [] where
  lists _ _ := rfl
  one x := by
    show 0 + ∑ ci ∈ Finset.range NUM_CLASSES, 0 ≤ 1
    simp
  placed b hb := absurd hb not_mem_nil
  chunks _ _ a ha := absurd ha not_mem_nil
  full _ _ q hq := absurd hq (Finset.notMem_empty q)
  taken _ _ := Finset.Subset.refl _
  took q hq := absurd hq (Finset.notMem_empty q)

theorem allocated_same {ptr : ℕ} (hpmm : heap.pmm = s.heap.pmm) : s.allocated layout ptr heap
      = { s with heap := heap, live := if ptr = 0 then s.live else ⟨ptr, layout⟩ :: s.live } := by
  unfold State.allocated
  rw [hpmm, newly_self]
  simp only [Finset.union_empty, ite_self]

theorem Inv.alloc_empty (hinv : Inv h s free) (hsize : layout.size = 0) :
    Inv h (s.allocated layout layout.align s.heap) free := by
  obtain ⟨k, hk⟩ := layout.pow2
  have hne : layout.align ≠ 0 := by
    have := Nat.two_pow_pos k
    omega
  have hnone : ∀ x, Block.covers ⟨layout.align, layout⟩ x = false := covers_empty hsize
  rw [allocated_same rfl, if_neg hne]
  refine { hinv with one := fun x => ?_, placed := ?_, full := fun ci hci q hq x hx => ?_ }
  · rw [covered_cons, hnone]
    exact hinv.one x
  · exact forall_mem_cons.mpr ⟨.empty hsize rfl, hinv.placed⟩
  · rw [covered_cons, class_covers_of_covers (hnone x)]
    exact hinv.full ci hci q hq x hx

theorem Inv.alloc_large (hinv : Inv h s free) {page : ℕ}
    (halign : layout.align ≤ PAGE_SIZE) (hsize : PAGE_SIZE < layout.size)
    (hrun : ClaimsRun s.heap.pmm page (pages_for layout.size) pmm) :
    Inv h (s.allocated layout (h.offset + page * PAGE_SIZE) { s.heap with pmm := pmm }) free := by
  have hpos := h.pos
  have hchunk : ∀ ci, ¬ layout.chunk ci := fun ci hc => absurd hc.2.1 (by omega)
  have hnew : ∀ q, q ∈ newly s.heap.pmm pmm ↔ page ≤ q ∧ q < page + pages_for layout.size := by
    intro q
    have hle := hrun.le
    exact mem_newly_of_claimed hrun.used fun q hq => ⟨by omega, hrun.free q hq.1 hq.2⟩
  have hstate : s.allocated layout (h.offset + page * PAGE_SIZE) { s.heap with pmm := pmm }
      = ⟨{ s.heap with pmm := pmm }, ⟨h.offset + page * PAGE_SIZE, layout⟩ :: s.live,
          s.took ∪ newly s.heap.pmm pmm, s.taken⟩ := by
    unfold State.allocated
    rw [if_neg (by omega)]
    congr 1
    funext ci
    rw [if_neg (hchunk ci)]
  rw [hstate]
  refine ⟨hinv.lists, fun x => ?_, fun b hb => ?_, hinv.chunks, fun ci hci q hq x hx => ?_,
    fun ci hci => ?_, fun q hq => ?_⟩
  · rw [covered_cons]
    by_cases hx : Block.covers ⟨h.offset + page * PAGE_SIZE, layout⟩ x = true
    · -- the new pages were nobody's
      have hin := hx
      unfold Block.covers at hin
      rw [Layout.room_large hsize] at hin
      obtain ⟨j, hj, hpage⟩ := page_of_run hin
      have hnot := hinv.not_took (hrun.free (page + j) (by omega) (by omega))
      obtain ⟨hlive, hfree⟩ := hinv.nothing hnot hpage
      rw [if_pos hx, hlive, hfree]
    · rw [if_neg hx]
      exact hinv.one x
  · rcases mem_cons.mp hb with rfl | hb
    · refine .large hsize halign page rfl fun j hj => Finset.mem_union_right _ ((hnew _).mpr ?_)
      dsimp only at hj
      omega
    · exact (hinv.placed b hb).mono Finset.subset_union_left fun _ => Finset.Subset.refl _
  · rw [covered_cons, class_covers_of_not (hchunk ci)]
    exact hinv.full ci hci q hq x hx
  · exact (hinv.taken ci hci).trans Finset.subset_union_left
  · exact hinv.took_newly (fun q hu => by rw [hrun.used, hu, Bool.true_or]) hq

theorem Inv.alloc_popped (hinv : Inv h s free) (hchunk : layout.chunk ci)
    (hhead : s.heap.free_lists ci ≠ 0) :
    ∃ free', Inv h (s.allocated layout (s.heap.free_lists ci) { s.heap with
      free_lists := update s.heap.free_lists ci (link s.heap.mem (s.heap.free_lists ci)) })
          free' := by
  have hci := hchunk.lt
  obtain ⟨rest, hlist, hrest⟩ := (hinv.lists ci hci).exists_cons hhead
  have hin := hinv.chunks ci hci (s.heap.free_lists ci) (by rw [hlist]; exact mem_cons_self)
  refine ⟨update free ci rest, ?_⟩
  rw [allocated_same (by rfl), if_neg hhead]
  refine ⟨lists_update hrest fun c hc _ => hinv.lists c hc, fun x => ?_,
    forall_mem_cons.mpr ⟨.chunk ci hchunk hin, hinv.placed⟩,
      chunks_update (fun a ha => hinv.chunks ci hci a (by rw [hlist]; exact mem_cons_of_mem _ ha))
      fun c hc _ => hinv.chunks c hc, fun c hc q hq x hx => ?_, hinv.taken, hinv.took⟩
  · -- the cell has changed sides
    have hone := hinv.one x
    have hupdate := free_cover_update free hci rest x
    have hcell := covers_chunk (b := ⟨s.heap.free_lists ci, layout⟩) hchunk x
    rw [hlist, covered_cons] at hupdate
    rw [covered_cons, hcell]
    dsimp only at hupdate ⊢
    omega
  · have hfull := hinv.full c hc q hq x hx
    rw [covered_cons]
    by_cases hcc : c = ci
    · subst hcc
      rw [hlist, covered_cons] at hfull
      rw [update_self, class_covers_of_chunk hchunk, covers_chunk hchunk]
      dsimp only at hfull ⊢
      omega
    · rw [update_of_ne hcc, class_covers_of_not fun hc' => hcc (hc'.unique hchunk)]
      exact hfull

/-- The chunks of a page, the first one apart from the others. -/
theorem tiles_cons {base size : ℕ} (hn : 0 < n) : (List.range n).map (fun k => base + k * size)
      = base :: (List.range' 1 (n - 1)).map fun k => base + k * size := by
  obtain ⟨m, rfl⟩ := Nat.exists_eq_succ_of_ne_zero (by omega : n ≠ 0)
  rw [range_eq_range', List.range'_succ, map_cons, Nat.zero_mul, Nat.add_zero, Nat.zero_add]
  rfl

theorem tiles_cover (hci : ci < NUM_CLASSES) (page x : ℕ) : covered (chunk_covers ci)
        ((List.range' 1 (PAGE_SIZE / class_size ci - 1)).map fun k =>
          h.offset + page * PAGE_SIZE + k * class_size ci) x
      + (if chunk_covers ci (h.offset + page * PAGE_SIZE) x then 1 else 0)
      = if page_covers h page x then 1 else 0 := by
  have htiles := count_tiles (h.offset + page * PAGE_SIZE) (class_size ci) x
    (PAGE_SIZE / class_size ci)
  rw [count_mul_class_size ci hci, tiles_cons (class_count_pos ci hci), covered_cons] at htiles
  exact htiles

section

variable (hinv : Inv h s free)

include hinv

theorem Inv.alloc_sliced {page : ℕ}
    (hchunk : layout.chunk ci) (hhead : s.heap.free_lists ci = 0)
    (hclaims : Claims s.heap.pmm page pmm) :
    ∃ free', Inv h (s.allocated layout (h.offset + page * PAGE_SIZE)
      (slice s.heap ci (h.offset + page * PAGE_SIZE) pmm)) free' := by
  have hci := hchunk.lt
  have hpos := h.pos
  have hfits := h.fits
  have hsize := class_size_ge ci hci
  have hfill := count_mul_class_size ci hci
  have hlt := hclaims.lt
  have hpage := hinv.not_took hclaims.free
  -- the list was empty
  have hlist := hinv.lists ci hci
  rw [hhead] at hlist
  have hnil := hlist.eq_nil
  have hnew : newly s.heap.pmm pmm = {page} := by
    ext q
    rw [mem_newly_of_claimed hclaims.used fun q hq => ⟨hq ▸ hlt, hq ▸ hclaims.free⟩,
      Finset.mem_singleton]
  have hcount : 1 + (PAGE_SIZE / class_size ci - 1) = PAGE_SIZE / class_size ci :=
    Nat.add_sub_cancel' (class_count_pos ci hci)
  have hend : h.offset + page * PAGE_SIZE + PAGE_SIZE ≤ 2 ^ 64 := by
    unfold MAX_PAGES at hlt
    unfold PAGE_SIZE
    omega
  obtain ⟨hthread, hsame⟩ := thread_spec (h.offset + page * PAGE_SIZE) (by omega) hsize
    (PAGE_SIZE / class_size ci - 1) 1 s.heap.mem (by rwa [hcount, hfill])
  rw [hcount, hfill] at hsame
  have htiles := tiles_cover (h := h) hci page
  generalize hlistnew : (List.range' 1 (PAGE_SIZE / class_size ci - 1)).map (fun k =>
    h.offset + page * PAGE_SIZE + k * class_size ci) = chunks at hthread htiles
  have hslice : slice s.heap ci (h.offset + page * PAGE_SIZE) pmm
      = ⟨(thread (h.offset + page * PAGE_SIZE) (class_size ci)
            (List.range' 1 (PAGE_SIZE / class_size ci - 1)).reverse s.heap.mem 0).1,
          update s.heap.free_lists ci (thread (h.offset + page * PAGE_SIZE) (class_size ci)
            (List.range' 1 (PAGE_SIZE / class_size ci - 1)).reverse s.heap.mem 0).2, pmm⟩ := by
    unfold slice
    rw [hhead]
  rw [hslice]
  have hone : ∀ x, covered Block.covers (⟨h.offset + page * PAGE_SIZE, layout⟩ :: s.live) x
      + free_cover (update free ci chunks) x ≤ 1 := by
    intro x
    have hone := hinv.one x
    have hupdate := free_cover_update free hci chunks x
    have htile := htiles x
    have hcell := covers_chunk (b := ⟨h.offset + page * PAGE_SIZE, layout⟩) hchunk x
    rw [covered_cons, hcell]
    dsimp only
    by_cases hx : page_covers h page x = true
    · obtain ⟨hlive, hfree⟩ := hinv.nothing hpage hx
      rw [if_pos hx] at htile
      omega
    · rw [if_neg hx] at htile
      omega
  have htaken : ∀ c, s.taken c ⊆ if layout.chunk c then s.taken c ∪ {page} else s.taken c := by
    intro c
    split_ifs
    · exact Finset.subset_union_left
    · exact Finset.Subset.refl _
  refine ⟨update free ci chunks, ?_⟩
  have htook : ∀ q ∈ s.took ∪ newly s.heap.pmm pmm, q < MAX_PAGES ∧ is_used pmm q = true :=
    fun q hq => hinv.took_newly (fun q hu => by rw [hclaims.used, hu, Bool.true_or]) hq
  unfold State.allocated
  rw [if_neg (by omega)]
  rw [hnew] at htook ⊢
  refine ⟨lists_update hthread fun c hc hcc => ?_, hone, fun b hb => ?_,
    chunks_update ?_ fun c hc _ a ha => ?_, fun c hc q hq x hx => ?_, fun c hc => ?_, htook⟩
  · -- the links of the other lists are in other pages
    refine (hinv.lists c hc).congr fun a ha => hsame a ?_
    obtain ⟨q, hq, hin⟩ := (hinv.chunks c hc a ha).page hc
    have hword := class_size_ge c hc
    have hfirst := page_covers_iff.mp (hin a (covers_iff.mpr (by omega)))
    have hlast := page_covers_iff.mp (hin (a + 7) (covers_iff.mpr (by omega)))
    have hne : q ≠ page := fun heq => hpage (heq ▸ hinv.taken c hc hq)
    unfold PAGE_SIZE at hfirst hlast ⊢
    omega
  · rcases mem_cons.mp hb with rfl | hb
    · refine .chunk ci hchunk ⟨page, ?_, 0, by omega, by rw [Nat.zero_mul, Nat.add_zero]⟩
      dsimp only
      rw [if_pos hchunk]
      exact Finset.mem_union_right _ (Finset.mem_singleton_self _)
    · exact (hinv.placed b hb).mono Finset.subset_union_left htaken
  · intro a ha
    rw [← hlistnew] at ha
    obtain ⟨k, hk, rfl⟩ := mem_map.mp ha
    obtain ⟨-, hk⟩ := mem_range'_1.mp hk
    dsimp only
    rw [if_pos hchunk]
    exact ⟨page, Finset.mem_union_right _ (Finset.mem_singleton_self _), k, by omega, rfl⟩
  · exact (hinv.chunks c hc a ha).mono (htaken c)
  · rw [covered_cons]
    dsimp only at hq
    by_cases hcc : c = ci
    · subst hcc
      have htile := htiles x
      rw [if_pos hchunk] at hq
      rw [update_self, class_covers_of_chunk hchunk, covers_chunk hchunk]
      dsimp only
      have hzero : covered (chunk_covers c) ([] : List ℕ) x = 0 := rfl
      rcases Finset.mem_union.mp hq with hold | hq
      · -- an old page: the new chunks are elsewhere
        have hfull := hinv.full c hc q hold x hx
        have hout : ¬ page_covers h page x = true := fun hx' =>
          hpage (page_unique hx hx' ▸ hinv.taken c hc hold)
        rw [if_neg hout] at htile
        rw [hnil, hzero] at hfull
        omega
      · obtain rfl := Finset.mem_singleton.mp hq
        have hlive := (hinv.nothing hpage hx).1
        have hle := class_covered_le c s.live x
        rw [if_pos hx] at htile
        omega
    · have hno : ¬ layout.chunk c := fun hc' => hcc (hc'.unique hchunk)
      rw [if_neg hno] at hq
      rw [update_of_ne hcc, class_covers_of_not hno]
      exact hinv.full c hc q hq x hx
  · dsimp only
    split_ifs with hc'
    · exact Finset.union_subset_union_left (hinv.taken c hc)
    · exact (hinv.taken c hc).trans Finset.subset_union_left

theorem Inv.allocs {ptr : ℕ} (halign : layout.align ≤ PAGE_SIZE)
    (halloc : Allocs h s.heap layout ptr heap) :
    ∃ free', Inv h (s.allocated layout ptr heap) free' := by
  cases halloc with
  | failed =>
    rw [allocated_same rfl, if_pos rfl]
    exact ⟨free, hinv⟩
  | empty hsize => exact ⟨free, hinv.alloc_empty hsize⟩
  | large hsize hrun => exact ⟨free, hinv.alloc_large halign hsize hrun⟩
  | popped hchunk hhead => exact hinv.alloc_popped hchunk hhead
  | sliced hchunk hhead hclaims => exact hinv.alloc_sliced hchunk hhead hclaims

theorem Inv.freed_same (hpmm : heap.pmm = s.heap.pmm) :
    s.freed b heap = { s with heap := heap, live := s.live.erase b } := by
  unfold State.freed
  rw [hpmm, Finset.filter_true_of_mem fun q hq => (hinv.took q hq).2]

theorem Inv.dealloc_empty (hb : b ∈ s.live) (hsize : b.layout.size = 0) :
    Inv h (s.freed b s.heap) free := by
  rw [hinv.freed_same rfl]
  refine { hinv with
    one := fun x => ?_, placed := fun b' hb' => ?_, full := fun ci hci q hq x hx => ?_ }
  · have herase := covered_erase Block.covers x hb
    have hone := hinv.one x
    dsimp only
    omega
  · exact hinv.placed b' (mem_of_mem_erase hb')
  · dsimp only
    rw [covered_erase_of_not hb (class_covers_of_covers (covers_empty hsize x))]
    exact hinv.full ci hci q hq x hx

theorem Inv.dealloc_chunk {b : Block} (hb : b ∈ s.live) (hchunk : b.layout.chunk ci) :
    ∃ free', Inv h (s.freed b { s.heap with
      mem := push s.heap.mem (s.heap.free_lists ci) b.ptr,
      free_lists := update s.heap.free_lists ci b.ptr }) free' := by
  have hci := hchunk.lt
  have hcell := fun x => covers_chunk hchunk x
  have hsize := class_size_ge ci hci
  have hin : InClass h (s.taken ci) ci b.ptr := (hinv.separated.within ci hci).2 b hb hchunk
  have hword := hin.word hci fun q hq => (hinv.took q (hinv.taken ci hci hq)).1
  -- the link goes into the block, and no chunk of a list is there
  have hapart : ∀ c < NUM_CLASSES, ∀ a ∈ free c, a + 8 ≤ b.ptr ∨ b.ptr + 8 ≤ a := by
    intro c hc a ha
    refine apart_of_covers (class_size_ge c hc) hsize fun x hx => ?_
    refine hinv.live_free hb hc ha x ⟨?_, hx.1⟩
    rw [hcell]
    exact hx.2
  refine ⟨update free ci (b.ptr :: free ci), ?_⟩
  rw [hinv.freed_same (by rfl)]
  refine ⟨lists_update ?_ fun c hc _ => (hinv.lists c hc).congr fun a ha =>
    link_push_of_apart (hapart c hc a ha),
    fun x => ?_, fun b' hb' => hinv.placed b' (mem_of_mem_erase hb'),
    chunks_update (forall_mem_cons.mpr ⟨hin, hinv.chunks ci hci⟩) fun c hc _ => hinv.chunks c hc,
    fun c hc q hq x hx => ?_, hinv.taken, hinv.took⟩
  · refine chain_push (hinv.lists ci hci) (fun a ha => ⟨?_, hapart ci hci a ha⟩) hword.1 (by omega)
    have := (hinv.chunks ci hci a ha).word hci fun q hq => (hinv.took q (hinv.taken ci hci hq)).1
    omega
  · have hone := hinv.one x
    have herase := covered_erase Block.covers x hb
    have hupdate := free_cover_update free hci (b.ptr :: free ci) x
    rw [covered_cons] at hupdate
    rw [hcell] at herase
    dsimp only
    omega
  · have hfull := hinv.full c hc q hq x hx
    dsimp only
    by_cases hcc : c = ci
    · subst hcc
      have herase := covered_erase (class_covers c) x hb
      rw [class_covers_of_chunk hchunk, hcell] at herase
      rw [update_self, covered_cons]
      omega
    · rw [covered_erase_of_not hb (class_covers_of_not (fun hc' => hcc (hc'.unique hchunk)) x),
        update_of_ne hcc]
      exact hfull

theorem Inv.dealloc_large {b : Block} (hb : b ∈ s.live) (hsize : PAGE_SIZE < b.layout.size) :
    Inv h (s.freed b { s.heap with
      pmm := free_pages s.heap.pmm (b.ptr - h.offset) (pages_for b.layout.size) }) free := by
  obtain ⟨page, hptr, hpages⟩ : ∃ page, b.ptr = h.offset + page * PAGE_SIZE
      ∧ ∀ j < pages_for b.layout.size, page + j ∈ s.took := by
    cases hinv.placed b hb with
    | empty hzero => omega
    | large _ _ page hptr hpages => exact ⟨page, hptr, hpages⟩
    | chunk ci hchunk => exact absurd hchunk.2.1 (by omega)
  have hchunk : ∀ ci, ¬ b.layout.chunk ci := fun ci hc => absurd hc.2.1 (by omega)
  have hn : 0 < pages_for b.layout.size := by
    unfold pages_for PAGE_SIZE
    omega
  have hmax : page + pages_for b.layout.size ≤ MAX_PAGES := by
    have := (hinv.took _ (hpages (pages_for b.layout.size - 1) (by omega))).1
    omega
  have hused := is_used_free_run s.heap.pmm page (pages_for b.layout.size) hmax
  rw [hptr, Nat.add_sub_cancel_left]
  generalize free_pages s.heap.pmm (page * PAGE_SIZE) (pages_for b.layout.size) = pmm at hused
  -- whatever else has an address of a page of the heap has it outside the block's pages
  have hstay : ∀ q ∈ s.took, ∀ x, page_covers h q x = true → b.covers x = false →
      is_used pmm q = true := by
    intro q hq x hx hbx
    rw [hused, (hinv.took q hq).2, Bool.true_and, not_eq_true', decide_eq_false_iff_not]
    intro hrun
    refine absurd hbx ?_
    rw [not_eq_false]
    unfold Block.covers
    rw [Layout.room_large hsize, hptr]
    exact run_of_page hrun.1 hrun.2 hx
  have hstay_live : ∀ b' ∈ s.live.erase b, ∀ x, b'.covers x = true → b.covers x = false := by
    intro b' hb' x hx
    have hone := hinv.one x
    have herase := covered_erase Block.covers x hb
    have hpos := covered_pos Block.covers hb' hx
    by_contra hbx
    rw [if_pos (by simpa using hbx)] at herase
    omega
  have htaken : ∀ ci < NUM_CLASSES, ∀ q ∈ s.taken ci, is_used pmm q = true := by
    intro ci hci q hq
    refine hstay q (hinv.taken ci hci hq) _ page_covers_first ?_
    by_contra hbx
    -- the page's first address is in a chunk of the class, and the block is none
    have hfull := hinv.full ci hci q hq _ page_covers_first
    have hone := hinv.one (h.offset + q * PAGE_SIZE)
    have hle := covered_le_free_cover free hci (h.offset + q * PAGE_SIZE)
    have herase := covered_erase Block.covers (h.offset + q * PAGE_SIZE) hb
    have herase' :=
      covered_erase_of_not hb (class_covers_of_not (hchunk ci) (h.offset + q * PAGE_SIZE))
    rw [if_pos (by simpa using hbx)] at herase
    have hmono := class_covered_le ci (s.live.erase b) (h.offset + q * PAGE_SIZE)
    omega
  have herase : ∀ x, covered Block.covers (s.live.erase b) x ≤ covered Block.covers s.live x := by
    intro x
    have := covered_erase Block.covers x hb
    omega
  unfold State.freed
  refine ⟨hinv.lists, fun x => ?_, fun b' hb' => ?_, hinv.chunks, fun ci hci q hq x hx => ?_,
    fun ci hci q hq => ?_, fun q hq => ?_⟩
  · have hone := hinv.one x
    have hle := herase x
    dsimp only
    omega
  · have hplaced := hinv.placed b' (mem_of_mem_erase hb')
    cases hplaced with
    | empty hsize' hptr' => exact .empty hsize' hptr'
    | large hsize' halign' page' hptr' hpages' =>
      refine .large hsize' halign' page' hptr' fun j hj => Finset.mem_filter.mpr ⟨hpages' j hj, ?_⟩
      refine hstay _ (hpages' j hj) _ page_covers_first (hstay_live b' hb' _ ?_)
      unfold Block.covers
      rw [Layout.room_large hsize', hptr']
      exact run_of_page (Nat.le_add_right _ _) (by omega) page_covers_first
    | chunk ci hchunk' hin => exact .chunk ci hchunk' hin
  · dsimp only
    rw [covered_erase_of_not hb (class_covers_of_not (hchunk ci) x)]
    exact hinv.full ci hci q hq x hx
  · exact Finset.mem_filter.mpr ⟨hinv.taken ci hci hq, htaken ci hci q hq⟩
  · obtain ⟨hold, hu⟩ := Finset.mem_filter.mp hq
    exact ⟨(hinv.took q hold).1, hu⟩

theorem Inv.frees (hb : b ∈ s.live)
    (hfree : Frees h s.heap b.ptr b.layout heap) : ∃ free', Inv h (s.freed b heap) free' := by
  cases hfree with
  | empty hsize => exact ⟨free, hinv.dealloc_empty hb hsize⟩
  | large hsize => exact ⟨free, hinv.dealloc_large hb hsize⟩
  | chunk hchunk => exact hinv.dealloc_chunk hb hchunk
  | misfit hsize hle hclass =>
    -- no block of such a layout was ever given out
    cases hinv.placed b hb with
    | empty hzero => omega
    | large hlarge => omega
    | chunk ci hchunk =>
      rw [hchunk.2.2] at hclass
      simp at hclass

/-- The rest of the kernel does not reach the links. -/
theorem Inv.other {mem : Mem (2 ^ 64)}
    (hmem : ∀ q ∈ s.took, ∀ x, page_covers h q x = true → (∀ b ∈ s.live, b.covers x = false) →
      mem.byte x = s.heap.mem.byte x) (hpmm : ∀ q ∈ s.took, is_used pmm q = true) :
    Inv h { s with heap := { s.heap with mem := mem, pmm := pmm } } free := by
  refine { hinv with
    lists := fun ci hci => ?_, took := fun q hq => ⟨(hinv.took q hq).1, hpmm q hq⟩ }
  refine (hinv.lists ci hci).congr fun a ha => ?_
  unfold link
  congr 1
  refine map_congr_left fun i hi => ?_
  have hi := mem_range.mp hi
  have hsize := class_size_ge ci hci
  have hx : chunk_covers ci a (a + i) = true := covers_iff.mpr ⟨by omega, by omega⟩
  obtain ⟨q, hq, hpage⟩ := hinv.free_page hci ha hx
  refine hmem q hq _ hpage fun b hb => ?_
  by_contra hbx
  exact hinv.live_free hb hci ha _ ⟨by simpa using hbx, hx⟩

/-- **One step** keeps the invariant. -/
theorem Inv.step {a : Label} {t : State} (hstep : Step h s a t) :
    ∃ free', Inv h t free' := by
  cases hstep with
  | alloc halign => exact hinv.allocs halign (alloc_spec h s.heap _)
  | dealloc hlive => exact hinv.frees hlive (dealloc_spec h s.heap (hinv.placed _ hlive).ne_zero _)
  | other hmem hpmm => exact ⟨free, hinv.other hmem hpmm⟩

end

end

/-- **Slab heap separation.** After any calls of `alloc` and `dealloc`, whatever the rest of the
kernel does in between. -/
theorem heap_separated {h : Hhdm} {mem : Mem (2 ^ 64)} {pmm : Pmm} {l : List Label} {s : State}
    (hrun : Steps (Step h) (State.start mem pmm) l s) : ∃ free, Separated h s free := by
  obtain ⟨free, hinv⟩ := hrun.keeps (P := fun s => ∃ free, Inv h s free) ⟨_, inv_start mem pmm⟩
    fun _ _ _ ⟨_, hv⟩ hstep => hv.step hstep
  exact ⟨free, hinv.separated⟩

/-- The offset that the boot loader uses. -/
def higher_half : Hhdm := ⟨0xFFFF800000000000, by decide, by decide, by decide⟩

/-- A kilobyte, and three pages. -/
def kilobyte : Layout := ⟨1000, 8, ⟨3, rfl⟩, by decide⟩

def three_pages : Layout := ⟨10000, 16, ⟨4, rfl⟩, by decide⟩

/-- Four free pages, from 1 MiB on. -/
def four_free : Pmm := ⟨update (fun _ => BitVec.allOnes 64) 4 0xFFFFFFFFFFFFFFF0#64, 4⟩

theorem heap_separated_blocks : ∃ s free, Steps (Step higher_half) (State.start Mem.zero four_free)
      [.alloc kilobyte, .alloc kilobyte, .dealloc ⟨0xFFFF800000100000, kilobyte⟩,
        .alloc three_pages] s
    ∧ s.live = [⟨0xFFFF800000101000, three_pages⟩, ⟨0xFFFF800000100400, kilobyte⟩]
    ∧ s.heap.free_lists 7 = 0xFFFF800000100000 ∧ Separated higher_half s free := by
  let s1 := (State.start Mem.zero four_free).allocated kilobyte
    (alloc higher_half (State.start Mem.zero four_free).heap kilobyte).1
    (alloc higher_half (State.start Mem.zero four_free).heap kilobyte).2
  let s2 := s1.allocated kilobyte (alloc higher_half s1.heap kilobyte).1
    (alloc higher_half s1.heap kilobyte).2
  let s3 := s2.freed ⟨0xFFFF800000100000, kilobyte⟩
    (dealloc higher_half s2.heap 0xFFFF800000100000 kilobyte)
  let s4 := s3.allocated three_pages (alloc higher_half s3.heap three_pages).1
    (alloc higher_half s3.heap three_pages).2
  have hlive : (⟨0xFFFF800000100000, kilobyte⟩ : Block) ∈ s2.live := by decide +kernel
  have hrun : Steps (Step higher_half) (State.start Mem.zero four_free)
      [.alloc kilobyte, .alloc kilobyte, .dealloc ⟨0xFFFF800000100000, kilobyte⟩,
        .alloc three_pages] s4 :=
    .next (.alloc (by decide)) (.next (.alloc (by decide)) (.next (.dealloc hlive)
      (.next (.alloc (by decide)) (.done s4))))
  obtain ⟨free, hsep⟩ := heap_separated hrun
  exact ⟨s4, free, hrun, by decide +kernel, by decide +kernel, hsep⟩

end HepOS.Heap.Separation
