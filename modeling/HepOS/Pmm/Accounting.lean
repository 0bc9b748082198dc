/-
The page allocator as a whole (`pmm.rs`): `init`, `free_page` and `alloc_contiguous`, and what holds
along every sequence of calls.

`init` sets all bits and clears those of the regions that may be used. It counts as it goes, so the
counter is right because no page is in two regions. After that each call changes the bits of the
pages it takes or gives back and the counter by their number. `alloc_contiguous` tries every first
page in turn; the first one from which the run would leave the bit map ends the search, which loses
nothing: later ones leave it too.

The addition in `init` wraps around as in a release build. A region that wraps has its end before
its start, so no page of it is freed.
-/
import HepOS.Pmm.Pages
import HepOS.Lib.Trace

set_option autoImplicit false

namespace HepOS.Phys

open Trace Function List

/-! ## Giving back a page -/

def set_free (bitmap : ℕ → BitVec 64) (page : ℕ) : ℕ → BitVec 64 :=
  update bitmap (page / 64) (bitmap (page / 64) &&& ~~~(1#64 <<< (page % 64)))

def set_used (bitmap : ℕ → BitVec 64) (page : ℕ) : ℕ → BitVec 64 :=
  update bitmap (page / 64) (bitmap (page / 64) ||| (1#64 <<< (page % 64)))

def free_page (p : Pmm) (addr : UInt64) : Pmm :=
  let page := addr.toNat / PAGE_SIZE
  if MAX_PAGES ≤ page then p else ⟨set_free p.bitmap page, p.free_pages + 1⟩

theorem is_used_set_free (bitmap : ℕ → BitVec 64) (c : UInt64) (page q : ℕ) :
    is_used ⟨set_free bitmap page, c⟩ q = (is_used ⟨bitmap, c⟩ q && decide (q ≠ page)) := by
  rw [is_used_eq, is_used_eq]
  unfold set_free
  dsimp only
  by_cases hi : q / 64 = page / 64
  · rw [hi, update_self, one_shiftLeft_eq_twoPow, BitVec.getLsbD_and, BitVec.getLsbD_not,
      BitVec.getLsbD_twoPow]
    congr 1
    rw [Bool.eq_iff_iff]
    simp only [Bool.and_eq_true, decide_eq_true_eq, Bool.not_eq_true', Bool.and_eq_false_iff,
      decide_eq_false_iff_not]
    omega
  · have hne : q ≠ page := fun heq => hi (by rw [heq])
    rw [update_of_ne hi, decide_eq_true hne, Bool.and_true]

theorem is_used_set_used (bitmap : ℕ → BitVec 64) (c : UInt64) (page q : ℕ) :
    is_used ⟨set_used bitmap page, c⟩ q = (is_used ⟨bitmap, c⟩ q || decide (q = page)) := by
  have h := is_used_update (p := ⟨bitmap, c⟩) (i := page / 64) (Nat.mod_lt page (by decide)) c q
  rw [Nat.div_add_mod' page 64] at h
  exact h

/-- `p'` is `p` with one page less in use. -/
structure Releases (p : Pmm) (page : ℕ) (p' : Pmm) : Prop where
  lt : page < MAX_PAGES
  used : is_used p page = true
  free : ∀ q, is_used p' q = (is_used p q && decide (q ≠ page))

variable {p p' : Pmm} {page : ℕ}

/-- Claiming the page again would bring back the pages of before. -/
theorem Releases.left (h : Releases p page p') : Phys.left p' = Phys.left p + 1 := by
  have hclaims : Claims p' page p := by
    refine ⟨h.lt, by rw [h.free]; simp, fun q => ?_⟩
    rw [h.free]
    by_cases hq : q = page
    · simp [hq, h.used]
    · simp [hq]
  exact hclaims.left.symm

theorem left_le (p : Pmm) : left p ≤ MAX_PAGES := by
  refine le_trans (Finset.card_filter_le _ _) ?_
  rw [Finset.card_range]

/-- The counter is the number of clear bits. -/
def Counted (p : Pmm) : Prop := p.free_pages.toNat = left p

theorem Counted.claims (h : Counted p) (hclaims : Claims p page p')
    (hcount : p'.free_pages = p.free_pages - 1) : Counted p' := by
  have hleft := hclaims.left
  have hone : (1 : UInt64) ≤ p.free_pages := by
    rw [UInt64.le_iff_toNat_le, h]
    show 1 ≤ _
    omega
  unfold Counted at h ⊢
  rw [hcount, UInt64.toNat_sub_of_le _ _ hone, h]
  show _ - 1 = _
  omega

theorem Counted.releases (h : Counted p) (hrel : Releases p page p')
    (hcount : p'.free_pages = p.free_pages + 1) : Counted p' := by
  have hleft := hrel.left
  have hle := left_le p'
  unfold Counted at h ⊢
  rw [hcount, UInt64.toNat_add, h, hleft]
  show (left p + 1) % _ = _
  unfold MAX_PAGES at hle
  omega

/-! ## `init` -/

structure MemRegion where
  base : UInt64
  len : UInt64
  typ : UInt64
deriving DecidableEq, Repr

/-- The pages `first .. last` of a region. -/
def MemRegion.first (e : MemRegion) : ℕ := e.base.toNat / PAGE_SIZE

def MemRegion.last (e : MemRegion) : ℕ := (e.base + e.len).toNat / PAGE_SIZE

/-- RAM above 1 MiB. -/
def MemRegion.usable (e : MemRegion) : Bool := e.typ == 1 && decide (0x100000 ≤ e.base)

/-- What `init` works on: the bit map and its two counters. -/
structure Init where
  bitmap : ℕ → BitVec 64
  total : UInt64
  free : UInt64

/-- The loop over the pages of a region. -/
def init_pages (e : MemRegion) : List ℕ → Init → Init
  | [], s => s
  | page :: rest, s =>
    if MAX_PAGES ≤ page then s
    else if e.usable then
      init_pages e rest ⟨set_free s.bitmap page, s.total + 1, s.free + 1⟩
    else init_pages e rest { s with total := s.total + 1 }

section

variable (memmap : List MemRegion)

def init_regions (s : Init) : Init :=
  memmap.foldl (fun s e => init_pages e (List.range' e.first (e.last - e.first)) s) s

def Init.start : Init := ⟨fun _ => BitVec.allOnes 64, 0, 0⟩

def Init.pmm (s : Init) : Pmm := ⟨s.bitmap, s.free⟩

/-- The allocator after `init`, and `TOTAL_PAGES`. -/
def init : Pmm × UInt64 :=
  let s := init_regions memmap Init.start
  (s.pmm, s.total)

/-- A memory map as the boot loader gives it: regions of whole pages, none of them overlapping. -/
structure MemMap : Prop where
  base : ∀ e ∈ memmap, e.base.toNat % PAGE_SIZE = 0
  len : ∀ e ∈ memmap, e.len.toNat % PAGE_SIZE = 0
  apart : memmap.Pairwise fun e e' =>
    e.base.toNat + e.len.toNat ≤ e'.base.toNat ∨ e'.base.toNat + e'.len.toNat ≤ e.base.toNat

/-- The page lies wholly in a region of RAM that starts at or above 1 MiB, and below 2 GiB. -/
def Usable (page : ℕ) : Prop :=
  (∃ e ∈ memmap, e.typ = 1 ∧ 0x100000 ≤ e.base.toNat ∧ e.base.toNat ≤ page * PAGE_SIZE
    ∧ (page + 1) * PAGE_SIZE ≤ e.base.toNat + e.len.toNat)
  ∧ (page + 1) * PAGE_SIZE ≤ 2 ^ 31

theorem MemRegion.page_mem {e : MemRegion} (hbase : e.base.toNat % PAGE_SIZE = 0)
    (hfirst : e.first ≤ page) (hlast : page < e.last) :
    e.base.toNat ≤ page * PAGE_SIZE ∧ (page + 1) * PAGE_SIZE ≤ e.base.toNat + e.len.toNat := by
  unfold MemRegion.first at hfirst
  unfold MemRegion.last at hlast
  rw [UInt64.toNat_add] at hlast
  unfold PAGE_SIZE at *
  -- a sum that wraps around is below the base
  omega

/-- The counter is right, and the clear bits are pages of the regions seen so far. -/
structure Freed (seen : ℕ → Prop) (s : Init) : Prop where
  counted : Counted s.pmm
  clear : ∀ page < MAX_PAGES, is_used s.pmm page = false → seen page

/-- The counter goes with the bits when the pages of the loop were all in use. -/
theorem init_pages_counted (e : MemRegion) (k : ℕ) : ∀ i s, Counted s.pmm →
    (∀ page, i ≤ page → page < i + k → page < MAX_PAGES → is_used s.pmm page = true) →
    Counted (init_pages e (List.range' i k) s).pmm := by
  induction k with
  | zero => exact fun i s hs _ => hs
  | succ k ih =>
    intro i s hs hused
    rw [List.range'_succ]
    unfold init_pages
    by_cases hmax : MAX_PAGES ≤ i
    · rwa [if_pos hmax]
    rw [if_neg hmax]
    by_cases husable : e.usable = true
    · rw [if_pos husable]
      have hrel : Releases s.pmm i ⟨set_free s.bitmap i, s.free + 1⟩ :=
        ⟨by omega, hused i (le_rfl) (by omega) (by omega), fun q => is_used_set_free _ _ _ _⟩
      refine ih (i + 1) _ (hs.releases hrel rfl) fun page hlow hhigh hlt =>
        (hrel.free page).trans ?_
      rw [hused page (by omega) (by omega) hlt, decide_eq_true (by omega)]
      rfl
    · rw [if_neg husable]
      exact ih (i + 1) _ hs fun page hlow hhigh => hused page (by omega) (by omega)

/-- The bit map after the loop over pages `i .. i + k`, whatever the pages are. -/
theorem init_pages_clear (e : MemRegion) (hpage : page < MAX_PAGES) (k : ℕ) : ∀ i s,
    is_used (init_pages e (List.range' i k) s).pmm page = false
      ↔ is_used s.pmm page = false ∨ (e.usable = true ∧ i ≤ page ∧ page < i + k) := by
  induction k with
  | zero =>
    intro i s
    refine ⟨.inl, fun h => h.resolve_right fun hin => ?_⟩
    omega
  | succ k ih =>
    intro i s
    rw [List.range'_succ]
    unfold init_pages
    by_cases hmax : MAX_PAGES ≤ i
    · rw [if_pos hmax]
      refine ⟨.inl, fun h => h.resolve_right fun hin => ?_⟩
      omega
    rw [if_neg hmax]
    by_cases husable : e.usable = true
    · rw [if_pos husable, ih]
      have hstep : is_used (Init.pmm ⟨set_free s.bitmap i, s.total + 1, s.free + 1⟩) page
          = (is_used s.pmm page && decide (page ≠ i)) := is_used_set_free _ _ _ _
      rw [hstep, Bool.and_eq_false_iff, decide_eq_false_iff_not, not_not, or_assoc]
      refine or_congr_right ?_
      constructor
      · rintro (rfl | ⟨-, hlow, hhigh⟩)
        all_goals exact ⟨husable, by omega, by omega⟩
      · rintro ⟨-, hlow, hhigh⟩
        by_cases heq : page = i
        · exact .inl heq
        · exact .inr ⟨husable, by omega, by omega⟩
    · rw [if_neg husable, ih]
      refine or_congr_right ?_
      exact ⟨fun h => absurd h.1 husable, fun h => absurd h.1 husable⟩

/-- The pages `init` frees for these regions. -/
def Seen (page : ℕ) : Prop :=
  ∃ e ∈ memmap, e.usable = true ∧ e.first ≤ page ∧ page < e.last

end

theorem init_regions_spec (rest : List MemRegion) : ∀ (before : List MemRegion) (s : Init),
    MemMap (before ++ rest) → Freed (Seen before) s →
        Freed (Seen (before ++ rest)) (init_regions rest s) := by
  induction rest with
  | nil =>
    intro before s _ hs
    rwa [append_nil]
  | cons e rest ih =>
    intro before s hmap hs
    have hsplit : before ++ e :: rest = (before ++ [e]) ++ rest := by
      rw [append_assoc, singleton_append]
    have hmem : e ∈ before ++ e :: rest := mem_append_right _ mem_cons_self
    rw [hsplit]
    refine ih (before ++ [e]) _ (hsplit ▸ hmap) ?_
    refine ⟨init_pages_counted e _ _ s hs.counted fun page hfirst hlast hlt => ?_,
      fun page hlt hclear => ?_⟩
    · -- a page of this region is in none of the earlier ones
      rw [← Bool.not_eq_false]
      intro hclear
      obtain ⟨e', he', -, hfirst', hlast'⟩ := hs.clear page hlt hclear
      have hin := MemRegion.page_mem (hmap.base e hmem) hfirst (by omega)
      have hin' := MemRegion.page_mem (hmap.base e' (mem_append_left _ he')) hfirst' hlast'
      have hapart := (pairwise_append.mp hmap.apart).2.2 e' he' e mem_cons_self
      unfold PAGE_SIZE at hin hin'
      omega
    · rcases (init_pages_clear e hlt _ _ s).mp hclear with hold | ⟨husable, hfirst, hlast⟩
      · obtain ⟨e', he', hrest⟩ := hs.clear page hlt hold
        exact ⟨e', mem_append_left _ he', hrest⟩
      · exact ⟨e, mem_append_right _ mem_cons_self, husable, hfirst, by omega⟩

theorem is_used_start (page : ℕ) : is_used Init.start.pmm page = true := by
  rw [is_used_eq]
  show (BitVec.allOnes 64).getLsbD _ = true
  rw [BitVec.getLsbD_allOnes]
  exact decide_eq_true (Nat.mod_lt _ (by decide))

theorem freed_start : Freed (Seen []) Init.start := by
  refine ⟨?_, fun page _ hclear => ?_⟩
  · show 0 = left Init.start.pmm
    unfold left
    rw [eq_comm, Finset.card_eq_zero, Finset.filter_eq_empty_iff]
    intro page _ hclear
    rw [is_used_start] at hclear
    exact absurd hclear (by decide)
  · rw [is_used_start] at hclear
    exact absurd hclear (by decide)

theorem init_regions_clear (memmap : List MemRegion) (hpage : page < MAX_PAGES) : ∀ s,
    is_used (init_regions memmap s).pmm page = false ↔ is_used s.pmm page = false
        ∨ Seen memmap page := by
  induction memmap with
  | nil =>
    intro s
    refine ⟨.inl, fun h => h.resolve_right ?_⟩
    rintro ⟨e, he, -⟩
    simp at he
  | cons e rest ih =>
    intro s
    have hrest := ih (init_pages e (List.range' e.first (e.last - e.first)) s)
    refine hrest.trans ?_
    rw [init_pages_clear e hpage, or_assoc]
    refine or_congr_right ?_
    constructor
    · rintro (⟨husable, hlow, hhigh⟩ | ⟨e', he', hin⟩)
      · exact ⟨e, mem_cons_self, husable, hlow, by omega⟩
      · exact ⟨e', mem_cons_of_mem _ he', hin⟩
    · rintro ⟨e', he', husable, hlow, hhigh⟩
      rcases mem_cons.mp he' with rfl | hmem
      · exact .inl ⟨husable, hlow, by omega⟩
      · exact .inr ⟨e', hmem, husable, hlow, hhigh⟩

/-- The free pages after `init` are those of the usable regions, for any list of regions. -/
theorem init_clear_iff (memmap : List MemRegion) (hpage : page < MAX_PAGES) :
    is_used (init memmap).1 page = false ↔ Seen memmap page := by
  refine (init_regions_clear memmap hpage Init.start).trans ?_
  rw [is_used_start]
  exact ⟨fun h => h.resolve_left (by decide), .inr⟩

/-- **`init`.** The counter is right and every free page may be used. -/
theorem init_spec {memmap : List MemRegion} (hmap : MemMap memmap) :
    Counted (init memmap).1 ∧ ∀ page < MAX_PAGES, is_used (init memmap).1 page = false →
      Usable memmap page := by
  have hfreed := init_regions_spec memmap [] Init.start hmap freed_start
  refine ⟨hfreed.counted, fun page hlt hclear => ?_⟩
  obtain ⟨e, he, husable, hfirst, hlast⟩ := hfreed.clear page hlt hclear
  obtain ⟨hlow, hhigh⟩ := MemRegion.page_mem (hmap.base e he) hfirst hlast
  unfold MemRegion.usable at husable
  rw [Bool.and_eq_true, beq_iff_eq, decide_eq_true_eq, UInt64.le_iff_toNat_le] at husable
  refine ⟨⟨e, he, husable.1, husable.2, hlow, hhigh⟩, ?_⟩
  unfold MAX_PAGES at hlt
  unfold PAGE_SIZE
  omega

/-! ## `alloc_contiguous` -/

/-- How the inner loop ends: all pages are free, one is in use (`continue 'outer`), or one is past
the end of the bit map (`break 'outer`). -/
inductive Scan
  | free | used | past
deriving DecidableEq, Repr

def scan (p : Pmm) (i : ℕ) : List ℕ → Scan
  | [] => .free
  | j :: rest =>
    if MAX_PAGES ≤ i + j then .past
    else if is_used p (i + j) then .used
    else scan p i rest

/-- The loop that claims the run. -/
def claim_run (bitmap : ℕ → BitVec 64) (i : ℕ) (js : List ℕ) : ℕ → BitVec 64 :=
  js.foldl (fun bitmap j => set_used bitmap (i + j)) bitmap

def alloc_contiguous_from (p : Pmm) (count : ℕ) : List ℕ → Option (UInt64 × Pmm)
  | [] => none
  | i :: rest =>
    match scan p i (List.range count) with
    | .past => none
    | .used => alloc_contiguous_from p count rest
    | .free => some (UInt64.ofNat i * UInt64.ofNat PAGE_SIZE,
        ⟨claim_run p.bitmap i (List.range count), p.free_pages - UInt64.ofNat count⟩)

def alloc_contiguous (p : Pmm) (count : ℕ) : Option (UInt64 × Pmm) :=
  alloc_contiguous_from p count (List.range' 0 MAX_PAGES)

theorem scan_spec (p : Pmm) (i : ℕ) (l : List ℕ) : match scan p i l with
    | .free => ∀ j ∈ l, i + j < MAX_PAGES ∧ is_used p (i + j) = false
    | .used => ∃ j ∈ l, is_used p (i + j) = true
    | .past => ∃ j ∈ l, MAX_PAGES ≤ i + j := by
  induction l with
  | nil => exact fun j hj => absurd hj not_mem_nil
  | cons j rest ih =>
    unfold scan
    by_cases hmax : MAX_PAGES ≤ i + j
    · rw [if_pos hmax]
      exact ⟨j, mem_cons_self, hmax⟩
    · rw [if_neg hmax]
      by_cases hused : is_used p (i + j) = true
      · rw [if_pos hused]
        exact ⟨j, mem_cons_self, hused⟩
      · rw [if_neg hused]
        cases hscan : scan p i rest with (rw [hscan] at ih)
        | free =>
          intro j' hj'
          rcases mem_cons.mp hj' with rfl | hj'
          · exact ⟨by omega, by simpa using hused⟩
          · exact ih j' hj'
        | used =>
          obtain ⟨j', hj', hu⟩ := ih
          exact ⟨j', mem_cons_of_mem _ hj', hu⟩
        | past =>
          obtain ⟨j', hj', hp⟩ := ih
          exact ⟨j', mem_cons_of_mem _ hj', hp⟩

/-- `p'` is `p` with the run of `n` pages from `page` on in use as well. -/
structure ClaimsRun (p : Pmm) (page n : ℕ) (p' : Pmm) : Prop where
  le : page + n ≤ MAX_PAGES
  free : ∀ q, page ≤ q → q < page + n → is_used p q = false
  used : ∀ q, is_used p' q = (is_used p q || decide (page ≤ q ∧ q < page + n))

theorem claim_run_succ (bitmap : ℕ → BitVec 64) (i n : ℕ) :
    claim_run bitmap i (List.range (n + 1))
        = set_used (claim_run bitmap i (List.range n)) (i + n) := by
  unfold claim_run
  rw [range_succ, foldl_append]
  rfl

theorem is_used_claim_run (bitmap : ℕ → BitVec 64) (c : UInt64) (i n q : ℕ) :
    is_used ⟨claim_run bitmap i (List.range n), c⟩ q
      = (is_used ⟨bitmap, c⟩ q || decide (i ≤ q ∧ q < i + n)) := by
  induction n with
  | zero =>
    rw [decide_eq_false (by omega), Bool.or_false]
    rfl
  | succ n ih =>
    rw [claim_run_succ, is_used_set_used, ih, Bool.or_assoc]
    congr 1
    rw [Bool.eq_iff_iff]
    simp only [Bool.or_eq_true, decide_eq_true_eq]
    omega

/-- A run takes as many of the pages that are left as it is long. -/
theorem ClaimsRun.left (n : ℕ) :
    ∀ {p' : Pmm}, ClaimsRun p page n p' → Phys.left p' + n = Phys.left p := by
  induction n with
  | zero =>
    intro p' h
    have hsame : allocated p' = allocated p := by
      ext q
      unfold allocated
      rw [Set.mem_ofPred_eq, Set.mem_ofPred_eq, h.used q, decide_eq_false (by omega), Bool.or_false]
    rw [Nat.add_zero]
    exact left_congr hsame
  | succ n ih =>
    intro p' h
    -- the run without its last page
    have hrun : ClaimsRun p page n ⟨claim_run p.bitmap page (List.range n), p.free_pages⟩ :=
      ⟨by have := h.le; omega, fun q hlow hhigh => h.free q hlow (by omega),
        fun q => is_used_claim_run _ _ _ _ _⟩
    have hlast : Claims ⟨claim_run p.bitmap page (List.range n), p.free_pages⟩ (page + n) p' := by
      refine ⟨by have := h.le; omega, ?_, fun q => ?_⟩
      · rw [hrun.used, h.free (page + n) (by omega) (by omega), decide_eq_false (by omega)]
        rfl
      · rw [h.used, hrun.used, Bool.or_assoc]
        congr 1
        rw [Bool.eq_iff_iff]
        simp only [Bool.or_eq_true, decide_eq_true_eq]
        omega
    have hinit := ih hrun
    have hone := hlast.left
    omega

theorem Counted.claimsRun {n : ℕ} (h : Counted p) (hrun : ClaimsRun p page n p')
    (hcount : p'.free_pages = p.free_pages - UInt64.ofNat n) : Counted p' := by
  have hleft := ClaimsRun.left n hrun
  have hmax := hrun.le
  have hn : (UInt64.ofNat n).toNat = n := by
    rw [UInt64.toNat_ofNat', Nat.mod_eq_of_lt]
    unfold MAX_PAGES at hmax
    omega
  have hle : UInt64.ofNat n ≤ p.free_pages := by
    rw [UInt64.le_iff_toNat_le, hn, h]
    omega
  unfold Counted at h ⊢
  rw [hcount, UInt64.toNat_sub_of_le _ _ hle, hn, h]
  omega

/-- What the search gives, when no run begins before `i`. -/
theorem alloc_contiguous_from_spec (p : Pmm) (count : ℕ) (hcount : 1 ≤ count) (k : ℕ) :
    ∀ i, i + k = MAX_PAGES →
    (∀ i' < i, i' + count ≤ MAX_PAGES → ∃ j < count, is_used p (i' + j) = true) →
    match alloc_contiguous_from p count (List.range' i k) with
    | none => ∀ i', i' + count ≤ MAX_PAGES → ∃ j < count, is_used p (i' + j) = true
    | some (addr, p') => ∃ page, addr.toNat = page * PAGE_SIZE ∧ ClaimsRun p page count p'
        ∧ p'.free_pages = p.free_pages - UInt64.ofNat count := by
  induction k with
  | zero =>
    intro i hik hbefore i' hi'
    exact hbefore i' (by omega) hi'
  | succ k ih =>
    intro i hik hbefore
    rw [List.range'_succ]
    unfold alloc_contiguous_from
    have hscan := scan_spec p i (List.range count)
    cases hres : scan p i (List.range count) with (rw [hres] at hscan)
    | past =>
      obtain ⟨j, hj, hpast⟩ := hscan
      have hj := mem_range.mp hj
      -- a run from `i` on does not fit, and one from a later page even less
      intro i' hi'
      exact hbefore i' (by omega) hi'
    | used =>
      obtain ⟨j, hj, hused⟩ := hscan
      refine ih (i + 1) (by omega) fun i' hlt hi' => ?_
      by_cases hold : i' < i
      · exact hbefore i' hold hi'
      · obtain rfl : i' = i := by omega
        exact ⟨j, mem_range.mp hj, hused⟩
    | free =>
      have hfree : ∀ j < count, i + j < MAX_PAGES ∧ is_used p (i + j) = false :=
        fun j hj => hscan j (mem_range.mpr hj)
      refine ⟨i, ?_, ⟨?_, fun q hlow hhigh => ?_, fun q => is_used_claim_run _ _ _ _ _⟩, rfl⟩
      · have hi : i < MAX_PAGES := by omega
        rw [UInt64.toNat_mul, UInt64.toNat_ofNat', UInt64.toNat_ofNat']
        unfold MAX_PAGES at hi
        unfold PAGE_SIZE
        omega
      · have := (hfree (count - 1) (by omega)).1
        omega
      · have := (hfree (q - i) (by omega)).2
        rwa [Nat.add_sub_cancel' hlow] at this

/-- **`alloc_contiguous`.** It gives a run of pages that were free, or there is none. -/
theorem alloc_contiguous_spec (p : Pmm) {count : ℕ} (hcount : 1 ≤ count) :
    match alloc_contiguous p count with
    | none => ∀ i, i + count ≤ MAX_PAGES → ∃ j < count, is_used p (i + j) = true
    | some (addr, p') => ∃ page, addr.toNat = page * PAGE_SIZE ∧ ClaimsRun p page count p'
        ∧ p'.free_pages = p.free_pages - UInt64.ofNat count := by
  exact alloc_contiguous_from_spec p count hcount MAX_PAGES 0 (Nat.zero_add _)
    fun i hi => absurd hi (Nat.not_lt_zero i)

theorem alloc_page_from_count (l : List ℕ) : ∀ {p p' : Pmm} {addr : UInt64},
    alloc_page_from p l = some (addr, p') → p'.free_pages = p.free_pages - 1 := by
  induction l with
  | nil => exact fun h => absurd h (by simp [alloc_page_from])
  | cons i rest ih =>
    intro p p' addr h
    unfold alloc_page_from at h
    dsimp only at h
    split_ifs at h
    · exact ih h
    · cases h
      rfl
    · have hrest := ih h
      exact hrest

/-- A memory map with one page that may be used, at 1 MiB. -/
def one_page : List MemRegion := [⟨0x1000, 0x1000, 1⟩, ⟨0x100000, 0x1000, 1⟩]

/-! ## Sequences of calls -/

namespace Calls

/-- The allocator and the pages its callers own. -/
structure State where
  pmm : Pmm
  owned : Finset ℕ

inductive Label
  | alloc_page
  | alloc_contiguous (count : ℕ)
  | free_page (addr : UInt64)
deriving DecidableEq, Repr

/-- A call with `count = 0` is none that any caller makes, and pages are freed by their owners. -/
def next (s : State) : Label → Option State
  | .alloc_page =>
    match alloc_page s.pmm with
    | none => some s
    | some (addr, p) => some ⟨p, insert (addr.toNat / PAGE_SIZE) s.owned⟩
  | .alloc_contiguous count =>
    if count = 0 then none
    else match alloc_contiguous s.pmm count with
      | none => some s
      | some (addr, p) => some ⟨p,
          s.owned ∪ (Finset.range count).image fun j => addr.toNat / PAGE_SIZE + j⟩
  | .free_page addr =>
    if addr.toNat / PAGE_SIZE ∈ s.owned then
      some ⟨free_page s.pmm addr, s.owned.erase (addr.toNat / PAGE_SIZE)⟩
    else none

def Next (s : State) (a : Label) (t : State) : Prop := next s a = some t

section

variable (memmap : List MemRegion)

def State.start : State := ⟨(init memmap).1, ∅⟩

/-- An allocation of `n` pages from `addr` on: pages that may be used, free before and in use
after. -/
def Gives (p : Pmm) (addr : UInt64) (n : ℕ) (p' : Pmm) : Prop :=
  ∃ page, addr.toNat = page * PAGE_SIZE ∧ ∀ j < n, Usable memmap (page + j)
    ∧ is_used p (page + j) = false ∧ is_used p' (page + j) = true

/-- The counter is right, and so is every allocation that can be made next. -/
structure Sound (p : Pmm) : Prop where
  counted : p.free_pages.toNat
    = ((Finset.range MAX_PAGES).filter fun page => is_used p page = false).card
  page : match alloc_page p with
    | none => ∀ page < MAX_PAGES, is_used p page = true
    | some (addr, p') => Gives memmap p addr 1 p'
  run : ∀ count, 1 ≤ count → match alloc_contiguous p count with
    | none => ∀ i, i + count ≤ MAX_PAGES → ∃ j < count, is_used p (i + j) = true
    | some (addr, p') => Gives memmap p addr count p'

/-- Every page that is free or owned may be used, and the owned ones are in use. -/
structure Inv (s : State) : Prop where
  counted : Counted s.pmm
  clear : ∀ page < MAX_PAGES, is_used s.pmm page = false → Usable memmap page
  owned : ∀ page ∈ s.owned, page < MAX_PAGES ∧ is_used s.pmm page = true ∧ Usable memmap page

end

section

variable {memmap : List MemRegion} {s t : State} {a : Label}

theorem inv_start (hmap : MemMap memmap) : Inv memmap (State.start memmap) := by
  obtain ⟨hcounted, hclear⟩ := init_spec hmap
  exact ⟨hcounted, hclear, fun page hpage => absurd hpage (Finset.notMem_empty page)⟩

theorem Inv.sound (h : Inv memmap s) : Sound memmap s.pmm := by
  refine ⟨h.counted, ?_, fun count hcount => ?_⟩
  · have hspec := alloc_page_spec s.pmm
    cases halloc : alloc_page s.pmm with
    | none =>
      rw [halloc] at hspec
      exact hspec
    | some r =>
      rw [halloc] at hspec
      obtain ⟨page, haddr, hclaims⟩ := hspec
      refine ⟨page, haddr, fun j hj => ?_⟩
      obtain rfl : j = 0 := by omega
      exact ⟨h.clear page hclaims.lt hclaims.free, hclaims.free, by rw [hclaims.used]; simp⟩
  · have hspec := alloc_contiguous_spec s.pmm hcount
    cases halloc : alloc_contiguous s.pmm count with
    | none =>
      rw [halloc] at hspec
      exact hspec
    | some r =>
      rw [halloc] at hspec
      obtain ⟨page, haddr, hrun, -⟩ := hspec
      refine ⟨page, haddr, fun j hj => ?_⟩
      have hfree := hrun.free (page + j) (by omega) (by omega)
      have hle := hrun.le
      refine ⟨h.clear _ (by omega) hfree, hfree, ?_⟩
      rw [hrun.used, decide_eq_true ⟨by omega, by omega⟩, Bool.or_true]

/-- What a call does: nothing, or it takes pages that were free, or it gives back an owned one. -/
inductive Effect (s : State) : State → Prop
  | none : Effect s s
  | takes {p' : Pmm} {pages : Finset ℕ}
    (hfree : ∀ page ∈ pages, page < MAX_PAGES ∧ is_used s.pmm page = false)
      (hused : ∀ q, is_used p' q = (is_used s.pmm q || decide (q ∈ pages)))
      (hcounted : Counted s.pmm → Counted p') : Effect s ⟨p', s.owned ∪ pages⟩
  | gives_back {p' : Pmm} {page : ℕ} (hown : page ∈ s.owned)
      (hused : page < MAX_PAGES → ∀ q, is_used p' q = (is_used s.pmm q && decide (q ≠ page)))
      (hcounted : page < MAX_PAGES → is_used s.pmm page = true → Counted s.pmm → Counted p') :
      Effect s ⟨p', s.owned.erase page⟩

theorem next_alloc_page (hstep : next s .alloc_page = some t) : Effect s t := by
  unfold next at hstep
  have hspec := alloc_page_spec s.pmm
  cases halloc : Phys.alloc_page s.pmm with
  | none =>
    rw [halloc] at hstep
    cases hstep
    exact .none
  | some r =>
    obtain ⟨addr, p'⟩ := r
    rw [halloc] at hstep hspec
    cases hstep
    obtain ⟨page, haddr, hclaims⟩ := hspec
    have hpage : addr.toNat / PAGE_SIZE = page := by
      rw [haddr]
      exact Nat.mul_div_cancel _ (by decide)
    rw [hpage, Finset.insert_eq, Finset.union_comm]
    refine .takes ?_ (fun q => ?_) fun hcounted =>
      hcounted.claims hclaims (alloc_page_from_count _ halloc)
    · intro q hq
      obtain rfl := Finset.mem_singleton.mp hq
      exact ⟨hclaims.lt, hclaims.free⟩
    · rw [hclaims.used, decide_eq_decide.mpr Finset.mem_singleton]

theorem next_alloc_contiguous {count : ℕ} (hstep : next s (.alloc_contiguous count) = some t) :
    Effect s t := by
  unfold next at hstep
  dsimp only at hstep
  by_cases hzero : count = 0
  · rw [if_pos hzero] at hstep
    simp at hstep
  rw [if_neg hzero] at hstep
  have hspec := alloc_contiguous_spec s.pmm (Nat.one_le_iff_ne_zero.mpr hzero)
  cases halloc : Phys.alloc_contiguous s.pmm count with
  | none =>
    rw [halloc] at hstep
    cases hstep
    exact .none
  | some r =>
    obtain ⟨addr, p'⟩ := r
    rw [halloc] at hstep hspec
    cases hstep
    obtain ⟨page, haddr, hrun, hcount⟩ := hspec
    have hpage : addr.toNat / PAGE_SIZE = page := by
      rw [haddr]
      exact Nat.mul_div_cancel _ (by decide)
    have hmem : ∀ q, q ∈ (Finset.range count).image (fun j => page + j) ↔ page ≤ q
        ∧ q < page + count := by
      intro q
      rw [Finset.mem_image]
      constructor
      · rintro ⟨j, hj, rfl⟩
        have := Finset.mem_range.mp hj
        omega
      · exact fun hq => ⟨q - page, Finset.mem_range.mpr (by omega), by omega⟩
    rw [hpage]
    refine .takes (fun q hq => ?_) (fun q => ?_) fun hcounted => hcounted.claimsRun hrun hcount
    · obtain ⟨hlow, hhigh⟩ := (hmem q).mp hq
      have := hrun.le
      exact ⟨by omega, hrun.free q hlow hhigh⟩
    · rw [hrun.used, decide_eq_decide.mpr (hmem q)]

theorem next_free_page {addr : UInt64} (hstep : next s (.free_page addr) = some t) :
    Effect s t := by
  unfold next at hstep
  dsimp only at hstep
  by_cases hown : addr.toNat / PAGE_SIZE ∈ s.owned
  · rw [if_pos hown] at hstep
    cases hstep
    have hfree : addr.toNat / PAGE_SIZE < MAX_PAGES → Phys.free_page s.pmm addr
        = ⟨set_free s.pmm.bitmap (addr.toNat / PAGE_SIZE), s.pmm.free_pages + 1⟩ :=
      fun hlt => if_neg (by omega)
    have hused : addr.toNat / PAGE_SIZE < MAX_PAGES → ∀ q, is_used (Phys.free_page s.pmm addr) q
        = (is_used s.pmm q && decide (q ≠ addr.toNat / PAGE_SIZE)) := by
      intro hlt q
      rw [hfree hlt]
      exact is_used_set_free _ _ _ _
    refine .gives_back hown hused fun hlt hwas hcounted => ?_
    exact hcounted.releases ⟨hlt, hwas, hused hlt⟩ (by rw [hfree hlt])
  · rw [if_neg hown] at hstep
    simp at hstep

theorem Next.effect (hstep : Next s a t) : Effect s t := by
  cases a with
  | alloc_page => exact next_alloc_page hstep
  | alloc_contiguous count => exact next_alloc_contiguous hstep
  | free_page addr => exact next_free_page hstep

/-- Free pages and owned pages are all of one kind. -/
structure Within (G : ℕ → Prop) (s : State) : Prop where
  clear : ∀ page < MAX_PAGES, is_used s.pmm page = false → G page
  owned : ∀ page ∈ s.owned, page < MAX_PAGES ∧ G page

/-- No call gives out a page that was not free or owned before. -/
theorem Within.step {G : ℕ → Prop} (h : Within G s) (hstep : Next s a t) : Within G t := by
  cases hstep.effect with
  | none => exact h
  | takes hfree hused _ =>
    refine ⟨fun page hlt hclear => ?_, fun page hpage => ?_⟩
    · rw [hused, Bool.or_eq_false_iff] at hclear
      exact h.clear page hlt hclear.1
    · rcases Finset.mem_union.mp hpage with hold | hnew
      · exact h.owned page hold
      · obtain ⟨hlt, hclear⟩ := hfree page hnew
        exact ⟨hlt, h.clear page hlt hclear⟩
  | gives_back hown hused _ =>
    obtain ⟨hlt, hG⟩ := h.owned _ hown
    refine ⟨fun page hlt' hclear => ?_, fun page hpage =>
      h.owned page (Finset.mem_of_mem_erase hpage)⟩
    rw [hused hlt, Bool.and_eq_false_iff, decide_eq_false_iff_not, not_not] at hclear
    rcases hclear with hclear | rfl
    · exact h.clear page hlt' hclear
    · exact hG

/-- **One call** keeps the invariant. -/
theorem Inv.step (h : Inv memmap s) (hstep : Next s a t) : Inv memmap t := by
  have hwithin : Within (Usable memmap) s :=
    ⟨h.clear, fun page hpage => ⟨(h.owned page hpage).1, (h.owned page hpage).2.2⟩⟩
  obtain ⟨hclear, howned⟩ := hwithin.step hstep
  cases hstep.effect with
  | none => exact h
  | takes hfree hused hcounted =>
    refine ⟨hcounted h.counted, hclear, fun page hpage =>
      ⟨(howned page hpage).1, ?_, (howned page hpage).2⟩⟩
    rw [hused]
    rcases Finset.mem_union.mp hpage with hold | hnew
    · rw [(h.owned page hold).2.1, Bool.true_or]
    · rw [decide_eq_true hnew, Bool.or_true]
  | gives_back hown hused hcounted =>
    obtain ⟨hlt, hwas, -⟩ := h.owned _ hown
    refine ⟨hcounted hlt hwas h.counted, hclear, fun page hpage =>
      ⟨(howned page hpage).1, ?_, (howned page hpage).2⟩⟩
    obtain ⟨hne, hold⟩ := Finset.mem_erase.mp hpage
    rw [hused hlt, (h.owned page hold).2.1, decide_eq_true hne]
    rfl

end

/-- **Accounting.** From a well-formed memory map, after any calls: the counter is the number of
clear bits, and the next allocation gives pages of RAM above 1 MiB that were free, or there are none
to give. -/
theorem sound_of_calls {memmap : List MemRegion} (hmap : MemMap memmap) {l : List Label} {s : State}
    (h : Steps Next (State.start memmap) l s) : Sound memmap s.pmm :=
  (h.keeps (inv_start hmap) fun _ _ _ hv hstep => hv.step hstep).sound

theorem sound_of_calls_one_page : ∃ s, Steps Next (State.start one_page)
    [.alloc_page, .free_page 0x100000, .alloc_contiguous 1] s ∧ s.owned = {256}
      ∧ Sound one_page s.pmm := by
  have hmap : MemMap one_page := ⟨by decide, by decide, by decide⟩
  have hrun : (run next (State.start one_page)
      [.alloc_page, .free_page 0x100000, .alloc_contiguous 1]).map
        State.owned = some {256} := by decide +kernel
  obtain ⟨s, hs, howned⟩ := Option.map_eq_some_iff.mp hrun
  have h : Steps Next (State.start one_page)
      [.alloc_page, .free_page 0x100000, .alloc_contiguous 1] s := .of_run _ hs
  exact ⟨s, h, howned, sound_of_calls hmap h⟩

end Calls

end HepOS.Phys
