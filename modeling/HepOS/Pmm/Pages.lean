/-
The physical page allocator (`pmm.rs`): one bit for each page, and `alloc_page`.

A word of the bit map covers 64 pages. `alloc_page` goes through the words, skips those with
all bits set, and claims the lowest clear bit of the first other one. What a caller gets is a
page that was free, and the pages in use are then those of before and this one.

`free_page` is not needed here: what is modelled of the callers never calls it.
-/
import Mathlib

set_option autoImplicit false

namespace HepOS.Phys

open Function List Bool BitVec

/-! ## The bit map -/

def PAGE_SIZE : ℕ := 4096

@[irreducible] def MAX_PAGES : ℕ := 512 * 1024

/-- `BITMAP` and `FREE_PAGES`. -/
structure Pmm where
  bitmap : ℕ → BitVec 64
  free_pages : UInt64

def is_used (p : Pmm) (page : ℕ) : Bool := p.bitmap (page / 64) &&& (1#64 <<< (page % 64)) != 0

theorem one_shiftLeft_eq_twoPow (bit : ℕ) : 1#64 <<< bit = BitVec.twoPow 64 bit :=
  (twoPow_eq 64 bit).symm

/-- The mask test reads the bit of the word. -/
theorem is_used_eq (p : Pmm) (page : ℕ) :
    is_used p page = (p.bitmap (page / 64)).getLsbD (page % 64) := by
  have hlt : page % 64 < 64 := Nat.mod_lt _ (by decide)
  rw [is_used, one_shiftLeft_eq_twoPow, and_twoPow, Bool.eq_iff_iff, bne_iff_ne, ne_eq]
  by_cases hbit : (p.bitmap (page / 64)).getLsbD (page % 64)
  · have hne : BitVec.twoPow 64 (page % 64) ≠ 0#64 := by
      intro hzero
      have hget := congrArg (fun w => w.getLsbD (page % 64)) hzero
      simp [hlt] at hget
    simpa [hbit] using hne
  · simp [hbit]

/-- `trailing_ones`: the lowest clear bit, or 64. -/
def trailing_ones (val : BitVec 64) : ℕ := (List.range 64).findIdx fun i => !val.getLsbD i

/-- A word with a clear bit. -/
theorem trailing_ones_spec {val : BitVec 64} (h : val ≠ BitVec.allOnes 64) :
    trailing_ones val < 64 ∧ val.getLsbD (trailing_ones val) = false := by
  have hclear : ∃ i ∈ List.range 64, (!val.getLsbD i) = true := by
    by_contra hno
    refine h (eq_of_getLsbD_eq fun i hi => ?_)
    rw [getLsbD_allOnes, decide_eq_true hi]
    by_contra hbit
    exact hno ⟨i, mem_range.mpr hi, by simpa using hbit⟩
  have hlt := findIdx_lt_length.mpr hclear
  have hget := findIdx_getElem (w := hlt)
  refine ⟨hlt, ?_⟩
  unfold trailing_ones
  simpa using hget

/-! ## `alloc_page` -/

/-- The loop over the words. -/
def alloc_page_from (p : Pmm) : List ℕ → Option (UInt64 × Pmm)
  | [] => none
  | i :: rest =>
    let val := p.bitmap i
    if val = BitVec.allOnes 64 then alloc_page_from p rest
    else
      let bit := trailing_ones val
      let page := i * 64 + bit
      if MAX_PAGES ≤ page then none
      else
        let claimed := update p.bitmap i (val ||| (1#64 <<< bit))
        if val &&& (1#64 <<< bit) = 0 then
          some (UInt64.ofNat (page * PAGE_SIZE), ⟨claimed, p.free_pages - 1⟩)
        -- somebody else has claimed it
        else alloc_page_from ⟨claimed, p.free_pages⟩ rest

def alloc_page (p : Pmm) : Option (UInt64 × Pmm) := alloc_page_from p (List.range (MAX_PAGES / 64))

/-- `p'` is `p` with one more page in use. -/
structure Claims (p : Pmm) (page : ℕ) (p' : Pmm) : Prop where
  lt : page < MAX_PAGES
  free : is_used p page = false
  used : ∀ q, is_used p' q = (is_used p q || decide (q = page))

theorem is_used_update {p : Pmm} {i bit : ℕ} (hbit : bit < 64) (free_pages : UInt64) (q : ℕ) :
    is_used ⟨update p.bitmap i (p.bitmap i ||| (1#64 <<< bit)), free_pages⟩ q
      = (is_used p q || decide (q = i * 64 + bit)) := by
  rw [is_used_eq, is_used_eq]
  dsimp only
  by_cases hi : q / 64 = i
  · rw [hi, update_self, one_shiftLeft_eq_twoPow, getLsbD_or, getLsbD_twoPow]
    congr 1
    rw [Bool.eq_iff_iff]
    simp only [and_eq_true, decide_eq_true_eq]
    omega
  · rw [update_of_ne hi, decide_eq_false (by omega), Bool.or_false]

/-- What the loop gives, when the words before had no clear bit. -/
theorem alloc_page_from_spec (p : Pmm) (k : ℕ) : ∀ i, i + k = MAX_PAGES / 64 →
    (∀ page < i * 64, is_used p page = true) → match alloc_page_from p (List.range' i k) with
    | none => ∀ page < MAX_PAGES, is_used p page = true
    | some (addr, p') => ∃ page, addr.toNat = page * PAGE_SIZE ∧ Claims p page p' := by
  induction k with
  | zero =>
    intro i hik hbefore
    have hall : i * 64 = MAX_PAGES := by
      unfold MAX_PAGES at hik ⊢
      omega
    rw [hall] at hbefore
    exact hbefore
  | succ k ih =>
    intro i hik hbefore
    rw [List.range'_succ]
    unfold alloc_page_from
    by_cases hfull : p.bitmap i = BitVec.allOnes 64
    · rw [if_pos hfull]
      refine ih (i + 1) (by omega) fun page hpage => ?_
      by_cases hold : page < i * 64
      · exact hbefore page hold
      · have hword : page / 64 = i := by omega
        rw [is_used_eq, hword, hfull, getLsbD_allOnes]
        exact decide_eq_true (Nat.mod_lt _ (by decide))
    · obtain ⟨hbit, hclear⟩ := trailing_ones_spec hfull
      have hlt : i * 64 + trailing_ones (p.bitmap i) < MAX_PAGES := by
        omega
      have hfree : is_used p (i * 64 + trailing_ones (p.bitmap i)) = false := by
        rw [is_used_eq, show (i * 64 + trailing_ones (p.bitmap i)) / 64 = i by omega,
          show (i * 64 + trailing_ones (p.bitmap i)) % 64 = trailing_ones (p.bitmap i) by omega]
        exact hclear
      -- nobody else claims the bit in between
      have hmask : p.bitmap i &&& (1#64 <<< trailing_ones (p.bitmap i)) = 0 := by
        rw [one_shiftLeft_eq_twoPow, and_twoPow, hclear]
        rfl
      rw [if_neg hfull, if_neg (by omega), if_pos hmask]
      refine ⟨i * 64 + trailing_ones (p.bitmap i), ?_, hlt, hfree, fun q => is_used_update hbit _ q⟩
      rw [UInt64.toNat_ofNat']
      unfold MAX_PAGES at hlt
      unfold PAGE_SIZE
      omega

/-- **`alloc_page`.** It gives a page that was free, or there is none. -/
theorem alloc_page_spec (p : Pmm) : match alloc_page p with
    | none => ∀ page < MAX_PAGES, is_used p page = true
    | some (addr, p') => ∃ page, addr.toNat = page * PAGE_SIZE ∧ Claims p page p' := by
  unfold alloc_page
  rw [range_eq_range']
  exact alloc_page_from_spec p (MAX_PAGES / 64) 0 (Nat.zero_add _)
    fun page hpage => absurd hpage (by omega)

/-! ## Pages in use -/

/-- The pages in use. -/
def allocated (p : Pmm) : Set ℕ := {page | page < MAX_PAGES ∧ is_used p page = true}

/-- The number of pages left. -/
def left (p : Pmm) : ℕ := ((Finset.range MAX_PAGES).filter fun page => is_used p page = false).card

theorem left_congr {p p' : Pmm} (h : allocated p' = allocated p) : left p' = left p := by
  unfold left
  congr 1
  refine Finset.filter_congr fun page hpage => ?_
  have hlt := Finset.mem_range.mp hpage
  have hiff : page ∈ allocated p' ↔ page ∈ allocated p := by rw [h]
  have hused : is_used p' page = true ↔ is_used p page = true :=
    ⟨fun hu => (hiff.mp ⟨hlt, hu⟩).2, fun hu => (hiff.mpr ⟨hlt, hu⟩).2⟩
  rw [← not_eq_true, ← not_eq_true, hused]

theorem Claims.left {p p' : Pmm} {page : ℕ} (h : Claims p page p') :
    Phys.left p' + 1 = Phys.left p := by
  have herase : (Finset.range MAX_PAGES).filter (fun q => is_used p' q = false)
      = ((Finset.range MAX_PAGES).filter fun q => is_used p q = false).erase page := by
    ext q
    rw [Finset.mem_erase, Finset.mem_filter, Finset.mem_filter, h.used q, or_eq_false_iff,
      decide_eq_false_iff_not]
    tauto
  have hmem : page ∈ (Finset.range MAX_PAGES).filter fun q => is_used p q = false :=
    Finset.mem_filter.mpr ⟨Finset.mem_range.mpr h.lt, h.free⟩
  unfold Phys.left
  rw [herase, Finset.card_erase_add_one hmem]

/-- `n` calls of `alloc_page`, all of which give a page. -/
def alloc_pages : ℕ → Pmm → Option Pmm
  | 0, p => some p
  | n + 1, p => (alloc_page p).bind fun r => alloc_pages n r.2

theorem left_alloc_pages (n : ℕ) : ∀ {p p' : Pmm}, alloc_pages n p = some p' →
    left p' + n = left p := by
  induction n with
  | zero =>
    intro p p' h
    cases h
    -- not by `rfl`, which would count the pages
    exact Nat.add_zero _
  | succ n ih =>
    intro p p' h
    obtain ⟨⟨addr, q⟩, halloc, hrest⟩ := Option.bind_eq_some_iff.mp h
    have hspec := alloc_page_spec p
    rw [halloc] at hspec
    obtain ⟨page, -, hclaims⟩ := hspec
    have hfirst := hclaims.left
    have hothers : left p' + n = left q := ih hrest
    omega

theorem alloc_pages_of_le (n : ℕ) : ∀ p : Pmm, n ≤ left p → ∃ p', alloc_pages n p = some p' := by
  induction n with
  | zero => exact fun p _ => ⟨p, rfl⟩
  | succ n ih =>
    intro p hn
    have hspec := alloc_page_spec p
    cases halloc : alloc_page p with
    | none =>
      rw [halloc] at hspec
      have hzero : left p = 0 := by
        rw [left, Finset.card_eq_zero, Finset.filter_eq_empty_iff]
        intro page hpage hfree
        exact absurd (hspec page (Finset.mem_range.mp hpage)) (by simp [hfree])
      omega
    | some r =>
      obtain ⟨addr, q⟩ := r
      rw [halloc] at hspec
      obtain ⟨page, -, hclaims⟩ := hspec
      have := hclaims.left
      obtain ⟨p', hp'⟩ := ih q (by omega)
      exact ⟨p', by rw [alloc_pages, halloc]; exact hp'⟩

/-- The pages in use are the same only if no page was taken. -/
theorem allocated_alloc_pages_iff {n : ℕ} {p p' : Pmm} (h : alloc_pages n p = some p') :
    allocated p' = allocated p ↔ n = 0 := by
  constructor
  · intro hsame
    have hleft := left_congr hsame
    have := left_alloc_pages n h
    omega
  · rintro rfl
    cases h
    rfl

end HepOS.Phys
