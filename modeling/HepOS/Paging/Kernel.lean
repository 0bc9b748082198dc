/-
The kernel half of an address space.

`create_user_pml4` copies the upper 256 slots, so all address spaces have the tables behind these in
common. They are the tables that the processor can come to from there: at the second and third level
an entry with bit 7 is a large page and leads to no table.

A machine in which the slots and the tables are as they were has the same kernel half, and ring 3
reaches the same in it (`SameHalf`).
-/
import HepOS.Paging.Space

set_option autoImplicit false

namespace HepOS.Paging

/-! ## The shared tables -/

/-- The table behind an entry of a middle level. -/
def next_table (e : UInt64) : Option Frame := if large e then none else child e

/-- The tables of the third level. -/
def top_tables (mem : Ram) (root : Frame) : Set Frame :=
  {t | ∃ i : Fin 512, 256 ≤ i.val ∧ child (entry mem root i) = some t}

/-- The tables one level further down. -/
def below (mem : Ram) (T : Set Frame) : Set Frame :=
  {t | ∃ t' ∈ T, ∃ i, next_table (entry mem t' i) = some t}

/-- All tables of the kernel half. -/
def kernel_tables (mem : Ram) (root : Frame) : Set Frame :=
  top_tables mem root ∪ (below mem (top_tables mem root) ∪ below mem
    (below mem (top_tables mem root)))

/-- The kernel half at `root` in `mem` is the one at `cr3` in `mem₀`: no entry was made or changed,
and ring 3 gets to nothing else. -/
structure SameHalf (mem₀ : Ram) (cr3 : Frame) (mem : Ram) (root : Frame) : Prop where
  slots : ∀ i : Fin 512, 256 ≤ i.val → entry mem root i = entry mem₀ cr3 i
  tables : kernel_tables mem root = kernel_tables mem₀ cr3
  entries : ∀ t ∈ kernel_tables mem₀ cr3, ∀ i, entry mem t i = entry mem₀ t i
  walks : ∀ virt, 256 ≤ (i4 virt).val → user_walk mem root virt = user_walk mem₀ cr3 virt

section

variable {mem mem₀ : Ram} {cr3 root : Frame}

theorem below_congr {T : Set Frame} (h : ∀ t ∈ T, ∀ i, entry mem t i = entry mem₀ t i) :
    below mem T = below mem₀ T := by
  ext t
  constructor
  · rintro ⟨t', ht', i, hi⟩
    exact ⟨t', ht', i, h t' ht' i ▸ hi⟩
  · rintro ⟨t', ht', i, hi⟩
    exact ⟨t', ht', i, (h t' ht' i).symm ▸ hi⟩

theorem kernel_tables_congr (hslots : ∀ i : Fin 512, 256 ≤ i.val →
    entry mem root i = entry mem₀ cr3 i)
    (hentries : ∀ t ∈ kernel_tables mem₀ cr3, ∀ i, entry mem t i = entry mem₀ t i) :
    kernel_tables mem root = kernel_tables mem₀ cr3 := by
  have htop : top_tables mem root = top_tables mem₀ cr3 := by
    ext t
    constructor
    · rintro ⟨i, hi, ht⟩
      exact ⟨i, hi, hslots i hi ▸ ht⟩
    · rintro ⟨i, hi, ht⟩
      exact ⟨i, hi, (hslots i hi).symm ▸ ht⟩
  have hmid : below mem (top_tables mem₀ cr3) = below mem₀ (top_tables mem₀ cr3) :=
    below_congr fun t ht => hentries t (.inl ht)
  have hlow : below mem (below mem₀ (top_tables mem₀ cr3))
      = below mem₀ (below mem₀ (top_tables mem₀ cr3)) :=
    below_congr fun t ht => hentries t (.inr (.inl ht))
  unfold kernel_tables
  rw [htop, hmid, hlow]

theorem child_of_user_ok {e : UInt64} (h : user_ok e = true) : child e = some (frame e) := by
  rw [user_ok_eq, Bool.and_eq_true] at h
  exact child_of_present h.1

theorem next_table_of_user_ok {e : UInt64} (h : user_ok e = true) (hlarge : ¬ large e = true) :
    next_table e = some (frame e) := by
  unfold next_table
  rw [if_neg hlarge, child_of_user_ok h]

section

variable (hslots : ∀ i : Fin 512, 256 ≤ i.val → entry mem root i = entry mem₀ cr3 i)

include hslots

/-- The walk reads entries of these tables only. -/
theorem user_walk_congr
    (hentries : ∀ t ∈ kernel_tables mem₀ cr3, ∀ i, entry mem t i = entry mem₀ t i) {virt : UInt64}
    (hvirt : 256 ≤ (i4 virt).val) : user_walk mem root virt = user_walk mem₀ cr3 virt := by
  unfold user_walk
  dsimp only
  rw [hslots _ hvirt]
  generalize h4 : entry mem₀ cr3 (i4 virt) = e4
  by_cases hok4 : user_ok e4 = true
  swap
  · rw [if_neg hok4, if_neg hok4]
  have ht3 : frame e4 ∈ top_tables mem₀ cr3 :=
    ⟨i4 virt, hvirt, by rw [h4]; exact child_of_user_ok hok4⟩
  rw [if_pos hok4, if_pos hok4, hentries _ (.inl ht3)]
  generalize h3 : entry mem₀ (frame e4) (i3 virt) = e3
  by_cases hok3 : user_ok e3 = true
  swap
  · rw [if_neg hok3, if_neg hok3]
  by_cases hlarge3 : large e3 = true
  · rw [if_pos hlarge3, if_pos hlarge3]
  have ht2 : frame e3 ∈ below mem₀ (top_tables mem₀ cr3) :=
    ⟨_, ht3, i3 virt, by rw [h3]; exact next_table_of_user_ok hok3 hlarge3⟩
  rw [if_neg hlarge3, if_neg hlarge3, hentries _ (.inr (.inl ht2))]
  generalize h2 : entry mem₀ (frame e3) (i2 virt) = e2
  by_cases hok2 : user_ok e2 = true
  swap
  · rw [if_neg hok2, if_neg hok2]
  by_cases hlarge2 : large e2 = true
  · rw [if_pos hlarge2, if_pos hlarge2]
  have ht1 : frame e2 ∈ below mem₀ (below mem₀ (top_tables mem₀ cr3)) :=
    ⟨_, ht2, i2 virt, by rw [h2]; exact next_table_of_user_ok hok2 hlarge2⟩
  rw [if_neg hlarge2, if_neg hlarge2, hentries _ (.inr (.inr ht1))]

theorem SameHalf.of_kept
    (hkept : ∀ t ∈ kernel_tables mem₀ cr3, SameFrame mem₀ mem t) : SameHalf mem₀ cr3 mem root := by
  have hentries : ∀ t ∈ kernel_tables mem₀ cr3, ∀ i, entry mem t i = entry mem₀ t i :=
    fun t ht i => (hkept t ht).entry i
  exact ⟨hslots, kernel_tables_congr hslots hentries, hentries,
    fun virt hvirt => user_walk_congr hslots hentries hvirt⟩

end

end

end HepOS.Paging
