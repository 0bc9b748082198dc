/-
Memory that is cut into cells: lists of cells that are threaded through the cells themselves, and
how often a set of cells covers an address.

`Chain next head l` says that following the links `next` from `head` gives the addresses `l` and
ends at the null address. A chain is determined by its head, so it has no cycle (`Chain.nodup`), and
it depends on the links of its own members only (`Chain.congr`).

Cells are intervals, and `covered` counts those that have an address in them. That cells do not
overlap means that no address is covered twice (`pairwise_of_count_le_one`); that they make up a
block of memory exactly means that each of its addresses is covered once (`count_tiles`). Moving a
cell from one set to another leaves the sum of the two counts as it is, which is all there is to
most proofs about allocators.
-/
import Mathlib

set_option autoImplicit false

namespace HepOS.Cells

open List

/-! ## Chains -/

/-- Following `next` from `head` gives `l` and ends at address 0. -/
def Chain (next : ℕ → ℕ) : ℕ → List ℕ → Prop
  | head, [] => head = 0
  | head, a :: l => head = a ∧ a ≠ 0 ∧ Chain next (next a) l

section

variable {next next' : ℕ → ℕ} {head : ℕ} {l : List ℕ}

/-- A chain depends on the links of its own members only. -/
theorem Chain.congr (h : Chain next head l) (hsame : ∀ a ∈ l, next' a = next a) :
    Chain next' head l := by
  induction l generalizing head with
  | nil => exact h
  | cons a l ih =>
    obtain ⟨hhead, hne, hrest⟩ := h
    refine ⟨hhead, hne, ?_⟩
    rw [hsame a mem_cons_self]
    exact ih hrest fun b hb => hsame b (mem_cons_of_mem _ hb)

theorem Chain.push (h : Chain next head l) {a : ℕ} (hne : a ≠ 0) (hnext : next a = head) :
    Chain next a (a :: l) := ⟨rfl, hne, by rw [hnext]; exact h⟩

/-- The first member of a chain that is not empty. -/
theorem Chain.exists_cons (h : Chain next head l) (hne : head ≠ 0) :
    ∃ rest, l = head :: rest ∧ Chain next (next head) rest := by
  cases l with
  | nil => exact absurd h hne
  | cons a rest =>
    obtain ⟨rfl, -, hrest⟩ := h
    exact ⟨rest, rfl, hrest⟩

theorem Chain.eq_nil (h : Chain next 0 l) : l = [] := by
  cases l with
  | nil => rfl
  | cons a rest =>
    obtain ⟨rfl, hne, -⟩ := h
    exact absurd rfl hne

/-- The head determines the chain. -/
theorem Chain.unique {l' : List ℕ} (h : Chain next head l) (h' : Chain next head l') : l = l' := by
  induction l generalizing head l' with
  | nil =>
    obtain rfl : head = 0 := h
    exact h'.eq_nil.symm
  | cons a l ih =>
    obtain ⟨rfl, hne, hrest⟩ := h
    obtain ⟨rest', rfl, hrest'⟩ := h'.exists_cons hne
    rw [ih hrest hrest']

/-- From every member on there is a chain again. -/
theorem Chain.of_mem (h : Chain next head l) {a : ℕ} (ha : a ∈ l) :
    ∃ before rest, l = before ++ a :: rest ∧ Chain next a (a :: rest) := by
  induction l generalizing head with
  | nil => simp at ha
  | cons b l ih =>
    obtain ⟨rfl, hne, hrest⟩ := h
    rcases mem_cons.mp ha with rfl | ha
    · exact ⟨[], l, rfl, rfl, hne, hrest⟩
    · obtain ⟨before, rest, rfl, hchain⟩ := ih hrest ha
      exact ⟨head :: before, rest, rfl, hchain⟩

/-- **No cycle.** A member that came back would have two chains of different length. -/
theorem Chain.nodup (h : Chain next head l) : l.Nodup := by
  induction l generalizing head with
  | nil => exact nodup_nil
  | cons a l ih =>
    have hwhole := h
    obtain ⟨rfl, hne, hrest⟩ := h
    refine nodup_cons.mpr ⟨fun hmem => ?_, ih hrest⟩
    obtain ⟨before, rest, rfl, hchain⟩ := hrest.of_mem hmem
    have hsame := congrArg List.length (hwhole.unique hchain)
    simp only [length_cons, length_append] at hsame
    omega

end

/-! ## Covers -/

/-- The address is one of the `len` addresses from `start` on. -/
def covers (start len x : ℕ) : Bool := decide (start ≤ x ∧ x < start + len)

theorem covers_iff {start len x : ℕ} : covers start len x = true ↔ start ≤ x ∧ x < start + len :=
  decide_eq_true_iff

/-- The number of cells that have the address in them. -/
def covered {α : Type*} (cell : α → ℕ → Bool) (l : List α) (x : ℕ) : ℕ := l.countP fun a => cell a x

section

variable {α : Type*} {cell : α → ℕ → Bool} {l : List α} {x : ℕ}

theorem covered_cons (a : α) : covered cell (a :: l) x = covered cell l x + if cell a x
    then 1 else 0 :=
  countP_cons

theorem covered_append (l l' : List α) : covered cell (l ++ l') x
    = covered cell l x + covered cell l' x :=
  countP_append

theorem covered_pos (cell : α → ℕ → Bool) {a : α} (ha : a ∈ l) (h : cell a x = true) :
    0 < covered cell l x :=
  countP_pos_iff.mpr ⟨a, ha, h⟩

theorem exists_of_covered_pos (h : 0 < covered cell l x) : ∃ a ∈ l, cell a x = true :=
  countP_pos_iff.mp h

theorem covered_erase [DecidableEq α] (cell : α → ℕ → Bool) (x : ℕ) {a : α} (ha : a ∈ l) :
    covered cell (l.erase a) x + (if cell a x then 1 else 0) = covered cell l x := by
  have hperm : covered cell l x = covered cell (a :: l.erase a) x :=
    (perm_cons_erase ha).countP_eq _
  rw [hperm, covered_cons]

theorem covered_erase_of_not [DecidableEq α] {cell : α → ℕ → Bool} {x : ℕ} {a : α} (ha : a ∈ l)
    (hx : cell a x = false) :
    covered cell (l.erase a) x = covered cell l x := by
  rw [← covered_erase cell x ha, hx]
  rfl

/-- **No overlap.** Cells that cover no address twice are disjoint. -/
theorem pairwise_of_count_le_one (h : ∀ x, covered cell l x ≤ 1) :
    l.Pairwise fun a b => ∀ x, ¬ (cell a x = true ∧ cell b x = true) := by
  induction l with
  | nil => exact List.Pairwise.nil
  | cons a l ih =>
    refine pairwise_cons.mpr ⟨fun b hb x hboth => ?_, ih fun x => ?_⟩
    · have hx := h x
      have hpos := covered_pos cell hb hboth.2
      rw [covered_cons, if_pos hboth.1] at hx
      omega
    · have hx := h x
      rw [covered_cons] at hx
      omega

/-- **Tiles.** `n` cells of the same size in a row cover each address of the whole once. -/
theorem count_tiles (base len x n : ℕ) :
    covered (fun a x => covers a len x) ((List.range n).map fun k => base + k * len) x
      = if covers base (n * len) x then 1 else 0 := by
  induction n with
  | zero =>
    rw [Nat.zero_mul, if_neg]
    · rfl
    · rw [covers_iff]
      omega
  | succ n ih =>
    rw [range_succ, map_append, covered_append, ih, map_singleton, covered_cons]
    show _ + (0 + _) = _
    have hsplit : (n + 1) * len = n * len + len := by rw [Nat.add_mul, Nat.one_mul]
    by_cases hlow : covers base (n * len) x = true
    · have hx := covers_iff.mp hlow
      rw [if_pos hlow, if_neg, if_pos]
      · exact covers_iff.mpr ⟨hx.1, by omega⟩
      · rw [covers_iff]
        omega
    · have hx := mt covers_iff.mpr hlow
      rw [if_neg hlow]
      by_cases hlast : covers (base + n * len) len x = true
      · have hx' := covers_iff.mp hlast
        rw [if_pos hlast, if_pos (covers_iff.mpr ⟨by omega, by omega⟩)]
      · have hx' := mt covers_iff.mpr hlast
        rw [if_neg hlast, if_neg]
        rw [covers_iff]
        omega

end

end HepOS.Cells
