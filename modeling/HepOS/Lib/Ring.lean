/-
Rings of descriptors.

A ring of `N` cells carries a list that only grows: entry `k` is in cell `k % N` from when it is put
in until it is taken out, and entries are taken out in order. `Window` says which part of the list
is in the ring.
-/
import Mathlib

set_option autoImplicit false

namespace HepOS.Rings

open Function

/-- The entries of `l` before `pos` have been taken out, the others are in their cells, and the
remaining cells are empty. -/
structure Window {α : Type} (N : ℕ) (cell : ℕ → Option α) (l : List α) (pos : ℕ) : Prop where
  le : pos ≤ l.length
  room : l.length ≤ pos + N
  cells : ∀ k, pos ≤ k → k < pos + N → cell (k % N) = l[k]?

theorem mod_ne {N j k : ℕ} (hjk : j < k) (hk : k < j + N) : k % N ≠ j % N := by
  intro h
  have hdvd := (Nat.modEq_iff_dvd' hjk.le).mp h.symm
  have := Nat.le_of_dvd (by omega) hdvd
  omega

section

variable {α : Type} {N pos : ℕ} {cell : ℕ → Option α} {l : List α} (h : Window N cell l pos)

include h

/-- The cell that comes next is empty only if there is room. -/
theorem Window.lt_of_free (hN : 0 < N) (hfree : cell (l.length % N) = none) :
    l.length < pos + N := by
  refine Nat.lt_of_le_of_ne h.room fun hfull => ?_
  have hfirst := h.cells pos (le_rfl) (by omega)
  rw [← Nat.add_mod_right pos N, ← hfull, hfree] at hfirst
  have := List.getElem?_eq_none_iff.mp hfirst.symm
  omega

theorem Window.push (hroom : l.length < pos + N) (x : α) :
    Window N (update cell (l.length % N) (some x)) (l ++ [x]) pos := by
  have hle := h.le
  refine ⟨?_, ?_, fun k hk hk' => ?_⟩
  · simp only [List.length_append]
    omega
  · simpa using hroom
  · rcases Nat.lt_trichotomy k l.length with hless | rfl | hmore
    · rw [update_of_ne (mod_ne hless (by omega)).symm, h.cells k hk hk',
        List.getElem?_append_left hless]
    · rw [update_self, List.getElem?_concat_length]
    · rw [update_of_ne (mod_ne hmore (by omega)), h.cells k hk hk',
        List.getElem?_eq_none (by omega), List.getElem?_eq_none (by simp; omega)]

theorem Window.pop (hlt : pos < l.length) : Window N (update cell (pos % N) none) l (pos + 1) := by
  have hroom := h.room
  refine ⟨hlt, by omega, fun k hk hk' => ?_⟩
  by_cases hlast : k = pos + N
  · -- the cell that has just been emptied
    rw [hlast, Nat.add_mod_right, update_self, List.getElem?_eq_none hroom]
  · rw [update_of_ne (mod_ne (by omega) (by omega)), h.cells k (by omega) (by omega)]

end

end HepOS.Rings
