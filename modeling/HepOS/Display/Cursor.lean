/-
The mouse pointer, as `gopd` draws it (`pixel`, `rect` and `draw_cursor` in `gopd/src/main.rs`).

The pointer is drawn over what is in the framebuffer, pixel by pixel, and pixels that are not on the
screen are left out. Where a pixel ends up does not depend on what was there before, and all
pixels of a pointer are within 7 rows of its position: this is what makes it possible to
remove it again by copying a few rows.
-/
import Mathlib

set_option autoImplicit false

namespace HepOS.Display

open Function

/-- The screen. A scan line of the framebuffer has `pitch` pixels, `fb_pitch / 4`, of which the
first `width` are seen. -/
structure Screen where
  width : ℕ
  height : ℕ
  pitch : ℕ
  width_le : width ≤ pitch
  height_lt : height < 2 ^ 32

/-- A buffer of pixels. -/
abbrev Pixels := ℕ → UInt32

structure Cursor where
  x : ℤ
  y : ℤ
  kind : UInt32
deriving DecidableEq, Repr

def WHITE : UInt32 := 0x00FFFFFF

def BLACK : UInt32 := 0x00111111

/-! ## Drawing -/

def pixel (scr : Screen) (fb : Pixels) (x y : ℤ) (color : UInt32) : Pixels :=
  if 0 ≤ x ∧ 0 ≤ y ∧ x.toNat < scr.width ∧ y.toNat < scr.height then
    update fb (y.toNat * scr.pitch + x.toNat) color
  else fb

/-- A pixel of the pointer, relative to its position. -/
structure Stroke where
  dx : ℤ
  dy : ℤ
  color : UInt32
deriving DecidableEq, Repr

def rect (x y : ℤ) (w h : ℕ) (color : UInt32) : List Stroke :=
  (List.range h).flatMap fun yy => (List.range w).map fun xx => ⟨x + xx, y + yy, color⟩

/-- `for i in -4..=4`, a black and a white pixel each. -/
def diagonal (black white : ℤ → ℤ × ℤ) : List Stroke :=
  (List.range 9).flatMap fun k =>
    [⟨(black (k - 4)).1, (black (k - 4)).2, BLACK⟩, ⟨(white (k - 4)).1, (white (k - 4)).2, WHITE⟩]

/-- The pixels of `draw_cursor`, in the order they are drawn. -/
def strokes (kind : UInt32) : List Stroke :=
  if kind = 1 then
    rect (-7) 0 15 1 BLACK ++ rect (-7) (-3) 1 7 BLACK ++ rect 7 (-3) 1 7 BLACK
      ++ rect (-6) 0 13 1 WHITE ++ rect (-6) (-2) 1 5 WHITE ++ rect 6 (-2) 1 5 WHITE
  else if kind = 2 then
    rect 0 (-7) 1 15 BLACK ++ rect (-3) (-7) 7 1 BLACK ++ rect (-3) 7 7 1 BLACK
      ++ rect 0 (-6) 1 13 WHITE ++ rect (-2) (-6) 5 1 WHITE ++ rect (-2) 6 5 1 WHITE
  else if kind = 3 then
    diagonal (fun i => (i + 1, i + 1)) (fun i => (i, i))
      ++ rect (-3) (-4) 5 1 BLACK ++ rect (-4) (-3) 1 4 BLACK ++ rect 1 5 5 1 BLACK
      ++ rect 5 1 1 4 BLACK ++ rect (-3) (-5) 5 1 WHITE ++ rect (-5) (-3) 1 4 WHITE
      ++ rect 1 5 4 1 WHITE ++ rect 5 1 1 4 WHITE
  else if kind = 4 then
    diagonal (fun i => (i + 1, -i + 1)) (fun i => (i, -i))
      ++ rect (-3) 4 5 1 BLACK ++ rect (-4) (-3) 1 4 BLACK ++ rect 1 (-4) 5 1 BLACK
      ++ rect 5 (-3) 1 4 BLACK ++ rect (-3) 4 4 1 WHITE ++ rect (-5) (-3) 1 4 WHITE
      ++ rect 1 (-5) 5 1 WHITE ++ rect 5 (-3) 1 4 WHITE
  else rect (-6) 0 13 1 WHITE ++ rect 0 (-6) 1 13 WHITE

/-- Draws pixels one after another. -/
def draw (scr : Screen) (x y : ℤ) (fb : Pixels) (l : List Stroke) : Pixels :=
  l.foldl (fun fb p => pixel scr fb (x + p.dx) (y + p.dy) p.color) fb

def draw_cursor (scr : Screen) (fb : Pixels) (c : Cursor) : Pixels :=
  draw scr c.x c.y fb (strokes c.kind)

/-! ## Where it is drawn -/

/-- No pixel is more than 7 rows away. -/
theorem strokes_near (kind : UInt32) : ∀ p ∈ strokes kind, -7 ≤ p.dy ∧ p.dy ≤ 7 := by
  unfold strokes
  split_ifs
  all_goals decide

section

variable {scr : Screen}

theorem pixel_congr {fb fb' : Pixels} {j : ℕ} (h : fb j = fb' j) (x y : ℤ) (color : UInt32) :
    pixel scr fb x y color j = pixel scr fb' x y color j := by
  unfold pixel
  by_cases hin : 0 ≤ x ∧ 0 ≤ y ∧ x.toNat < scr.width ∧ y.toNat < scr.height
  · rw [if_pos hin, if_pos hin]
    by_cases hj : j = y.toNat * scr.pitch + x.toNat
    · rw [hj, update_self, update_self]
    · rw [update_of_ne hj, update_of_ne hj]
      exact h
  · rw [if_neg hin, if_neg hin]
    exact h

theorem draw_congr (x y : ℤ) (l : List Stroke) :
    ∀ {fb fb' : Pixels} {j : ℕ}, fb j = fb' j → draw scr x y fb l j = draw scr x y fb' l j := by
  induction l with
  | nil => exact fun h => h
  | cons p l ih => exact fun h => ih (pixel_congr h _ _ _)

theorem row_of_index {pitch row col : ℕ} (h : col < pitch) : (row * pitch + col) / pitch = row := by
  rw [Nat.mul_comm, Nat.mul_add_div (by omega), Nat.div_eq_of_lt h, Nat.add_zero]

theorem pixel_other_row {fb : Pixels} {x y : ℤ} {color : UInt32} {row col : ℕ}
    (hcol : col < scr.width) (hy : y ≠ row) :
    pixel scr fb x y color (row * scr.pitch + col) = fb (row * scr.pitch + col) := by
  unfold pixel
  by_cases hin : 0 ≤ x ∧ 0 ≤ y ∧ x.toNat < scr.width ∧ y.toNat < scr.height
  · rw [if_pos hin, update_of_ne]
    intro heq
    have hle := scr.width_le
    have hrow : (row * scr.pitch + col) / scr.pitch
        = (y.toNat * scr.pitch + x.toNat) / scr.pitch := by
      rw [heq]
    rw [row_of_index (by omega), row_of_index (by omega)] at hrow
    omega
  · rw [if_neg hin]

theorem draw_other_row (x y : ℤ) {row col : ℕ} (hcol : col < scr.width) (l : List Stroke) :
    ∀ {fb : Pixels}, (∀ p ∈ l, y + p.dy ≠ row) →
      draw scr x y fb l (row * scr.pitch + col) = fb (row * scr.pitch + col) := by
  induction l with
  | nil => exact fun _ => rfl
  | cons p l ih =>
    intro fb h
    refine (ih fun q hq => h q (List.mem_cons_of_mem _ hq)).trans ?_
    exact pixel_other_row hcol (h p List.mem_cons_self)

/-- **The pointer is within 7 rows of its position.** -/
theorem draw_cursor_far {fb : Pixels} {c : Cursor} {row col : ℕ} (hcol : col < scr.width)
    (hfar : (row : ℤ) < c.y - 7 ∨ c.y + 7 < row) :
    draw_cursor scr fb c (row * scr.pitch + col) = fb (row * scr.pitch + col) := by
  apply draw_other_row _ _ hcol
  intro p hp
  have hnear := strokes_near c.kind p hp
  omega

end

end HepOS.Display
