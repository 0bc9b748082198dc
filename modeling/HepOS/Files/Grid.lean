/-
The icon grid of a Files window: where `render_hepfs_window` draws the cells, and which cell the
handlers of `main.rs` take a point of the screen for.

The renderer, the left click, the right click, the drop of a dragged row and the rubber band each
compute the layout again. They start it at different heights: the cells begin 23 pixels below the
top of the window, which is where the left click and the rubber band count from, and the right
click and the drop count from 22. The renderer also moves a window that sticks out of the screen
back to its edge, and only the renderer does.

The number of rows a scroll can reach counts a row that is cut off as visible, and a row that is
cut off is not drawn.

Sizes and positions are integers here, `usize` and `i32` in the source. The two agree for windows
and points within 2^30 pixels of the origin: a directory has at most 1536 entries, so the rows below
each other stay within that too.
-/
import Mathlib

set_option autoImplicit false

namespace HepOS.Files

open List Nat

/-! ## The layout -/

def HEPFS_TREE_W_NUM : ℕ := 35
def HEPFS_TREE_W_DEN : ℕ := 100
def GRID_CELL_W : ℕ := 72
def GRID_CELL_H : ℕ := 60
def HEPFS_SCROLLBAR_W : ℕ := 8

/-- Pane 3 shows the directories only, pane 4 everything. -/
inductive Pane where
  | tree
  | grid
deriving DecidableEq

/-- A Files window with the directory it shows. -/
structure Grid where
  x : ℤ
  y : ℤ
  w : ℕ
  h : ℕ
  /-- the length of the listing -/
  entries : ℕ
  at_root : Bool
  /-- the first row that is shown -/
  scroll : ℕ

def grid_cols (right_w : ℕ) : ℕ := max ((right_w - HEPFS_SCROLLBAR_W) / GRID_CELL_W) 1

namespace Grid

variable (g : Grid)

def left_w : ℕ := g.w * HEPFS_TREE_W_NUM / HEPFS_TREE_W_DEN
def right_w : ℕ := g.w - (g.left_w + 1)
def list_h : ℕ := g.h - 23
def cols : ℕ := grid_cols g.right_w

/-- The row ".." is the first cell of every directory but the root. -/
def first : ℕ := if g.at_root then 0 else 1
def total : ℕ := g.entries + g.first
def total_rows : ℕ := (g.total + g.cols - 1) / g.cols
def visible_rows : ℕ := max ((g.list_h + GRID_CELL_H - 1) / GRID_CELL_H) 1
def max_scroll : ℕ := g.total_rows - g.visible_rows

def hepfs_scroll_max : Option ℕ := if g.max_scroll = 0 then none else some g.max_scroll

/-- `draw_grid_cell`: the corner of cell `idx`, if it is drawn. -/
def draw_grid_cell (idx : ℕ) : Option (ℕ × ℕ) :=
  let scroll := min g.scroll g.max_scroll
  let list_top := g.y.toNat + 23
  let row := idx / g.cols
  if row < scroll then none
  else
    let cy := list_top + (row - scroll) * GRID_CELL_H
    if cy + GRID_CELL_H ≤ list_top + g.list_h then
      some (g.x.toNat + g.left_w + 1 + idx % g.cols * GRID_CELL_W, cy)
    else none

/-- What the renderer leaves in the navigator. -/
def render : Grid := { g with scroll := min g.scroll g.max_scroll }

/-! ## The handlers -/

def contains (mx my : ℤ) : Prop := g.x ≤ mx ∧ mx < g.x + g.w ∧ g.y ≤ my ∧ my < g.y + g.h

instance (mx my : ℤ) : Decidable (g.contains mx my) := inferInstanceAs (Decidable (_ ∧ _))

end Grid

def grid_idx_at (rel_x_in_pane rel_y_in_pane : ℤ) (right_w scroll_rows : ℕ) : ℕ :=
  let cols := grid_cols right_w
  let col := min (rel_x_in_pane.toNat / GRID_CELL_W) (cols - 1)
  let visual_row := rel_y_in_pane.toNat / GRID_CELL_H
  (visual_row + scroll_rows) * cols + col

namespace Grid

variable (g : Grid)

/-- The pane and the row of a point, for a handler that lets the rows begin at `top`. -/
def row_at (top : ℤ) (mx my : ℤ) : Option (Pane × ℕ) :=
  let rel_x := (mx - g.x).toNat
  let rel_y := my - g.y
  if ¬ g.contains mx my ∨ rel_y < 22 then none
  else if rel_x ≤ g.left_w then some (.tree, (rel_y - top).toNat / 14)
  else some (.grid, grid_idx_at (rel_x - g.left_w - 1) (rel_y - top) g.right_w g.scroll)

def on_fs_scrollbar (mx my : ℤ) : Prop :=
  let track_x := g.x + g.left_w + 1 + (g.right_w - HEPFS_SCROLLBAR_W : ℕ)
  g.contains mx my ∧ track_x ≤ mx ∧ mx < track_x + HEPFS_SCROLLBAR_W ∧ g.y + 23 ≤ my

instance (mx my : ℤ) : Decidable (g.on_fs_scrollbar mx my) := inferInstanceAs (Decidable (_ ∧ _))

def hepfs_click (mx my : ℤ) : Option (Pane × ℕ) := if g.on_fs_scrollbar mx my
    then none else g.row_at 23 mx my
def fs_context_menu (rx ry : ℤ) : Option (Pane × ℕ) := g.row_at 22 rx ry
def resolve_file_drop (mx my : ℤ) : Option (Pane × ℕ) := g.row_at 22 mx my

end Grid

/-- A rectangle between two corners. -/
structure Marquee where
  x0 : ℤ
  x1 : ℤ
  y0 : ℤ
  y1 : ℤ

/-- The cell with the corner `(cx, cy)` and the rectangle overlap. -/
def Marquee.touches (m : Marquee) (cx cy : ℤ) : Prop :=
  cx < m.x1 ∧ m.x0 < cx + GRID_CELL_W ∧ cy < m.y1 ∧ m.y0 < cy + GRID_CELL_H

instance (m : Marquee) (cx cy : ℤ) : Decidable (m.touches cx cy) :=
  inferInstanceAs (Decidable (_ ∧ _))

namespace Grid

def fs_marquee_hits (g : Grid) (m : Marquee) : List ℕ :=
  (List.range g.total).filter fun idx =>
    let cy : ℕ := (idx / g.cols - g.scroll) * GRID_CELL_H
    g.scroll ≤ idx / g.cols ∧ cy + GRID_CELL_H ≤ g.list_h
      ∧ m.touches (g.x + g.left_w + 1 + (idx % g.cols * GRID_CELL_W : ℕ)) (g.y + 23 + cy)

/-! ## One geometry -/

/-- The rectangle touches cell `idx` on the screen, and no other. -/
def Only (g : Grid) (m : Marquee) (idx : ℕ) : Prop :=
  ∀ j < g.total, (∃ c ∈ g.draw_grid_cell j, m.touches c.1 c.2) ↔ j = idx

/-- All handlers take the point for a point of cell `idx`, and all rectangles that touch only the
cell select it. -/
structure Resolves (g : Grid) (idx : ℕ) (px py : ℤ) : Prop where
  click : g.hepfs_click px py = some (.grid, idx)
  menu : g.fs_context_menu px py = some (.grid, idx)
  drop : g.resolve_file_drop px py = some (.grid, idx)
  marquee : ∀ m, g.Only m idx → g.fs_marquee_hits m = [idx]

variable {g : Grid} {idx : ℕ}

theorem cols_pos : 0 < g.cols := lt_of_lt_of_le Nat.one_pos (le_max_right _ _)

theorem draw_grid_cell_eq_some {c : ℕ × ℕ} : g.draw_grid_cell idx = some c ↔
    min g.scroll g.max_scroll ≤ idx / g.cols
      ∧ (idx / g.cols - min g.scroll g.max_scroll) * 60 + 60 ≤ g.list_h
      ∧ c = (g.x.toNat + g.left_w + 1 + idx % g.cols * 72,
        g.y.toNat + 23 + (idx / g.cols - min g.scroll g.max_scroll) * 60) := by
  unfold draw_grid_cell GRID_CELL_H GRID_CELL_W
  dsimp only
  split_ifs with hrow hfit
  · simp only [false_iff]
    omega
  · rw [Option.some_inj, eq_comm]
    exact ⟨fun h => ⟨by omega, by omega, h⟩, fun h => h.2.2⟩
  · simp only [false_iff]
    omega

/-- The row and the column of a point of a cell in column `idx % cols`. -/
theorem grid_idx_at_cell (idx : ℕ) {u : ℕ} (hu : u < 72) (k v s : ℕ) :
    grid_idx_at (idx % g.cols * 72 + u : ℕ) (k * 60 + v : ℕ) g.right_w s
      = (k + v / 60 + s) * g.cols + idx % g.cols := by
  have hcol := mod_lt idx (cols_pos (g := g))
  have hx : (idx % g.cols * 72 + u) / 72 = idx % g.cols := by omega
  have hy : (k * 60 + v) / 60 = k + v / 60 := by omega
  unfold grid_idx_at GRID_CELL_W GRID_CELL_H
  dsimp only
  rw [Int.toNat_natCast, Int.toNat_natCast, hx, hy, ← cols, min_eq_left (by omega)]

/-- The cells do not overlap: a pixel is in one cell at most. -/
theorem only_pixel {cx cy u v : ℕ} (hcell : g.draw_grid_cell idx = some (cx, cy)) (hu : u < 72)
    (hv : v < 60) :
    g.Only ⟨cx + u, cx + u + 1, cy + v, cy + v + 1⟩ idx := by
  obtain ⟨hrow, hfit, hc⟩ := draw_grid_cell_eq_some.mp hcell
  obtain ⟨rfl, rfl⟩ := Prod.mk.inj hc
  intro j hj
  refine ⟨?_, ?_⟩
  · rintro ⟨c, hj', htouch⟩
    obtain ⟨hrow', -, rfl⟩ := draw_grid_cell_eq_some.mp hj'
    simp only [Marquee.touches, GRID_CELL_W, GRID_CELL_H] at htouch
    have hdiv : j / g.cols = idx / g.cols := by omega
    have hmod : j % g.cols = idx % g.cols := by omega
    rw [← div_add_mod j g.cols, hdiv, hmod, div_add_mod]
  · rintro rfl
    refine ⟨_, hcell, ?_⟩
    simp only [Marquee.touches, GRID_CELL_W, GRID_CELL_H]
    omega

section

variable (hs : g.scroll ≤ g.max_scroll)

include hs

/-- A handler counts the rows from `top`; the cells begin at 23. -/
theorem row_at_cell {cx cy u v : ℕ} (hcell : g.draw_grid_cell idx = some (cx, cy)) (hx : 0 ≤ g.x)
    (hy : 0 ≤ g.y) (hu : u < 72) (hin : g.contains (cx + u) (cy + v)) {top : ℤ} (htop : 22 ≤ top)
    (htop' : top ≤ 23) :
    g.row_at top (cx + u) (cy + v)
      = some (.grid, (idx / g.cols + (v + (23 - top).toNat) / 60) * g.cols + idx % g.cols) := by
  obtain ⟨hrow, -, hc⟩ := draw_grid_cell_eq_some.mp hcell
  obtain ⟨rfl, rfl⟩ := Prod.mk.inj hc
  rw [min_eq_left hs] at hrow hin ⊢
  rw [row_at, if_neg (by rintro (h | h); exacts [h hin, by omega]), if_neg (by omega)]
  have hgrid := grid_idx_at_cell (g := g) idx hu (idx / g.cols - g.scroll)
    (v + (23 - top).toNat) g.scroll
  rw [show idx / g.cols + (v + (23 - top).toNat) / 60
    = idx / g.cols - g.scroll + (v + (23 - top).toNat) / 60 + g.scroll by omega, ← hgrid]
  congr 3
  · omega
  · omega

/-- The rubber band looks for a cell where it is drawn when the window is on the screen. -/
theorem mem_hits_iff {m : Marquee} {j : ℕ} : j ∈ g.fs_marquee_hits m ↔ j < g.total ∧
    ∃ c ∈ g.draw_grid_cell j, m.touches (c.1 + (g.x - g.x.toNat)) (c.2 + (g.y - g.y.toNat)) := by
  rw [fs_marquee_hits, mem_filter, mem_range, decide_eq_true_iff]
  simp only [Option.mem_def, draw_grid_cell_eq_some, min_eq_left hs, and_assoc, exists_and_left,
    exists_eq_left]
  unfold Marquee.touches GRID_CELL_W GRID_CELL_H
  push_cast
  omega

end

/-- **When the handlers agree with the screen.** -/
theorem resolves_iff {g : Grid} {idx cx cy u v : ℕ} (hidx : idx < g.total)
    (hcell : g.draw_grid_cell idx = some (cx, cy)) (hu : u < 72) (hv : v < 60) :
    g.render.Resolves idx (cx + u) (cy + v) ↔
      0 ≤ g.x ∧ 0 ≤ g.y ∧ idx % g.cols * 72 + u < g.right_w - 8 ∧ v < 59 := by
  have hs : g.render.scroll ≤ g.render.max_scroll := min_le_right _ _
  have hdraw : g.render.draw_grid_cell = g.draw_grid_cell := by
    funext j
    unfold draw_grid_cell
    rw [min_eq_left hs]
    rfl
  rw [← hdraw] at hcell
  change g.render.Resolves idx _ _ ↔ 0 ≤ g.render.x ∧ 0 ≤ g.render.y
    ∧ idx % g.render.cols * 72 + u < g.render.right_w - 8 ∧ v < 59
  change idx < g.render.total at hidx
  generalize g.render = q at *
  obtain ⟨-, hfit, hc⟩ := draw_grid_cell_eq_some.mp hcell
  obtain ⟨hcx, hcy⟩ := Prod.mk.inj hc
  have hright : q.right_w = q.w - (q.left_w + 1) := rfl
  have hlist : q.list_h = q.h - 23 := rfl
  have hdiv := div_add_mod' idx q.cols
  refine ⟨?_, ?_⟩
  · intro h
    -- the last pixel of the cell shows that the window was not moved
    have hmem := mem_singleton_self idx
    rw [← h.marquee _ (only_pixel hcell (u := 71) (v := 59) (by decide) (by decide))] at hmem
    obtain ⟨-, c, hc, htouch⟩ := (mem_hits_iff hs).mp hmem
    obtain rfl := Option.some.inj (hcell.symm.trans hc)
    simp only [Marquee.touches, GRID_CELL_W, GRID_CELL_H] at htouch
    have hx : 0 ≤ q.x := by omega
    have hy : 0 ≤ q.y := by omega
    have hclick := h.click
    rw [hepfs_click] at hclick
    split_ifs at hclick with hbar
    have hin : q.contains (cx + u) (cy + v) := by
      by_contra hout
      rw [row_at, if_pos (.inl hout)] at hclick
      exact absurd hclick (by simp)
    have hmenu := h.menu
    rw [fs_context_menu, row_at_cell hs hcell hx hy hu hin le_rfl (by decide)] at hmenu
    have hidx := (Prod.mk.inj (Option.some.inj hmenu)).2
    refine ⟨hx, hy, ?_, ?_⟩
    · by_contra hlt
      unfold contains at hin
      refine hbar ⟨hin, ?_⟩
      dsimp only [HEPFS_SCROLLBAR_W]
      omega
    · by_contra hlt
      have hcols := cols_pos (g := q)
      rw [show (v + (23 - 22 : ℤ).toNat) / 60 = 1 by omega, Nat.add_mul] at hidx
      omega
  · rintro ⟨hx, hy, hbar, hlt⟩
    have hin : q.contains (cx + u) (cy + v) := by
      unfold contains
      omega
    have hat : ∀ top : ℤ, 22 ≤ top → top ≤ 23 → q.row_at top (cx + u) (cy + v)
        = some (.grid, idx) := by
      intro top htop htop'
      rw [row_at_cell hs hcell hx hy hu hin htop htop',
        show (v + (23 - top).toNat) / 60 = 0 by omega, Nat.add_zero, hdiv]
    refine ⟨?_, hat 22 le_rfl (by decide), hat 22 le_rfl (by decide), ?_⟩
    · rw [hepfs_click, if_neg ?_, hat 23 (by decide) le_rfl]
      rintro ⟨-, htrack, -⟩
      dsimp only [HEPFS_SCROLLBAR_W] at htrack
      omega
    · intro m honly
      refine perm_singleton.mp ((perm_ext_iff_of_nodup (nodup_range.filter _)
        (nodup_singleton _)).mpr fun j => ?_)
      rw [mem_singleton, ← fs_marquee_hits, mem_hits_iff hs, Int.toNat_of_nonneg hx,
        Int.toNat_of_nonneg hy]
      simp only [sub_self, add_zero]
      refine ⟨fun h => (honly j h.1).mp h.2, ?_⟩
      rintro rfl
      exact ⟨hidx, (honly j hidx).mpr rfl⟩

/-- A window of 400 by 300 pixels, 100 pixels from both edges. -/
def window (entries : ℕ) : Grid := ⟨100, 100, 400, 300, entries, true, 0⟩

theorem resolves_iff_inside : (window 3).draw_grid_cell 1 = some (313, 123)
    ∧ (window 3).render.Resolves 1 (313 + 10) (123 + 20) :=
  ⟨by
    decide, (resolves_iff (by decide) (show (window 3).draw_grid_cell 1 = some (313, 123) by decide)
      (u := 10)
    (v := 20) (by decide) (by decide)).mpr (by decide)⟩

/-- The lowest pixels of a cell are the next row for a right click, and for a drop. -/
theorem lowest_pixels_differ : (window 6).draw_grid_cell 1 = some (313, 123)
    ∧ (window 6).hepfs_click (313 + 10) (123 + 59) = some (.grid, 1)
    ∧ (window 6).fs_context_menu (313 + 10) (123 + 59) = some (.grid, 4)
    ∧ (window 6).resolve_file_drop (313 + 10) (123 + 59) = some (.grid, 4) := by
  decide

/-! ## Scrolling -/

/-- The window with its scroll bar at `scroll`. -/
def scrolled (g : Grid) (scroll : ℕ) : Grid := { g with scroll := scroll }

theorem last_row (h : 0 < g.total) : (g.total - 1) / g.cols + 1 = g.total_rows := by
  rw [total_rows, ← add_div_right _ cols_pos]
  congr 1
  omega

theorem isSome_draw_grid_cell {scroll : ℕ} (h : scroll ≤ g.max_scroll) :
    ((g.scrolled scroll).draw_grid_cell idx).isSome ↔
      scroll ≤ idx / g.cols ∧ (idx / g.cols - scroll) * 60 + 60 ≤ g.list_h := by
  have hmin : min (g.scrolled scroll).scroll (g.scrolled scroll).max_scroll = scroll :=
    min_eq_left h
  simp only [Option.isSome_iff_exists, draw_grid_cell_eq_some, hmin, exists_and_left,
    exists_eq, and_true]
  rfl

/-- **Which listings can be seen to the end**: those that need no scroll bar, and all of them in a
window whose height is a number of whole rows. -/
theorem every_entry_drawn_iff {g : Grid} (hrow : GRID_CELL_H ≤ g.list_h) :
    (∀ e < g.entries, ∃ scroll ≤ g.hepfs_scroll_max.getD 0,
      ((g.scrolled scroll).draw_grid_cell (g.first + e)).isSome) ↔
      g.total_rows * GRID_CELL_H ≤ g.list_h ∨ GRID_CELL_H ∣ g.list_h := by
  have hmax : g.hepfs_scroll_max.getD 0 = g.max_scroll := by
    unfold hepfs_scroll_max
    split_ifs with h0
    · exact h0.symm
    · rfl
  have htotal : g.total = g.entries + g.first := rfl
  have hscroll : g.max_scroll = g.total_rows - max ((g.list_h + 59) / 60) 1 := rfl
  rw [hmax]
  unfold GRID_CELL_H at hrow ⊢
  refine ⟨?_, ?_⟩
  · intro h
    by_contra hno
    -- the last entry would have to be in the row that is cut off
    have hentries : 0 < g.entries := by
      by_contra h0
      have hle : g.total_rows ≤ 1 := Nat.div_le_of_le_mul (by
        have : g.first ≤ 1 := by
          unfold first
          split_ifs <;> omega
        omega)
      omega
    obtain ⟨scroll, hle, hdrawn⟩ := h (g.entries - 1) (by omega)
    rw [isSome_draw_grid_cell hle, show g.first + (g.entries - 1) = g.total - 1 by omega] at hdrawn
    have hlast := last_row (g := g) (by omega)
    omega
  · intro h e he
    have hlast := last_row (g := g) (by omega)
    have hle : (g.first + e) / g.cols ≤ (g.total - 1) / g.cols := Nat.div_le_div_right (by omega)
    refine ⟨min ((g.first + e) / g.cols) g.max_scroll, min_le_right _ _, ?_⟩
    rw [isSome_draw_grid_cell (min_le_right _ _)]
    omega

theorem every_entry_drawn_four_rows : GRID_CELL_H ≤ (window 12).list_h
    ∧ ∀ e < 12, ∃ scroll ≤ (window 12).hepfs_scroll_max.getD 0,
      (((window 12).scrolled scroll).draw_grid_cell ((window 12).first + e)).isSome :=
  ⟨by decide, (every_entry_drawn_iff (g := window 12) (by decide)).mpr (.inl (by decide))⟩

/-- Four rows and a part of a fifth: the thirteenth entry is not drawn, and there is no scroll
bar. -/
theorem last_entry_not_drawn : GRID_CELL_H ≤ (window 13).list_h
    ∧ (window 13).hepfs_scroll_max = none
    ∧ ((window 13).scrolled 0).draw_grid_cell 12 = none := by
  decide

end Grid

end HepOS.Files
