/-
The two ways `task_blink` updates the screen, and what the screen then shows.

A full redraw renders the scene without a pointer, keeps a copy of it with `save_scene` and flushes
all rows. A pointer that has only moved restores the rows of the old and the new position from that
copy and flushes these rows. Either way the pointer itself is drawn by `gopd`, over the rows it has
copied.

The second path rests on what the screen showed before: every row it does not flush has to show the
scene already, without a pointer. `request_flush` says nothing about a flush it drops, and
`prev_cursor_y` moves on all the same, so from the first dropped flush to the next full redraw
nobody knows where the old pointer is. `stale` records whether this is so, for the statements only;
it is also set before the first redraw.
-/
import HepOS.Display.Frames

set_option autoImplicit false

namespace HepOS.Display.Scene

open Trace Display Option

/-! ## `task_blink` -/

structure Blink where
  gop : Display.State
  backbuf : Pixels
  scene_buf : Pixels
  cursor : Cursor
  prev_cursor_y : ℕ
  stale : Bool

section

variable (scr : Screen) (b : Blink)

/-- The rows `y0 .. y1` of a buffer without padding, from another one. -/
def copy_rows (src dst : Pixels) (y0 y1 : ℕ) : Pixels :=
  fun i => if y0 * scr.width ≤ i ∧ i < y1 * scr.width then src i else dst i

def save_scene : Blink :=
  { b with scene_buf := copy_rows scr b.backbuf b.scene_buf 0 scr.height }

def restore_rows (y count : ℕ) : Blink :=
  let y0 := min y scr.height
  let y1 := min (y + count) scr.height
  { b with backbuf := copy_rows scr b.scene_buf b.backbuf y0 y1 }

/-- `draw_cursor!` while `gopd` draws the pointer, and `prev_cursor_y = cy` after it. -/
def set_cursor (x y : ℕ) (kind : UInt32) : Blink :=
  { b with cursor := ⟨x, y, kind⟩, prev_cursor_y := y }

/-- `flush_rows`; `flush` is this with all rows. -/
def flush_rows (y count : ℕ) : Option Blink :=
  (request_flush scr b.gop y count b.backbuf b.cursor).map fun gop => { b with gop := gop }

/-- The branch for `content_dirty`; `scene` is what the render functions leave in `backbuf`. -/
def redraw (scene : Pixels) (x y : ℕ) (kind : UInt32) : Option Blink :=
  flush_rows scr (set_cursor (save_scene scr { b with backbuf := scene }) x y kind) 0 scr.height

def SPAN : ℕ := 8

/-- The first row and the number of rows of a pointer update. -/
def span_rows (prev cy : ℕ) : ℕ × ℕ :=
  let y0 := min (prev - SPAN) (cy - SPAN)
  let y1 := max (prev + SPAN) (cy + SPAN)
  (y0, min (y1 - y0 + 1) (scr.height - y0))

/-- The branch for `mouse_moved`. -/
def move (x y : ℕ) (kind : UInt32) : Option Blink :=
  let (y0, rows) := span_rows scr b.prev_cursor_y y
  flush_rows scr (set_cursor (restore_rows scr b y0 rows) x y kind) y0 rows

/-- Whether the screen can be trusted after the next access of `request_flush`: a flush that is
dropped leaves it stale, and one with all rows that is published makes up for everything before. -/
def stale_after : Bool :=
  match b.gop.kernel with
  | .read_req _ ack => b.stale || decide (ack ≠ b.gop.mb.req)
  | .store_req f _ => b.stale && decide (¬ (f.y0 = 0 ∧ f.y1 = scr.height))
  | _ => b.stale

inductive Label
  | redraw (scene : Pixels) (x y : ℕ) (kind : UInt32)
  | move (x y : ℕ) (kind : UInt32)
  | kernel
  | gopd

/-- The position of the mouse is kept on the screen by `clamp`. -/
def next : Label → Option Blink
  | .redraw scene x y kind =>
    if x < scr.width ∧ y < scr.height then redraw scr b scene x y kind else none
  | .move x y kind => if x < scr.width ∧ y < scr.height then move scr b x y kind else none
  | .kernel =>
    (kernel_step scr b.gop).map fun gop => { b with gop := gop, stale := stale_after scr b }
  | .gopd => (gopd_step scr b.gop).map fun gop => { b with gop := gop }

def Next (a : Label) (t : Blink) : Prop := next scr b a = some t

/-- `task_blink` when it has launched `gopd`, with anything on the screen and in `backbuf`. -/
def Blink.start (fb backbuf : Pixels) : Blink where
  gop := State.start fb
  backbuf := backbuf
  scene_buf := fun _ => 0
  cursor := ⟨0, 0, 0⟩
  prev_cursor_y := 300
  stale := true

/-! ## What is wanted -/

/-- A scene in the layout of the framebuffer. -/
def lay (scene : Pixels) : Pixels :=
  fun j => scene (j / scr.pitch * scr.width + j % scr.pitch)

/-- Every pixel that is seen is the one of the scene with one pointer drawn over it. -/
def Shows (fb scene : Pixels) (cursor : Cursor) : Prop :=
  ∀ row < scr.height, ∀ col < scr.width,
    fb (row * scr.pitch + col) = draw_cursor scr (lay scr scene) cursor (row * scr.pitch + col)

/-- Between two updates, with `gopd` idle, the screen shows the saved scene and the pointer. -/
def Converged : Prop :=
  b.gop.kernel = .idle → b.gop.mb.ack = b.gop.mb.req → Shows scr b.gop.fb b.scene_buf b.cursor

end

/-! ## One update

Painting a flush makes the screen show the scene when the rows of the flush are rows of the scene
and the other rows showed it already. For a pointer update the latter is where `SPAN` comes in: a
pointer is never more than 7 rows away from its position. -/

section

variable {scr : Screen} {fb scene : Pixels} {b t : Blink}

theorem lay_apply {row col : ℕ} (hcol : col < scr.width) :
    lay scr scene (row * scr.pitch + col) = scene (row * scr.width + col) := by
  have hle := scr.width_le
  have hmod : (row * scr.pitch + col) % scr.pitch = col := by
    rw [Nat.mul_comm, Nat.mul_add_mod, Nat.mod_eq_of_lt (by omega)]
  unfold lay
  rw [row_of_index (by omega), hmod]

theorem paint_shows {f : Flush} (hin : ∀ row col, f.y0 ≤ row → row < f.y1 → col < scr.width →
      f.pixels (row * scr.width + col) = scene (row * scr.width + col))
    (hout : ∀ row col, ¬ (f.y0 ≤ row ∧ row < f.y1) → row < scr.height → col < scr.width →
      fb (row * scr.pitch + col) = scene (row * scr.width + col)) :
    Shows scr (paint scr fb f) scene f.cursor := by
  intro row hrow col hcol
  apply draw_congr
  rw [blit_size f hcol, lay_apply hcol]
  split_ifs with h
  · exact hin row col h.1 h.2 hcol
  · exact hout row col h hrow hcol

/-- Away from the pointer, what is shown is the scene itself. -/
theorem Shows.far {cursor : Cursor} (h : Shows scr fb scene cursor) {row col : ℕ}
    (hrow : row < scr.height) (hcol : col < scr.width)
    (hfar : (row : ℤ) < cursor.y - 7 ∨ cursor.y + 7 < row) :
    fb (row * scr.pitch + col) = scene (row * scr.width + col) := by
  rw [h row hrow col hcol, draw_cursor_far hcol hfar, lay_apply hcol]

theorem copy_rows_in {src dst : Pixels} {y0 y1 row col : ℕ} (hy0 : y0 ≤ row) (hy1 : row < y1)
    (hcol : col < scr.width) :
    copy_rows scr src dst y0 y1 (row * scr.width + col) = src (row * scr.width + col) := by
  have hlow : y0 * scr.width ≤ row * scr.width := Nat.mul_le_mul_right _ hy0
  have hhigh : (row + 1) * scr.width ≤ y1 * scr.width := Nat.mul_le_mul_right _ hy1
  rw [Nat.add_mul, Nat.one_mul] at hhigh
  unfold copy_rows
  rw [if_pos ⟨by omega, by omega⟩]

/-- The flush that a call is about to publish. -/
def pending : Kernel → Option Flush
  | .idle => none
  | .read_ack f | .read_req f _ | .copying f _ _ | .storing f _ _ | .store_req f _ => some f

theorem idle_of_pending {k : Kernel} (h : (pending k).isSome = false) : k = .idle := by
  cases k with
  | idle => rfl
  | _ => exact absurd h Bool.noConfusion

/-- A call with rows on the screen is under way with just these. -/
theorem flush_rows_pending {y count : ℕ} (hy : y < scr.height) (hcount : 0 < count)
    (h : flush_rows scr b y count = some t) :
    b.gop.kernel = .idle ∧ t = { b with gop := { b.gop with
      kernel := .read_ack ⟨y, min (y + count) scr.height, b.backbuf, b.cursor⟩ } } := by
  obtain ⟨gop, hgop, rfl⟩ := map_eq_some_iff.mp h
  unfold request_flush at hgop
  split at hgop
  case h_1 hk =>
    rw [if_neg (by omega), Nat.min_eq_left hy.le] at hgop
    cases hgop
    exact ⟨hk, rfl⟩
  case h_2 => simp at hgop

/-- `redraw` and `move` are calls of `request_flush` for the rest of the system. -/
theorem flush_rows_next {y count : ℕ} (h : flush_rows scr b y count = some t) :
    Display.Next scr b.gop (.flush y count b.backbuf b.cursor) t.gop := by
  obtain ⟨gop, hgop, rfl⟩ := map_eq_some_iff.mp h
  exact hgop

/-- The rows of a pointer update are on the screen, and reach more than 7 rows past both
positions. -/
theorem span_rows_spec {prev cy y0 rows : ℕ} (h : span_rows scr prev cy = (y0, rows))
    (hcy : cy < scr.height) :
    y0 < scr.height ∧ 0 < rows ∧ ∀ row < scr.height,
      ¬ (y0 ≤ row ∧ row < min (y0 + rows) scr.height) →
      row + 7 < prev ∨ prev + 7 < row := by
  unfold span_rows SPAN at h
  cases h
  refine ⟨by omega, by omega, fun row hrow hout => ?_⟩
  omega

end

/-! ## Every run -/

/-- The picture of the published flushes, with the one under way painted over it, is the scene with
the pointer; before a flush under way is published this is only known of it when it has all rows or
the screen is not stale. -/
structure Inv (scr : Screen) (fb : Pixels) (b : Blink) : Prop where
  gop : Display.Inv scr b.gop
  painted : Painted scr fb b.gop
  idle : pending b.gop.kernel = none → b.stale = false →
    b.cursor.y = b.prev_cursor_y ∧ Shows scr (picture scr fb b.gop.accepted) b.scene_buf b.cursor
  busy : ∀ f, pending b.gop.kernel = some f → b.cursor.y = b.prev_cursor_y
    ∧ (b.stale = false ∨ (f.y0 = 0 ∧ f.y1 = scr.height) →
      Shows scr (paint scr (picture scr fb b.gop.accepted) f) b.scene_buf b.cursor)

theorem inv_start (scr : Screen) (fb backbuf : Pixels) : Inv scr fb (Blink.start fb backbuf) where
  gop := Display.inv_start scr fb
  painted := painted_start scr fb
  idle _ h := absurd h (by simp [Blink.start])
  busy f h := absurd h (by simp [Blink.start, State.start, pending])

section

variable {scr : Screen} {fb : Pixels} {b t : Blink}

section

variable (h : Inv scr fb b)

include h

theorem Inv.converged (hstale : b.stale = false) : Converged scr b := by
  intro hidle hack
  rw [h.painted.quiet hack.symm]
  exact (h.idle (by rw [hidle]; rfl) hstale).2

theorem Inv.redraw {scene : Pixels} {x y : ℕ} {kind : UInt32} (hy : y < scr.height)
    (hstep : Scene.redraw scr b scene x y kind = some t) : Inv scr fb t := by
  have hnext := flush_rows_next hstep
  have hinv : Display.Inv scr t.gop := Display.Inv.step h.gop hnext
  have hpainted : Painted scr fb t.gop := Painted.step h.gop h.painted hnext
  obtain ⟨hk, rfl⟩ := flush_rows_pending (by omega) (by omega) hstep
  refine ⟨hinv, hpainted, fun hp => absurd hp (by simp [pending]), fun f hf => ⟨rfl, fun _ => ?_⟩⟩
  cases hf
  rw [Nat.zero_add, Nat.min_self]
  apply paint_shows
  · exact fun row col _ hrow hcol => (copy_rows_in (Nat.zero_le _) hrow hcol).symm
  · exact fun row col hout hrow _ => absurd ⟨Nat.zero_le _, hrow⟩ hout

theorem Inv.move {x y : ℕ} {kind : UInt32} (hy : y < scr.height)
    (hstep : Scene.move scr b x y kind = some t) : Inv scr fb t := by
  unfold Scene.move at hstep
  rcases hspan : span_rows scr b.prev_cursor_y y with ⟨y0, rows⟩
  rw [hspan] at hstep
  obtain ⟨hy0, hrows, hfar⟩ := span_rows_spec hspan hy
  have hnext := flush_rows_next hstep
  have hinv : Display.Inv scr t.gop := Display.Inv.step h.gop hnext
  have hpainted : Painted scr fb t.gop := Painted.step h.gop h.painted hnext
  obtain ⟨hk, rfl⟩ := flush_rows_pending hy0 hrows hstep
  have hk : b.gop.kernel = .idle := hk
  refine ⟨hinv, hpainted, fun hp => absurd hp (by simp [pending]), fun f hf => ⟨rfl, fun hok => ?_⟩⟩
  cases hf
  apply paint_shows
  · -- the rows of the flush have just been restored
    intro row col hlow hhigh hcol
    apply copy_rows_in _ hhigh hcol
    exact le_trans (Nat.min_le_left _ _) hlow
  · intro row col hout hrow hcol
    rcases hok with hstale | ⟨hzero, hall⟩
    · -- the other rows show the scene, since the old pointer does not reach them
      obtain ⟨hcy, hshows⟩ := h.idle (by rw [hk]; rfl) hstale
      apply hshows.far hrow hcol
      have := hfar row hrow hout
      omega
    · dsimp only at hzero hall hout
      rw [hall, hzero] at hout
      exact absurd ⟨Nat.zero_le _, hrow⟩ hout

/-- A step of `request_flush` that neither drops nor publishes. -/
theorem Inv.kernel_goes_on {gop : State} (hinv : Display.Inv scr gop)
    (hpainted : Painted scr fb gop) (hpending : pending gop.kernel = pending b.gop.kernel)
    (hacc : gop.accepted = b.gop.accepted) : Inv scr fb { b with gop := gop } := by
  refine ⟨hinv, hpainted, ?_, ?_⟩
  · dsimp only
    rw [hpending, hacc]
    exact h.idle
  · dsimp only
    rw [hpending, hacc]
    exact h.busy

theorem Inv.kernel {gop : State} (hstep : kernel_step scr b.gop = some gop) :
    Inv scr fb { b with gop := gop, stale := stale_after scr b } := by
  have hinv : Display.Inv scr gop := Display.Inv.step h.gop (a := .kernel) hstep
  have hpainted : Painted scr fb gop := Painted.step h.gop h.painted (a := .kernel) hstep
  unfold kernel_step at hstep
  unfold stale_after
  split at hstep
  case h_1 => simp at hstep
  case h_2 f hk =>
    cases hstep
    rw [hk]
    exact h.kernel_goes_on hinv hpainted (by rw [hk]; rfl) rfl
  case h_3 f ack hk =>
    cases hstep
    rw [hk]
    dsimp only
    by_cases hack : ack = b.gop.mb.req
    · have hkept : (b.stale || decide (ack ≠ b.gop.mb.req)) = b.stale := by simp [hack]
      rw [hkept]
      exact h.kernel_goes_on hinv hpainted (by rw [hk]; dsimp only; rw [if_pos hack]; rfl) rfl
    · -- dropped: nothing is claimed of the screen any more
      refine ⟨hinv, hpainted, fun _ hstale => absurd hstale (by simp [hack]), fun f' hf => ?_⟩
      rw [if_neg hack] at hf
      exact absurd hf (by simp [pending])
  case h_4 f req i hk =>
    rw [hk]
    split_ifs at hstep
    all_goals
      cases hstep
      exact h.kernel_goes_on hinv hpainted (by rw [hk]; rfl) rfl
  case h_5 f req field hk =>
    cases hstep
    rw [hk]
    refine h.kernel_goes_on hinv hpainted ?_ rfl
    rw [hk]
    cases field <;> rfl
  case h_6 f req hk =>
    -- published: what was known of the flush under way is now known of the picture
    cases hstep
    rw [hk]
    obtain ⟨hcy, hshows⟩ := h.busy f (by rw [hk]; rfl)
    refine ⟨hinv, hpainted, fun _ hstale => ⟨hcy, ?_⟩, fun f' hf => absurd hf (by simp [pending])⟩
    rw [picture_snoc]
    apply hshows
    by_contra hnot
    rw [not_or] at hnot
    simp [hnot] at hstale

end

theorem gopd_step_frame {s gop : State} (hstep : gopd_step scr s = some gop) :
    gop.kernel = s.kernel ∧ gop.accepted = s.accepted := by
  unfold gopd_step at hstep
  cases hgopd : s.gopd with (rw [hgopd] at hstep)
  | look | copying req c =>
    dsimp only at hstep
    split_ifs at hstep <;> exact (Option.some.inj hstep) ▸ ⟨rfl, rfl⟩
  | exited =>
    simp at hstep
  | _ =>
    exact (Option.some.inj hstep) ▸ ⟨rfl, rfl⟩

/-- **One step** keeps the invariant. -/
theorem Inv.step (h : Inv scr fb b) {a : Label} (hstep : Next scr b a t) : Inv scr fb t := by
  unfold Next next at hstep
  cases a with
  | redraw scene x y kind =>
    dsimp only at hstep
    split_ifs at hstep with hpos
    exact h.redraw hpos.2 hstep
  | move x y kind =>
    dsimp only at hstep
    split_ifs at hstep with hpos
    exact h.move hpos.2 hstep
  | kernel =>
    obtain ⟨gop, hgop, rfl⟩ := map_eq_some_iff.mp hstep
    exact h.kernel hgop
  | gopd =>
    obtain ⟨gop, hgop, rfl⟩ := map_eq_some_iff.mp hstep
    obtain ⟨hkernel, hacc⟩ := gopd_step_frame hgop
    exact h.kernel_goes_on (Display.Inv.step h.gop (a := .gopd) hgop)
      (Painted.step h.gop h.painted (a := .gopd) hgop) (by rw [hkernel]) hacc

end

/-- **The screen converges** as long as no flush has been dropped since the last full redraw. -/
theorem converged_of_not_stale {scr : Screen} {fb backbuf : Pixels} {b : Blink} {l : List Label}
    (h : Steps (Next scr) (Blink.start fb backbuf) l b) (hstale : b.stale = false) :
    Converged scr b :=
  (h.keeps (inv_start scr fb backbuf) fun _ _ _ hv hstep => hv.step hstep).converged
    hstale

/-! ## A pointer that stays behind

One column of 18 pixels. The pointer is at the top, then in row 16 while `gopd` still shows the
first picture, and at last in row 17. The flush in between is dropped, so the last one restores the
rows from 8 on and not the ones the first pointer is in. -/

def column : Screen := ⟨1, 18, 1, by decide, by decide⟩

/-- A full redraw, up to the store of `req`. -/
def full_redraw : List Label :=
  .redraw (fun _ => 0) 0 0 0 :: List.replicate 27 .kernel

/-- `gopd` shows what was published with that many rows. -/
def gopd_shows (rows : ℕ) : List Label := List.replicate (rows + 11) .gopd

def move_and_publish (y rows : ℕ) : List Label :=
  .move 0 y 0 :: List.replicate (rows + 9) .kernel

def no_drop : List Label := full_redraw ++ gopd_shows 18 ++ move_and_publish 17 18 ++ gopd_shows 18

def one_drop : List Label :=
  full_redraw ++ [.move 0 16 0, .kernel, .kernel] ++ gopd_shows 18 ++ move_and_publish 17 10
    ++ gopd_shows 10

theorem converged_of_not_stale_column :
    ∃ b, Steps (Next column) (Blink.start (fun _ => 7) fun _ => 7) no_drop b
    ∧ b.gop.kernel = .idle ∧ b.gop.mb.ack = b.gop.mb.req ∧ b.gop.shown.length = 2
    ∧ Converged column b := by
  have hrun : (run (next column) (Blink.start (fun _ => 7) fun _ => 7) no_drop).map
      (fun b => ((pending b.gop.kernel).isSome, b.gop.mb.ack, b.gop.mb.req,
        b.gop.shown.length, b.stale))
      = some (false, 2, 2, 2, false) := by decide +kernel
  obtain ⟨b, hb, hend⟩ := map_eq_some_iff.mp hrun
  simp only [Prod.mk.injEq] at hend
  obtain ⟨hpending, hack, hreq, hshown, hstale⟩ := hend
  have h : Steps (Next column) (Blink.start (fun _ => 7) fun _ => 7) no_drop b := .of_run _ hb
  exact ⟨b, h, idle_of_pending hpending, hack.trans hreq.symm, hshown,
    converged_of_not_stale h hstale⟩

/-- **A dropped flush** leaves a second pointer behind: row 0 is still white when everything is
idle. -/
theorem dropped_flush_leaves_pointer :
    ∃ b, Steps (Next column) (Blink.start (fun _ => 7) fun _ => 7) one_drop b
    ∧ b.gop.kernel = .idle ∧ b.gop.mb.ack = b.gop.mb.req ∧ b.scene_buf 0 = 0
    ∧ b.cursor = ⟨0, 17, 0⟩ ∧ b.gop.fb 0 = WHITE ∧ ¬ Converged column b := by
  have hrun : (run (next column) (Blink.start (fun _ => 7) fun _ => 7) one_drop).map
      (fun b => ((pending b.gop.kernel).isSome, b.gop.mb.ack, b.gop.mb.req, b.scene_buf 0, b.cursor,
        b.gop.fb 0))
      = some (false, 2, 2, 0, ⟨0, 17, 0⟩, WHITE) := by decide +kernel
  obtain ⟨b, hb, hend⟩ := map_eq_some_iff.mp hrun
  simp only [Prod.mk.injEq] at hend
  obtain ⟨hpending, hack, hreq, hscene, hcursor, hfb⟩ := hend
  have hidle := idle_of_pending hpending
  refine ⟨b, .of_run _ hb, hidle, hack.trans hreq.symm, hscene, hcursor, hfb, fun hconv => ?_⟩
  have hrow := hconv hidle (hack.trans hreq.symm) 0 (by decide) 0 (by decide)
  rw [draw_cursor_far (by decide) (.inl (by rw [hcursor]; decide)), lay_apply (by decide)] at hrow
  have hwhite : WHITE = (0 : UInt32) := hfb.symm.trans (hrow.trans hscene)
  exact absurd hwhite (by decide)

end HepOS.Display.Scene
