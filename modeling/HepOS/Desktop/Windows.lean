/-
Windows: showing and hiding them, and which one gets a click.

`hide` starts an animation, and the window is minimized when that has come to its end. `show` does
nothing to a window that is not minimized yet, so it does not take back a `hide`; maximizing,
restoring and snapping put an animation of their own in the place of the one that would have
minimized the window.

A click belongs to the topmost window at its point. The navigator of a Files window is looked for
from the bottom of the stack, and the window that is found first is compared with the topmost one:
where two Files windows overlap, neither gets the click.
-/
import HepOS.Lib.Trace

set_option autoImplicit false

namespace HepOS.Desktop

open Trace List Option

inductive AppKind
  | Welcome | Files | Terminal | Editor | Sysmon | Settings | ImageViewer | AudioPlayer
deriving DecidableEq, Repr

/-- `i32` and `usize` -/
structure Rect where
  x : Int32
  y : Int32
  w : UInt64
  h : UInt64
deriving DecidableEq

inductive AnimKind
  | Opening
  | Closing
  | Transition (src : Rect)
deriving DecidableEq

structure Window where
  id : ℕ
  app_kind : AppKind
  rect : Rect
  saved : Rect
  minimized : Bool
  maximized : Bool
  is_terminal : Bool
  ever_shown : Bool
  anim : Option AnimKind
deriving DecidableEq

def Window.new (id : ℕ) (app_kind : AppKind) (rect : Rect) : Window :=
  ⟨id, app_kind, rect, rect, false, false, false, true, some .Opening⟩

def TITLE_H : UInt64 := 22
def TASKBAR_H : UInt64 := 32
def BORDER_W : UInt64 := 1

/-- `as i32` -/
def i32 (v : UInt64) : Int32 := v.toUInt32.toInt32

/-- `saturating_sub` -/
def sat_sub (a b : UInt64) : UInt64 := if a < b then 0 else a - b

/-! ## Showing and hiding -/

namespace Window

section

variable (w : Window)

def show' : Window :=
  if w.minimized then { w with ever_shown := true, minimized := false, anim := some .Opening }
  else { w with ever_shown := true }

def hide : Window := if w.minimized then w else { w with anim := some .Closing }

def close : Window := { w.hide with ever_shown := false }

def start_transition (src : Rect) : Window := { w with anim := some (.Transition src) }

def toggle_maximize (sw sh : UInt64) : Window :=
  let w' :=
    if w.maximized then { w with rect := w.saved, maximized := false }
    else { w with
      saved := w.rect
      rect := ⟨i32 BORDER_W, i32 TITLE_H + i32 BORDER_W, sat_sub sw (BORDER_W * 2),
        sat_sub sh (TITLE_H + TASKBAR_H + BORDER_W * 2)⟩
      maximized := true }
  w'.start_transition w.rect

/-- A window dropped at the left or the right edge. -/
def snap (right : Bool) (sw sh : UInt64) : Window :=
  let hw := sw / 2
  let x := if right then i32 BORDER_W + i32 hw else i32 BORDER_W
  let rect : Rect := ⟨x, i32 TITLE_H + i32 BORDER_W, sat_sub hw (BORDER_W * 2),
    sat_sub sh (TITLE_H + TASKBAR_H + BORDER_W * 2)⟩
  { w with rect := rect }.start_transition w.rect

/-- `tick_anims` for one window; `done` says whether the animation has come to its end. -/
def tick (done : Bool) : Window :=
  match w.anim with
  | none => w
  | some kind =>
    if done then { w with minimized := w.minimized || kind = .Closing, anim := none } else w

end

end Window

inductive Action
  | show'
  | hide
  | close
  | toggle_maximize (sw sh : UInt64)
  | snap (right : Bool) (sw sh : UInt64)
  | tick (done : Bool)
deriving DecidableEq

section

variable (s : Window × Option Bool)

/-- The window, and whether the last request was to show it; none has been made at first. -/
def act : Action → Window × Option Bool
  | .show' => (s.1.show', some true)
  | .hide => (s.1.hide, some false)
  | .close => (s.1.close, some false)
  | .toggle_maximize sw sh => (s.1.toggle_maximize sw sh, s.2)
  | .snap right sw sh => (s.1.snap right sw sh, s.2)
  | .tick done => (s.1.tick done, s.2)

/-- Once no animation runs, the window is there exactly if it was last asked to be. -/
def Follows : Prop := s.1.anim = none → ∀ shown ∈ s.2, s.1.minimized = !shown

/-- While it closes, a window is neither shown nor given another animation. -/
def Undisturbed : Action → Prop
  | .show' | .toggle_maximize _ _ | .snap _ _ _ => s.1.anim ≠ some .Closing
  | .hide | .close | .tick _ => True

instance (a : Action) : Decidable (Undisturbed s a) := by
  cases a
  all_goals unfold Undisturbed; infer_instance

def NextUndisturbed (a : Action) (t : Window × Option Bool) : Prop :=
  act s a = t ∧ Undisturbed s a

/-- A window that was asked to be shown is not minimized and not about to be, and the other way
round. -/
def Heading : Prop :=
  ∀ shown ∈ s.2, (shown = false ↔ s.1.minimized = true ∨ s.1.anim = some .Closing)

end

theorem heading_act {s : Window × Option Bool} {a : Action} (h : Heading s)
    (hdo : Undisturbed s a) : Heading (act s a) := by
  obtain ⟨w, last⟩ := s
  cases a with
  | show' =>
    have hopen : w.anim ≠ some .Closing := hdo
    cases hmin : w.minimized <;> simp [Heading, act, Window.show', hmin, hopen]
  | hide => cases hmin : w.minimized <;> simp [Heading, act, Window.hide, hmin]
  | close => cases hmin : w.minimized <;> simp [Heading, act, Window.close, Window.hide, hmin]
  | toggle_maximize sw sh =>
    have hopen : w.anim ≠ some .Closing := hdo
    cases hmax : w.maximized <;>
      simpa [Heading, act, Window.toggle_maximize, Window.start_transition, hmax, hopen] using h
  | snap right sw sh =>
    have hopen : w.anim ≠ some .Closing := hdo
    simpa [Heading, act, Window.snap, Window.start_transition, hopen] using h
  | tick done =>
    cases hanim : w.anim with
    | none => simpa [Heading, act, Window.tick, hanim] using h
    | some kind => cases done <;> simpa [Heading, act, Window.tick, hanim] using h

/-- **Visibility follows the last request**, in every run in which nothing comes between a `hide`
and its end. -/
theorem follows_of_undisturbed {w : Window} {l : List Action} {s : Window × Option Bool}
    (h : Steps NextUndisturbed (w, none) l s) : Follows s := by
  have hheading : Heading s := by
    refine h.keeps (P := Heading) nofun fun v a t hv hstep => ?_
    obtain ⟨heq, hdo⟩ := hstep
    cases heq
    exact heading_act hv hdo
  intro hnone shown hshown
  have := hheading shown hshown
  cases shown <;> simpa [hnone] using this

/-- Hidden, shown again and maximized, with the ends of the animations. -/
theorem follows_of_undisturbed_shown :
    ∃ s, Steps NextUndisturbed (Window.new 0 .Files ⟨60, 50, 400, 300⟩, none)
    [.tick true, .hide, .tick true, .show', .toggle_maximize 1024 768, .tick true] s
    ∧ s.1.minimized = false ∧ Follows s := by
  have h : Steps NextUndisturbed (Window.new 0 .Files ⟨60, 50, 400, 300⟩, none)
    [.tick true, .hide, .tick true, .show', .toggle_maximize 1024 768, .tick true] _ :=
    Steps.mono (@Steps.of_run_if _ _ (fun s a => some (act s a)) Undisturbed _ _ _ _ rfl)
      fun _ _ _ hstep => ⟨Option.some.inj hstep.1, hstep.2⟩
  exact ⟨_, h, rfl, follows_of_undisturbed h⟩

/-- A window that is maximized while it closes stays, and one that is shown while it closes goes. -/
theorem request_lost : ∃ w : Window,
    ¬ Follows ([.hide, .toggle_maximize 1024 768, .tick true].foldl act (w, none))
      ∧ ¬ Follows ([.hide, .show', .tick true].foldl act (w, none)) := by
  refine ⟨Window.new 0 .Files ⟨60, 50, 400, 300⟩, fun h => ?_, fun h => ?_⟩
  · exact absurd (h rfl false rfl) (by decide)
  · exact absurd (h rfl true rfl) (by decide)

/-! ## Clicks -/

/-- `lo <= v && v < hi` -/
def within (lo v hi : Int32) : Bool := lo ≤ v && v < hi

namespace Window

variable (win : Window) (mx my : Int32)

def outer_x : Int32 := win.rect.x - i32 BORDER_W
def outer_y : Int32 := win.rect.y - i32 TITLE_H - i32 BORDER_W
def outer_w : UInt64 := win.rect.w + BORDER_W * 2

/-- A button of 14 by 14 pixels. -/
def button_hit (bx b_y : Int32) : Bool := within bx mx (bx + 14) && within b_y my (b_y + 14)

def close_hit : Bool := button_hit mx my (win.outer_x + i32 win.outer_w - 18) (win.outer_y + 4)

def maximize_hit : Bool :=
  button_hit mx my (max win.rect.x 0 + i32 win.rect.w - 34) (win.outer_y + i32 BORDER_W + 4)

def minimize_hit : Bool :=
  button_hit mx my (max win.rect.x 0 + i32 win.rect.w - 50) (win.outer_y + i32 BORDER_W + 4)

def newterm_hit : Bool :=
  win.is_terminal && button_hit mx my (max win.rect.x 0 + 4) (win.outer_y + i32 BORDER_W + 4)

def title_hit : Bool :=
  within win.outer_x mx (win.outer_x + i32 win.outer_w) && within win.outer_y my win.rect.y

def content_hit : Bool :=
  within win.rect.x mx (win.rect.x + i32 win.rect.w)
    && within win.rect.y my (win.rect.y + i32 win.rect.h)

/-- `resize_edges_at(mx, my) != 0` -/
def resize_hit : Bool :=
  let cx1 := win.rect.x + i32 win.rect.w
  let cy1 := win.rect.y + i32 win.rect.h
  let ox := win.outer_x
  !win.maximized && within (ox - 6) mx (ox + i32 win.outer_w + 6) && within win.rect.y my (cy1 + 6)
    && (within (cx1 - 6) mx (cx1 + 6) || within (cy1 - 6) my (cy1 + 6)
      || within (ox - 6) mx (ox + 6))

/-- Where the window takes the mouse. -/
def hit : Bool :=
  !win.minimized && (win.close_hit mx my || win.maximize_hit mx my || win.minimize_hit mx my
    || win.newterm_hit mx my
    || win.title_hit mx my || win.resize_hit mx my || win.content_hit mx my)

def files_at : Bool := win.app_kind = .Files && !win.minimized && win.content_hit mx my

end Window

/-- The windows from the back to the front; `create_window` gives every one another id. -/
structure Stack where
  windows : List Window
  nodup : (windows.map Window.id).Nodup

def topmost_window_id_at (d : Stack) (mx my : Int32) : Option ℕ :=
  (d.windows.reverse.find? fun w => w.hit mx my).map Window.id

/-- Whose navigator gets a click that is not on the scrollbar of a Files window. -/
def hepfs_click (d : Stack) (mx my : Int32) : Option ℕ :=
  (d.windows.find? fun w => w.files_at mx my).bind fun win =>
    if topmost_window_id_at d mx my ≠ some win.id then none else some win.id

theorem Stack.eq_of_id {d : Stack} {v w : Window} (hv : v ∈ d.windows) (hw : w ∈ d.windows)
    (h : v.id = w.id) : v = w :=
  inj_on_of_nodup_map d.nodup hv hw h

section

variable {d : Stack} {w : Window} {mx my : Int32} (hw : w ∈ d.windows)
    (htop : topmost_window_id_at d mx my = some w.id)

include hw htop

/-- The windows above the one that is reported do not take the mouse. -/
theorem split_of_topmost : ∃ below above, d.windows = below ++ w :: above ∧ ∀ v ∈ above,
    v.hit mx my = false := by
  obtain ⟨top, hfind, hid⟩ := map_eq_some_iff.mp htop
  obtain rfl := d.eq_of_id (mem_reverse.mp (mem_of_find?_eq_some hfind)) hw hid
  obtain ⟨-, above, below, hsplit, hnone⟩ := List.find?_eq_some_iff_append.mp hfind
  refine ⟨below.reverse, above.reverse, ?_, fun v hv => ?_⟩
  · rw [← reverse_reverse d.windows, hsplit]
    simp
  · simpa using hnone v (mem_reverse.mp hv)

/-- A Files window at the point of the click that is not the topmost one takes the click away. -/
theorem lost_of_overlap {v : Window} (hv : v ∈ d.windows) (hne : v ≠ w) (hat : v.files_at mx my) :
    hepfs_click d mx my = none := by
  obtain ⟨below, above, hsplit, habove⟩ := split_of_topmost hw htop
  have hnodup := d.nodup
  rw [hsplit] at hv
  have hbelow : v ∈ below := by
    rcases mem_append.mp hv with hv | hv
    · exact hv
    · rcases mem_cons.mp hv with rfl | hv
      · exact absurd rfl hne
      · have hno := habove v hv
        simp only [Window.files_at, Bool.and_eq_true] at hat
        simp [Window.hit, hat.1.2, hat.2] at hno
  -- the first one that is found is below the topmost one
  obtain ⟨u, hu⟩ := isSome_iff_exists.mp ((List.find?_isSome (p := fun w => w.files_at mx my)).mpr
    ⟨v, hbelow, hat⟩)
  have humem := mem_of_find?_eq_some hu
  have hother : w.id ≠ u.id := by
    rw [hsplit, map_append, nodup_append] at hnodup
    exact (hnodup.2.2 u.id (mem_map_of_mem humem) w.id (by simp)).symm
  unfold hepfs_click
  rw [hsplit, List.find?_append, hu]
  simp [htop, hother]

end

/-- **A click on the topmost Files window** reaches its navigator exactly if no other Files window
is at that point. -/
theorem click_reaches_iff {d : Stack} {w : Window} {mx my : Int32} (hw : w ∈ d.windows)
    (htop : topmost_window_id_at d mx my = some w.id) (hat : w.files_at mx my) :
    hepfs_click d mx my = some w.id ↔ ∀ v ∈ d.windows, v.files_at mx my → v = w := by
  constructor
  · intro hclick v hv hvat
    by_contra hne
    rw [lost_of_overlap hw htop hv hne hvat] at hclick
    simp at hclick
  · intro honly
    obtain ⟨u, hu⟩ := isSome_iff_exists.mp ((List.find?_isSome (p := fun w => w.files_at mx my)).mpr
      ⟨w, hw, hat⟩)
    obtain rfl := honly u (mem_of_find?_eq_some hu) (by simpa using List.find?_some hu)
    simp [hepfs_click, hu, htop]

/-- Two Files windows, the second in front of the first. -/
def overlapping : Stack where
  windows := [Window.new 1 .Files ⟨60, 50, 400, 300⟩, Window.new 2 .Files ⟨100, 90, 400, 300⟩]
  nodup := by decide

theorem click_reaches_front : hepfs_click overlapping 480 200 = some 2 :=
  (click_reaches_iff (w := Window.new 2 .Files ⟨100, 90, 400, 300⟩) (by decide) (by decide)
    (by decide)).mpr (by decide)

theorem click_on_overlap_lost : topmost_window_id_at overlapping 200 200 = some 2
    ∧ (Window.new 2 .Files ⟨100, 90, 400, 300⟩).files_at 200 200
    ∧ hepfs_click overlapping 200 200 = none := by
  decide

end HepOS.Desktop
