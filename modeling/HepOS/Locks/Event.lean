/-
The locks that `task_blink` takes for a mouse event (`main.rs`, `desktop.rs`).

`spin::Mutex` is not re-entrant. `task_blink` holds `DESKTOP` for the whole of `update_mouse`, and
afterwards takes and drops it many times over, mostly to read one field. The question is whether
some path asks for a lock that it holds.

`update_mouse` is followed branch by branch as far as the branches decide what is locked: an early
return while something is dragged, the right click that opens a menu, and the click on an item of
the menu that is open. What a right click finds under the cursor is an arbitrary function of the
desktop. In the rest of the event both branches of every `if` are kept (`maybe`, `.choice`,
`.loop`), so that the code here has every path of the source and more.

One path is bad. "Paste" in the menu of a file manager's empty space copies the entries and calls
`refresh_desktop_icons`, which locks `DESKTOP` to hand over the new icons.

Positions and sizes are integers here, `i32` and `usize` in the source. The two agree for rectangles
and points within 2^30 of the origin.
-/
import HepOS.Locks.Kernel

set_option autoImplicit false

namespace HepOS.Locks.Event

open Spin Locks Trace List

/-! ## The state -/

structure Rect where
  x : ℤ
  y : ℤ
  w : ℤ
  h : ℤ
deriving DecidableEq, Repr

/-- `ContextMenuKind`, with what its labels depend on. -/
inductive MenuKind
  | Background
  /-- a program; whether it has a window of its own -/
  | App (has_win_id : Bool)
  | EditText
  /-- an icon; whether it is still there -/
  | Icon (present : Bool)
  | FsRow
  | FsPane
deriving DecidableEq, Repr

/-- What a right click finds. -/
inductive Target
  /-- a button of the taskbar or a row of the start menu; whether the program supports a new
  window -/
  | app (supports_new_window has_win_id : Bool)
  /-- the taskbar besides the buttons -/
  | taskbar
  | text
  | files
  | window
  | icon (present : Bool)
  | background
deriving DecidableEq, Repr

/-- The window that has the focus. -/
structure Window where
  resizing : Bool
  dragging : Bool
  maximized : Bool
deriving DecidableEq, Repr

/-- The fields of `Desktop` that decide which locks `update_mouse` takes. -/
structure Desktop where
  prev_btn : ℕ
  /-- the open prompt, with its `prompt_rect()` -/
  text_prompt : Option (Option Rect)
  focused : Option Window
  /-- an icon that exists is being dragged -/
  icon_dragging : Bool
  marquee_start : Bool
  volume_drag : Bool
  context_menu : Option (ℤ × ℤ)
  context_menu_kind : MenuKind
  fb_w : ℕ
  fb_h : ℕ
  right_target : ℤ → ℤ → Target

/-- What else decides: the contents of other locks, and the disk. -/
structure World where
  desktop : Option Desktop
  /-- the inodes on `FS_CLIPBOARD` -/
  fs_clipboard : List ℕ
  /-- `nvme::CONTROLLER` is set -/
  controller : Bool
  /-- `lookup` finds `/home/desktop`, when the copies are made -/
  home_desktop : Bool

structure Mouse where
  mx : ℤ
  my : ℤ
  buttons : ℕ

section

variable (d : Desktop) (m : Mouse)

def Desktop.clicked : Bool := m.buttons.testBit 0 && !d.prev_btn.testBit 0

def Desktop.right_clicked : Bool := m.buttons.testBit 1 && !d.prev_btn.testBit 1

def Desktop.released : Bool := !m.buttons.testBit 0 && d.prev_btn.testBit 0

def Mouse.held : Bool := m.buttons.testBit 0

def Rect.inside (r : Rect) (m : Mouse) : Bool :=
  decide (r.x ≤ m.mx) && decide (m.mx < r.x + r.w) && decide (r.y ≤ m.my)
    && decide (m.my < r.y + r.h)

/-- A click outside the prompt closes it and does nothing else. -/
def Desktop.dismisses : Bool :=
  (d.clicked m || d.right_clicked m) &&
    match d.text_prompt with
    | some (some r) => !r.inside m
    | _ => false

/-- A window, an icon or the marquee is being dragged: `update_mouse` moves it and returns. -/
def Desktop.drags : Bool :=
  m.held &&
    ((match d.focused with
      | some w => w.resizing || (w.dragging && !w.maximized)
      | none => false)
    || d.icon_dragging || d.marquee_start)

/-- The right click. In a file manager it only leaves a note for `task_blink`. -/
def Desktop.right_click : Desktop :=
  if d.right_clicked m then
    match d.right_target m.mx m.my with
    | .app true has_win_id =>
      { d with context_menu := some (m.mx, m.my), context_menu_kind := .App has_win_id }
    | .text => { d with context_menu := some (m.mx, m.my), context_menu_kind := .EditText }
    | .icon present =>
      { d with context_menu := some (m.mx, m.my), context_menu_kind := .Icon present }
    | .background => { d with context_menu := some (m.mx, m.my), context_menu_kind := .Background }
    | .app false _ | .taskbar | .files | .window => d
  else d

/-- The length of `context_menu_labels()`. -/
def MenuKind.labels : MenuKind → ℕ
  | .Background => 3
  | .App has_win_id => if has_win_id then 3 else 2
  | .EditText => 2
  | .Icon present => if present then 3 else 1
  | .FsRow => 3
  | .FsPane => 1

def CM_W : ℕ := 168

def ITEM_H : ℕ := 26

def TASKBAR_H : ℕ := 32

/-- `c as usize` -/
def as_usize (c : ℤ) : ℕ := (c % 2 ^ 64).toNat

/-- `n as i32` -/
def as_i32 (n : ℕ) : ℤ := Int.bmod n (2 ^ 32)

def Desktop.context_menu_item_at : Option ℕ :=
  match d.context_menu with
  | none => none
  | some (cx, cy) =>
    let cm_h := d.context_menu_kind.labels * ITEM_H + 8
    let x := as_i32 (min (as_usize cx) (d.fb_w - CM_W))
    let y := as_i32 (min (as_usize cy) (d.fb_h - (cm_h + TASKBAR_H)))
    if x ≤ m.mx ∧ m.mx < x + CM_W ∧ y + 4 ≤ m.my ∧ m.my < y + 4 + cm_h - 8 then
      some ((m.my - (y + 4)) / ITEM_H).toNat
    else none

end

/-! ## Parts that are used in many places -/

/-- Any code: it allocates and frees. -/
def work : Code Lock := .loop (brief .SLAB)

/-- A critical section. -/
def guarded (l : Lock) (cs : List (Code Lock)) : Code Lock := .lock l (block (work :: cs))

/-- Operations of HepFS on the controller: every block goes through the mailbox under `IO_LOCK`, or
is read directly. -/
def disk : Code Lock := .loop (.choice (brief .nvme_IO_LOCK) (brief .SLAB))

/-- `nvme::CONTROLLER.lock()` and some operations of HepFS. -/
def with_controller : Code Lock := guarded .nvme_CONTROLLER [disk]

section

variable (w : World)

def refresh_desktop_icons : Code Lock :=
  block [with_controller, if w.controller && w.home_desktop then guarded .DESKTOP [] else .skip]

/-- `taskbar_entries`, `toggle_pinned_taskbar`, `is_pinned_taskbar` -/
def pinned_taskbar : Code Lock := guarded .PINNED_TASKBAR []

/-- `toggle_pinned_file`, `pin_file`, `is_pinned_file` -/
def pinned_files : Code Lock := guarded .PINNED_FILES []

def set_volume : Code Lock := guarded .HDA []

/-! ## `update_mouse` -/

/-- A button of the taskbar is dropped or clicked, an icon is opened or renamed. -/
def on_release : Code Lock := block [work, maybe pinned_taskbar]

def on_right_click : Code Lock := block [maybe pinned_taskbar, work]

/-- "Paste" in a file manager. The controller is dropped before the icons are refreshed. -/
def paste : Code Lock :=
  block [guarded .FS_CLIPBOARD [], if w.fs_clipboard.isEmpty then .skip
    else block [with_controller, refresh_desktop_icons w]]

/-- "Copy" of an entry of the desktop. -/
def copy_icon : Code Lock := guarded .nvme_CONTROLLER [disk, maybe (guarded .FS_CLIPBOARD [])]

def menu_item : MenuKind → Option ℕ → Code Lock
  | .App _, some 1 => pinned_taskbar
  -- a program or an entry of the file system, if the icon is still there
  | .Icon _, some 1 => maybe (.choice pinned_taskbar pinned_files)
  | .Icon _, some 2 => block [work, maybe copy_icon]
  | .FsRow, some 1 => pinned_files
  | .FsRow, some 2 => block [work, guarded .FS_CLIPBOARD []]
  | .FsPane, some 0 => paste w
  | _, _ => work

/-- `context_menu_item_at` asks for the labels, which say "Pin" or "Unpin". -/
def menu_labels : MenuKind → Code Lock
  | .App _ => pinned_taskbar
  | .Icon true => .choice pinned_taskbar pinned_files
  | _ => .skip

/-- A click without a menu: the jump list, the volume, the start menu, the taskbar, the dock, the
icons, the windows. -/
def click : Code Lock :=
  block [work, maybe set_volume, maybe pinned_taskbar, maybe pinned_files, work]

/-- The left button goes down. An open menu swallows the click. -/
def on_left_click (d : Desktop) (m : Mouse) : Code Lock :=
  if d.context_menu.isSome then
    block [menu_labels d.context_menu_kind, work,
      menu_item w d.context_menu_kind (d.context_menu_item_at m)]
  else click

def update_mouse (d : Desktop) (m : Mouse) : Code Lock :=
  if d.dismisses m then work
  else if d.drags m then work
  else if m.held && d.volume_drag then set_volume
  else
    block [
      if d.released m then on_release else .skip,
      if d.right_clicked m then on_right_click else .skip,
      if d.clicked m then on_left_click w (d.right_click m) m else .skip]

/-- The section in which `update_mouse` is called. -/
def mouse_section (m : Mouse) : Code Lock :=
  guarded .DESKTOP [match w.desktop with
    | some d => update_mouse w d m
    | none => .skip]

/-! ## The rest of the event -/

/-- `if let Some(dt) = DESKTOP.lock().as_mut() { .. }` -/
def on_desktop : Code Lock := guarded .DESKTOP []

/-- `spawn_terminal`, `spawn_editor_blank`, `spawn_viewer_blank`: the list of further windows is
counted and pushed to, and the contents of the new one are made under its lock. -/
def spawn_window (extra : Lock) : Code Lock :=
  block [guarded extra [], on_desktop, maybe (guarded extra [])]

def spawn_terminal : Code Lock := spawn_window .EXTRA_TERMINALS

def spawn_files : Code Lock := block [on_desktop, maybe (guarded .HEPFS_NAVS [])]

/-- `editor::open_smart`: in the main window, or in a new one. -/
def editor_open_smart : Code Lock :=
  block [on_desktop, with_controller, .choice (guarded .EDITOR []) (spawn_window .EXTRA_EDITORS),
    on_desktop, guarded .FOCUSED_WIN []]

/-- `image::open_smart` looks into the main viewer with the desktop still locked. -/
def image_open_smart : Code Lock :=
  block [guarded .DESKTOP [maybe (guarded .VIEWER [])], with_controller,
    .choice (guarded .VIEWER []) (spawn_window .EXTRA_VIEWERS), on_desktop, guarded .FOCUSED_WIN []]

/-- `audio::play` -/
def play : Code Lock := block [with_controller, maybe (guarded .HDA []), guarded .NOW_PLAYING []]

/-- A file is opened by its extension. -/
def open_file : Code Lock :=
  .choice image_open_smart
    (.choice (block [play, on_desktop, guarded .FOCUSED_WIN []]) editor_open_smart)

/-- `hit_test`, and `is_double_click` under the lock of the editor or terminal. -/
def select_in (l : Lock) : Code Lock := guarded l [maybe (guarded .LAST_CLICK [])]

/-- Dragging over text. The window is marked dirty with the desktop still locked. -/
def text_selection : Code Lock :=
  .choice (brief .TEXT_DRAG_WIN)
    (block [
      guarded .DESKTOP [maybe (brief .TEXT_DRAG_WIN)],
      maybe (brief .TEXT_DRAG_WIN),
      maybe (.choice (.choice (select_in .EDITOR) (select_in .EXTRA_EDITORS))
        (.choice (select_in .TERMINAL) (select_in .EXTRA_TERMINALS))),
      maybe
        (guarded .DESKTOP [maybe (.choice (guarded .TERMINAL []) (guarded .EXTRA_TERMINALS []))])])

/-- `clipboard::get` or `clipboard::set` under the lock of the editor or terminal. -/
def clipboard_in (l : Lock) : Code Lock := guarded l [maybe (guarded .CLIPBOARD [])]

def clipboard_action : Code Lock :=
  block [on_desktop,
    maybe (block [on_desktop,
      maybe (.choice (.choice (clipboard_in .EDITOR) (clipboard_in .EXTRA_EDITORS))
        (.choice (clipboard_in .TERMINAL) (clipboard_in .EXTRA_TERMINALS))),
      on_desktop])]

def open_settings : Code Lock :=
  block [on_desktop, maybe (guarded .DESKTOP [maybe (guarded .FOCUSED_WIN [])])]

def new_window : Code Lock :=
  block [on_desktop,
    maybe (block [
      .choice (.choice spawn_terminal (spawn_window .EXTRA_EDITORS))
        (.choice (spawn_window .EXTRA_VIEWERS) (.choice on_desktop spawn_files)),
      maybe (guarded .DESKTOP [guarded .FOCUSED_WIN []])])]

def open_fs_entry : Code Lock :=
  block [on_desktop,
    maybe (.choice
      (block [spawn_files,
        maybe (block [guarded .HEPFS_NAVS [], guarded .DESKTOP [guarded .FOCUSED_WIN []]])])
      open_file)]

def prompt_result : Code Lock :=
  block [on_desktop, maybe (block [with_controller, refresh_desktop_icons w, on_desktop])]

def sync_focus : Code Lock := maybe (block [on_desktop, maybe (guarded .FOCUSED_WIN [])])

/-- `hepfs_list_dir_cached`, called with the controller locked -/
def list_dir_cached : Code Lock := guarded .HEPFS_NAVS [disk]

/-- `hepfs_scroll_max` and `fs_marquee_hits`: the navigator is dropped before the controller is
locked. -/
def listing : Code Lock :=
  block [guarded .HEPFS_NAVS [], maybe (guarded .nvme_CONTROLLER [maybe list_dir_cached])]

/-- The guard in `if let Some(..) = *FS_SCROLL_DRAG.lock()` lives as long as the body. -/
def scrollbar : Code Lock :=
  block [maybe on_desktop, maybe (block [listing, maybe (brief .FS_SCROLL_DRAG)]),
    .choice (guarded .FS_SCROLL_DRAG [maybe (block [guarded .HEPFS_NAVS [], on_desktop])])
      (brief .FS_SCROLL_DRAG)]

/-- So does the one in `if let Some(..) = *FS_MARQUEE.lock()`. -/
def marquee : Code Lock :=
  .choice
    (guarded .FS_MARQUEE
      [maybe (block [on_desktop, maybe (block [listing, guarded .HEPFS_NAVS [], on_desktop])])])
    (brief .FS_MARQUEE)

/-- `resolve_fs_row` -/
def resolve_fs_row : Code Lock := block [guarded .HEPFS_NAVS [], maybe with_controller]

/-- A click into a file manager: back, forward, or an entry of one of the panes. -/
def files_click : Code Lock :=
  maybe (block [
    guarded .DESKTOP [maybe (guarded .HEPFS_NAVS [])],
    maybe (.choice
      (block [guarded .HEPFS_NAVS [], on_desktop])
      (block [guarded .HEPFS_NAVS [],
        .choice (block [guarded .HEPFS_NAVS [], on_desktop])
          (block [with_controller,
            maybe (.choice
              (block [guarded .HEPFS_NAVS [],
                maybe
                  (block [on_desktop,
                    maybe (block [.loop resolve_fs_row, guarded .FILE_DRAG []])])])
              (block [guarded .HEPFS_NAVS [], guarded .FS_MARQUEE [], on_desktop]))])]))])

/-- The note that a right click in a file manager has left is made into a menu. -/
def resolve_context_menu : Code Lock :=
  block [on_desktop,
    maybe (block [on_desktop,
      maybe (block [guarded .HEPFS_NAVS [], maybe (guarded .HEPFS_NAVS []),
        maybe (block [with_controller,
          maybe (block [guarded .HEPFS_NAVS [], .loop resolve_fs_row, pinned_files])]),
        maybe on_desktop])])]

def settings_window : Code Lock :=
  block [on_desktop, on_desktop, maybe (brief .VOLUME_DRAG), maybe (brief .VOLUME_DRAG),
    maybe (block [maybe set_volume, on_desktop])]

def resolve_file_drop_outside_windows : Code Lock :=
  block [on_desktop,
    maybe (.choice (block [.loop pinned_files, on_desktop])
      (block [with_controller, refresh_desktop_icons w, on_desktop]))]

def resolve_file_drop : Code Lock :=
  block [on_desktop,
    .choice (resolve_file_drop_outside_windows w)
      (block [guarded .HEPFS_NAVS [],
        maybe (block [maybe (guarded .HEPFS_NAVS []),
          maybe (.choice (guarded .HEPFS_NAVS []) with_controller), with_controller,
          refresh_desktop_icons w, on_desktop])])]

/-- The end of a drag in a file manager, or the action that the click was for. -/
def file_drag : Code Lock :=
  block [guarded .FILE_DRAG [],
    maybe (.choice (resolve_file_drop w)
      (maybe (.choice (block [guarded .HEPFS_NAVS [], on_desktop])
        (.choice (block [guarded .HEPFS_NAVS [], open_file]) on_desktop))))]

/-- What `task_blink` does with one state of the mouse. -/
def handle_event (m : Mouse) : Code Lock :=
  block [
    on_desktop, guarded .MOUSE [],
    mouse_section w m,
    maybe spawn_terminal,
    text_selection, clipboard_action, open_settings, new_window, open_fs_entry, prompt_result w,
      sync_focus, scrollbar, marquee,
    files_click, resolve_context_menu, settings_window, file_drag w]

/-! ## Which events are bad -/

/-- The event comes to a click on "Paste" in the menu of a file manager's empty space. -/
structure Desktop.ChoosesPaste (d : Desktop) (m : Mouse) : Prop where
  prompt : d.dismisses m = false
  still : d.drags m = false
  slider : (m.held && d.volume_drag) = false
  clicked : d.clicked m = true
  kind : (d.right_click m).context_menu_kind = .FsPane
  item : (d.right_click m).context_menu_item_at m = some 0

/-- Something is pasted, and there are icons to refresh. -/
structure Pastes (m : Mouse) : Prop where
  chosen : ∃ d, w.desktop = some d ∧ d.ChoosesPaste m
  clipboard : w.fs_clipboard ≠ []
  controller : w.controller = true
  home_desktop : w.home_desktop = true

end

theorem refresh_desktop_icons_relocks (w : World) : (refresh_desktop_icons w).relocks [] = false
      ∧ (refresh_desktop_icons w).relocks [.DESKTOP] = (w.controller && w.home_desktop) := by
  obtain ⟨d, clip, controller, home⟩ := w
  cases controller <;> cases home <;> exact ⟨rfl, rfl⟩

theorem paste_relocks (w : World) :
    (paste w).relocks [.DESKTOP] = true ↔ w.fs_clipboard ≠ [] ∧ w.controller = true
      ∧ w.home_desktop = true := by
  have hrefresh := (refresh_desktop_icons_relocks w).2
  unfold paste
  cases hclip : w.fs_clipboard with
  | nil => simp [block_relocks, guarded, work, brief, Code.relocks]
  | cons ino rest =>
    have hctrl : with_controller.relocks [.DESKTOP] = false := rfl
    have hclipboard : (guarded .FS_CLIPBOARD []).relocks [.DESKTOP] = false := rfl
    simp [block_relocks, hrefresh, hctrl, hclipboard]

theorem menu_item_relocks (w : World) (kind : MenuKind) (item : Option ℕ) :
    (menu_item w kind item).relocks [.DESKTOP] = true
      ↔ kind = .FsPane ∧ item = some 0 ∧ w.fs_clipboard ≠ [] ∧ w.controller = true
        ∧ w.home_desktop = true := by
  by_cases hpaste : kind = .FsPane ∧ item = some 0
  · obtain ⟨rfl, rfl⟩ := hpaste
    simp [menu_item, paste_relocks]
  · -- no other item comes back to the desktop
    have hother : (menu_item w kind item).relocks [.DESKTOP] = false := by
      unfold menu_item
      split
      case h_6 => exact absurd ⟨rfl, rfl⟩ hpaste
      all_goals rfl
    rw [hother]
    constructor
    · exact fun h => absurd h Bool.false_ne_true
    · rintro ⟨hk, hi, -⟩
      exact absurd ⟨hk, hi⟩ hpaste

theorem menu_labels_relocks (kind : MenuKind) : (menu_labels kind).relocks [.DESKTOP] = false := by
  cases kind with
  | Icon present => cases present <;> rfl
  | Background => rfl
  | App _ => rfl
  | EditText => rfl
  | FsRow => rfl
  | FsPane => rfl

theorem Desktop.menu_open_of_item {d : Desktop} {m : Mouse} {n : ℕ}
    (h : d.context_menu_item_at m = some n) :
    d.context_menu.isSome = true := by
  unfold Desktop.context_menu_item_at at h
  cases hmenu : d.context_menu with
  | none =>
    rw [hmenu] at h
    cases h
  | some p => rfl

theorem on_left_click_relocks (w : World) (d : Desktop) (m : Mouse) :
    (on_left_click w d m).relocks [.DESKTOP] = true
      ↔ d.context_menu_kind = .FsPane ∧ d.context_menu_item_at m = some 0
        ∧ w.fs_clipboard ≠ [] ∧ w.controller = true ∧ w.home_desktop = true := by
  unfold on_left_click
  by_cases hmenu : d.context_menu.isSome = true
  · have hwork : work.relocks [.DESKTOP] = false := rfl
    rw [if_pos hmenu]
    simp only [block_relocks, any_cons, any_nil, menu_labels_relocks, hwork, Bool.false_or,
      Bool.or_false, menu_item_relocks]
  · have hplain : click.relocks [.DESKTOP] = false := rfl
    rw [if_neg hmenu, hplain]
    constructor
    · exact fun h => absurd h Bool.false_ne_true
    · exact fun h => absurd (Desktop.menu_open_of_item h.2.1) hmenu

theorem update_mouse_relocks (w : World) (d : Desktop) (m : Mouse) :
    (update_mouse w d m).relocks [.DESKTOP] = true
      ↔ d.ChoosesPaste m ∧ w.fs_clipboard ≠ [] ∧ w.controller = true ∧ w.home_desktop = true := by
  have hwork : work.relocks [.DESKTOP] = false := rfl
  have hvolume : set_volume.relocks [.DESKTOP] = false := rfl
  unfold update_mouse
  by_cases hprompt : d.dismisses m = true
  · rw [if_pos hprompt, hwork]
    exact ⟨fun h => absurd h Bool.false_ne_true,
      fun h => absurd (h.1.prompt.symm.trans hprompt) Bool.false_ne_true⟩
  rw [if_neg hprompt]
  by_cases hdrag : d.drags m = true
  · rw [if_pos hdrag, hwork]
    exact ⟨fun h => absurd h Bool.false_ne_true,
      fun h => absurd (h.1.still.symm.trans hdrag) Bool.false_ne_true⟩
  rw [if_neg hdrag]
  by_cases hslider : (m.held && d.volume_drag) = true
  · rw [if_pos hslider, hvolume]
    exact ⟨fun h => absurd h Bool.false_ne_true,
      fun h => absurd (h.1.slider.symm.trans hslider) Bool.false_ne_true⟩
  rw [if_neg hslider]
  -- releases and right clicks lock nothing of the desktop's
  have hrelease : (if d.released m then on_release else .skip).relocks [.DESKTOP] = false := by
    split <;> rfl
  have hright : (if d.right_clicked m then on_right_click else .skip).relocks
      [.DESKTOP] = false := by
    split <;> rfl
  simp only [block_relocks, any_cons, any_nil, hrelease, hright, Bool.false_or, Bool.or_false]
  by_cases hclick : d.clicked m = true
  · rw [if_pos hclick, on_left_click_relocks]
    constructor
    · rintro ⟨hkind, hitem, hrest⟩
      refine ⟨⟨?_, ?_, ?_, hclick, hkind, hitem⟩, hrest⟩
      · exact Bool.not_eq_true _ ▸ hprompt
      · exact Bool.not_eq_true _ ▸ hdrag
      · exact Bool.not_eq_true _ ▸ hslider
    · rintro ⟨hchosen, hrest⟩
      exact ⟨hchosen.kind, hchosen.item, hrest⟩
  · rw [if_neg hclick]
    exact ⟨fun h => absurd h Bool.false_ne_true, fun h => absurd h.1.clicked hclick⟩

/-! ## The whole event -/

theorem refresh_desktop_icons_steady (w : World) : (refresh_desktop_icons w).steady = true := by
  unfold refresh_desktop_icons
  split <;> rfl

theorem menu_item_steady (w : World) (kind : MenuKind) (item : Option ℕ) :
    (menu_item w kind item).steady = true := by
  unfold menu_item
  split
  case h_6 =>
    unfold paste
    split
    · rfl
    · simp only [block_steady, all_cons, refresh_desktop_icons_steady]
      rfl
  all_goals rfl

theorem menu_labels_steady (kind : MenuKind) : (menu_labels kind).steady = true := by
  unfold menu_labels
  split <;> rfl

theorem on_left_click_steady (w : World) (d : Desktop) (m : Mouse) :
    (on_left_click w d m).steady = true := by
  unfold on_left_click
  split
  · simp only [block_steady, all_cons, menu_labels_steady, menu_item_steady]
    rfl
  · rfl

theorem update_mouse_steady (w : World) (d : Desktop) (m : Mouse) :
    (update_mouse w d m).steady = true := by
  have hrelease : (if d.released m then on_release else .skip).steady = true := by
    split <;> rfl
  have hright : (if d.right_clicked m then on_right_click else .skip).steady = true := by
    split <;> rfl
  have hleft : (if d.clicked m then on_left_click w (d.right_click m) m else .skip).steady
      = true := by
    split
    · exact on_left_click_steady w _ m
    · rfl
  unfold update_mouse
  split
  · rfl
  split
  · rfl
  split
  · rfl
  simp only [block_steady, all_cons, hrelease, hright, hleft]
  rfl

theorem mouse_section_relocks (w : World) (m : Mouse) : (mouse_section w m).relocks [] = true
    ↔ Pastes w m := by
  have hwork : work.relocks [.DESKTOP] = false := rfl
  simp only [mouse_section, guarded, Code.relocks, block_relocks, any_cons, any_nil,
    not_mem_nil, decide_false, hwork, Bool.false_or, Bool.or_false]
  cases hdesktop : w.desktop with
  | none =>
    constructor
    · exact fun h => absurd h Bool.false_ne_true
    · rintro ⟨⟨d, hd, -⟩, -⟩
      rw [hdesktop] at hd
      cases hd
  | some d =>
    refine (update_mouse_relocks w d m).trans ⟨?_, ?_⟩
    · rintro ⟨hchosen, hclip, hctrl, hhome⟩
      exact ⟨⟨d, hdesktop, hchosen⟩, hclip, hctrl, hhome⟩
    · rintro ⟨⟨d', hd, hchosen⟩, hclip, hctrl, hhome⟩
      obtain rfl : d = d' := Option.some.inj (hdesktop.symm.trans hd)
      exact ⟨hchosen, hclip, hctrl, hhome⟩

theorem mouse_section_steady (w : World) (m : Mouse) : (mouse_section w m).steady = true := by
  unfold mouse_section
  cases w.desktop with
  | none => rfl
  | some d => simp [guarded, Code.steady, block_steady, update_mouse_steady, work, brief]

/-- The parts that refresh the icons later do so with nothing locked. -/
theorem later_parts_relocks (w : World) : (prompt_result w).relocks [] = false
    ∧ (file_drag w).relocks [] = false := by
  obtain ⟨d, clip, controller, home⟩ := w
  cases controller <;> cases home <;> exact ⟨rfl, rfl⟩

theorem later_parts_steady (w : World) : (prompt_result w).steady = true
    ∧ (file_drag w).steady = true := by
  obtain ⟨d, clip, controller, home⟩ := w
  cases controller <;> cases home <;> exact ⟨rfl, rfl⟩

theorem handle_event_steady (w : World) (m : Mouse) : (handle_event w m).steady = true := by
  simp only [handle_event, block_steady, all_cons, mouse_section_steady, later_parts_steady]
  rfl

/-- **The desktop does not lock itself out.** An event never makes `task_blink` ask for a lock that
it holds, unless it pastes. -/
theorem no_relock_iff_not_pastes (w : World) (m : Mouse) :
    ¬ (handle_event w m).Relocks ↔ ¬ Pastes w m := by
  rw [not_iff_not, Code.relocks_iff _ (handle_event_steady w m), ← mouse_section_relocks]
  -- the parts that do not look at the state
  have hrest : ∀ c ∈ [on_desktop, guarded .MOUSE [], maybe spawn_terminal, text_selection,
    clipboard_action, open_settings,
      new_window, open_fs_entry, sync_focus, scrollbar, marquee, files_click, resolve_context_menu,
        settings_window],
      c.relocks [] = false := by
    intro c hc
    fin_cases hc <;> rfl
  simp only [forall_mem_cons, not_mem_nil] at hrest
  simp only [handle_event, block_relocks, any_cons, any_nil, later_parts_relocks, hrest,
    Bool.false_or, Bool.or_false]

/-- A desktop with the menu of a file manager open at (100, 100), and one copied entry. -/
def pasting : World where
  desktop := some {
    prev_btn := 0, text_prompt := none, focused := none, icon_dragging := false,
    marquee_start := false, volume_drag := false,
    context_menu := some (100, 100), context_menu_kind := .FsPane, fb_w := 1280, fb_h := 720,
    right_target := fun _ _ => .files }
  fs_clipboard := [5]
  controller := true
  home_desktop := true

/-- A click on "Paste" there. -/
theorem paste_locks_desktop_again : (handle_event pasting ⟨110, 110, 1⟩).Relocks :=
  (Code.relocks_iff _ (handle_event_steady _ _)).mpr (by decide +kernel)

end HepOS.Locks.Event
