/-
Handing frames to `gopd`: `request_flush` (`framebuffer.rs`) and the loop of `gopd`.

The kernel copies the rows that have changed into a publish buffer, stores which rows they are and
where the pointer is, and then counts `req` up. `gopd` waits for a new `req`, copies the rows into
the framebuffer, draws the pointer and stores that `req` in `ack`. The kernel begins only when `ack`
and `req` are equal and drops the flush otherwise, so the two never use the buffer at the same time
although there is no lock: between the two stores it belongs to `gopd`, at all other times to the
kernel.

Both copy pixel by pixel and read or write the fields of the mailbox one by one, and each of these
is a step of its own here. `request_flush` is called with the display locked. The pixels and the
pointer of a call belong to its caller, who does not change them while it lasts; `Flush` holds them
as they are then. `accepted` and `shown` record which flushes were published and what `gopd` copied,
for the statements only.
-/
import HepOS.Display.Cursor
import HepOS.Lib.Trace

set_option autoImplicit false

namespace HepOS.Display

open Trace

/-! ## The mailbox -/

/-- A call of `request_flush` with rows in it. -/
structure Flush where
  y0 : ℕ
  y1 : ℕ
  pixels : Pixels
  cursor : Cursor

/-- The fields of `GopMailbox` that change. -/
structure Mailbox where
  dirty_y : UInt32
  dirty_count : UInt32
  cursor : Cursor
  req : UInt32
  ack : UInt32
  stop : Bool

/-- The fields the kernel stores before `req`. -/
inductive Field
  | dirty_y | dirty_count | cursor_x | cursor_y | cursor_kind
deriving DecidableEq, Repr

def Field.next : Field → Option Field
  | .dirty_y => some .dirty_count
  | .dirty_count => some .cursor_x
  | .cursor_x => some .cursor_y
  | .cursor_y => some .cursor_kind
  | .cursor_kind => none

def Mailbox.store (mb : Mailbox) (f : Flush) : Field → Mailbox
  | .dirty_y => { mb with dirty_y := UInt32.ofNat f.y0 }
  | .dirty_count => { mb with dirty_count := UInt32.ofNat (f.y1 - f.y0) }
  | .cursor_x => { mb with cursor := { mb.cursor with x := f.cursor.x } }
  | .cursor_y => { mb with cursor := { mb.cursor with y := f.cursor.y } }
  | .cursor_kind => { mb with cursor := { mb.cursor with kind := f.cursor.kind } }

/-! ## The two programs -/

/-- Where the kernel is in `request_flush`. -/
inductive Kernel
  | idle
  | read_ack (f : Flush)
  | read_req (f : Flush) (ack : UInt32)
  /-- `i` pixels are in the publish buffer -/
  | copying (f : Flush) (req : UInt32) (i : ℕ)
  | storing (f : Flush) (req : UInt32) (field : Field)
  | store_req (f : Flush) (req : UInt32)

/-- What `gopd` has read of a request: the rows, their pixels and the pointer. -/
structure Copy where
  y0 : ℕ
  y1 : ℕ
  pixels : List UInt32
  cursor : Cursor

/-- Where `gopd` is in its loop, with the `req` it serves. -/
inductive Gopd
  | starting
  | top
  | look
  | read_y (req : UInt32)
  | read_count (req : UInt32) (y0 : ℕ)
  | copying (req : UInt32) (c : Copy)
  | read_x (req : UInt32) (c : Copy)
  | read_cy (req : UInt32) (c : Copy)
  | read_kind (req : UInt32) (c : Copy)
  | draw (req : UInt32) (c : Copy)
  | post (req : UInt32) (c : Copy)
  /-- waiting for the timer -/
  | rest
  | exited

structure State where
  mb : Mailbox
  publish : Pixels
  fb : Pixels
  kernel : Kernel
  gopd : Gopd
  last_req : UInt32
  accepted : List Flush
  shown : List Copy

/-- After `spawn_gopd`: the mailbox and the publish buffer are zero, and `gopd` is launched. -/
def State.start (fb : Pixels) : State where
  mb := ⟨0, 0, ⟨0, 0, 0⟩, 0, 0, false⟩
  publish := fun _ => 0
  fb := fb
  kernel := .idle
  gopd := .starting
  last_req := 0
  accepted := []
  shown := []

section

variable (scr : Screen) (s : State)

/-- `request_flush`, called with these pixels in `backbuf` and this pointer. -/
def request_flush (y count : ℕ) (pixels : Pixels) (cursor : Cursor) :
    Option State :=
  match s.kernel with
  | .idle =>
    let y0 := min y scr.height
    let y1 := min (y + count) scr.height
    if y1 ≤ y0 then some s else some { s with kernel := .read_ack ⟨y0, y1, pixels, cursor⟩ }
  | _ => none

/-- The number of pixels of a flush. -/
def Flush.size (f : Flush) : ℕ := (f.y1 - f.y0) * scr.width

/-- The next access of `request_flush`. -/
def kernel_step : Option State :=
  match s.kernel with
  | .idle => none
  | .read_ack f => some { s with kernel := .read_req f s.mb.ack }
  | .read_req f ack =>
    -- `gopd` still catching up: the flush is dropped
    some { s with kernel := if ack = s.mb.req then .copying f s.mb.req 0 else .idle }
  | .copying f req i =>
    if i < f.size scr then
      some { s with
        publish := Function.update s.publish (f.y0 * scr.width + i)
          (f.pixels (f.y0 * scr.width + i))
        kernel := .copying f req (i + 1) }
    else some { s with kernel := .storing f req .dirty_y }
  | .storing f req field =>
    some { s with
      mb := s.mb.store f field
      kernel := match field.next with
        | some field => .storing f req field
        | none => .store_req f req }
  | .store_req f req =>
    some { s with
      mb := { s.mb with req := req + 1 }, kernel := .idle, accepted := s.accepted ++ [f] }

/-- The next pixel of a copy. -/
def copy_pixel (req : UInt32) (c : Copy) : State :=
  let i := c.pixels.length
  let p := s.publish (c.y0 * scr.width + i)
  { s with
    fb := Function.update s.fb ((c.y0 + i / scr.width) * scr.pitch + i % scr.width) p
    gopd := .copying req { c with pixels := c.pixels ++ [p] } }

/-- The next access of `gopd`. -/
def gopd_step : Option State :=
  match s.gopd with
  | .starting => some { s with gopd := .top }
  | .top => some { s with gopd := if s.mb.stop then .exited else .look }
  | .look =>
    if s.mb.req ≠ s.last_req then some { s with last_req := s.mb.req, gopd := .read_y s.mb.req }
    else some { s with gopd := .rest }
  | .read_y req => some { s with gopd := .read_count req (min s.mb.dirty_y.toNat scr.height) }
  | .read_count req y0 =>
    some { s with
      gopd := .copying req ⟨y0, min (y0 + s.mb.dirty_count.toNat) scr.height, [], ⟨0, 0, 0⟩⟩ }
  | .copying req c =>
    if c.pixels.length < (c.y1 - c.y0) * scr.width then some (copy_pixel scr s req c)
    else some { s with gopd := .read_x req c }
  | .read_x req c =>
    some { s with gopd := .read_cy req { c with cursor := { c.cursor with x := s.mb.cursor.x } } }
  | .read_cy req c =>
    some { s with gopd := .read_kind req { c with cursor := { c.cursor with y := s.mb.cursor.y } } }
  | .read_kind req c =>
    some { s with
      gopd := .draw req { c with cursor := { c.cursor with kind := s.mb.cursor.kind } } }
  | .draw req c => some { s with fb := draw_cursor scr s.fb c.cursor, gopd := .post req c }
  | .post req c =>
    some { s with mb := { s.mb with ack := req }, gopd := .rest, shown := s.shown ++ [c] }
  | .rest => some { s with gopd := .top }
  | .exited => none

inductive Label
  | flush (y count : ℕ) (pixels : Pixels) (cursor : Cursor)
  | kernel
  | gopd
  /-- `stop_service` on another task -/
  | store_stop (v : Bool)

def next : Label → Option State
  | .flush y count pixels cursor => request_flush scr s y count pixels cursor
  | .kernel => kernel_step scr s
  | .gopd => gopd_step scr s
  | .store_stop v => some { s with mb := { s.mb with stop := v } }

def Next (a : Label) (t : State) : Prop := next scr s a = some t

/-! ## What is wanted -/

/-- The kernel writes to the publish buffer or to the fields of a request. -/
def Kernel.writing : Kernel → Bool
  | .copying _ _ _ | .storing _ _ _ | .store_req _ _ => true
  | _ => false

/-- `gopd` reads them. -/
def Gopd.reading : Gopd → Bool
  | .starting | .top | .look | .rest | .exited => false
  | _ => true

/-- The rows of a flush, and the copy that shows it. -/
def Flush.rows (f : Flush) : List UInt32 :=
  (List.range (f.size scr)).map fun i => f.pixels (f.y0 * scr.width + i)

def Flush.copy (f : Flush) : Copy := ⟨f.y0, f.y1, f.rows scr, f.cursor⟩

/-- Writing and reading never overlap, every copy is one published flush as a whole, in order,
and at most one request is open. -/
structure TearFree : Prop where
  apart : s.kernel.writing = true → s.gopd.reading = false
  whole : s.shown <+: s.accepted.map (Flush.copy scr)
  behind : s.mb.req = s.mb.ack ∨ s.mb.req = s.mb.ack + 1

end

end HepOS.Display
