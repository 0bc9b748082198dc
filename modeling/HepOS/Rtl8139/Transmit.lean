/-
Sending a frame: `Rtl8139::send` (`rtl8139.rs`) and the loop of `rtl8139d`.

The kernel puts a frame into `tx_buf` of the mailbox and then its length into `tx_len`; the
driver copies it into one of four DMA slots, tells the NIC address and length, and clears
`tx_len`. Both sides copy byte by byte and can be stopped between any two bytes, so a byte is
a step of its own here. `send` is called with the NIC locked: there is one at a time.

`send` waits until `tx_len` is 0, but only for 1000000 rounds. Then it copies its frame into
`tx_buf` whatever is there: over a frame the driver has not looked at, or under the hands of
a driver that is copying it. When no wait is cut short this way, what the NIC is handed is what
was sent, in order.

`sent` and `handed` record the frames that were passed to `send` and to the NIC, for the
statements only. The NIC takes a frame from the slot when its length is stored in `TXSTAT`.
-/
import HepOS.Lib.Bytes
import HepOS.Lib.Trace

set_option autoImplicit false

namespace HepOS.Rtl8139

open Bytes Trace List Option

/-! ## The two programs -/

def TX_SLOTS : ℕ := 4

def TX_SLOT_STRIDE : ℕ := 4096

/-- The rounds of the wait for `tx_len`, and of the wait for a slot. -/
def SPINS : ℕ := 1000000

/-- Where the kernel is in `send`. -/
inductive Kernel
  | idle
  /-- in the loop on `tx_len`, with `k` rounds left -/
  | waiting (frame : List UInt8) (k : ℕ)
  /-- `i` bytes are in `tx_buf`; after the last one `tx_len` is stored -/
  | copying (frame : List UInt8) (i : ℕ)
deriving DecidableEq, Repr

/-- Where the driver is in its loop, with the length it has read. -/
inductive Driver
  | top
  | look
  /-- waiting for the slot, with `k` rounds left -/
  | own (len k : ℕ)
  | copying (len i : ℕ)
  | address (len : ℕ)
  | status (len : ℕ)
  | clear
  /-- receiving, and waiting for the timer -/
  | rest
  | exited
deriving DecidableEq, Repr

structure State where
  tx_len : ℕ
  tx_buf : Mem 1792
  stop : Bool
  kernel : Kernel
  driver : Driver
  /-- the driver's count of frames -/
  tx_slot : UInt64
  /-- the four slots, from `tx_phys` on -/
  slots : Mem 16384
  /-- the `TXADDR` registers, relative to `tx_phys` -/
  txaddr : ℕ → ℕ
  sent : List (List UInt8)
  handed : List (List UInt8)

/-- After `init`: the mailbox is zero and no driver runs yet. -/
def State.start : State where
  tx_len := 0
  tx_buf := Mem.zero
  stop := false
  kernel := .idle
  driver := .exited
  tx_slot := 0
  slots := Mem.zero
  txaddr := fun _ => 0
  sent := []
  handed := []

section

variable (s : State)

def State.slot : ℕ := s.tx_slot.toNat % TX_SLOTS

/-- Where the slot of the next frame begins. -/
def State.slot_off : ℕ := s.slot * TX_SLOT_STRIDE

/-- `send`: frames that are empty or too long are turned away. -/
def send (data : List UInt8) : Option State :=
  match s.kernel with
  | .idle =>
    if 1792 < data.length ∨ data = [] then some s
    else some { s with kernel := .waiting data SPINS, sent := s.sent ++ [data] }
  | _ => none

/-- The next access of `send`. -/
def kernel_step : Option State :=
  match s.kernel with
  | .idle => none
  | .waiting frame (k + 1) =>
    some { s with kernel := if s.tx_len = 0 then .copying frame 0 else .waiting frame k }
  -- the rounds are used up
  | .waiting frame 0 => some { s with kernel := .copying frame 0 }
  | .copying frame i =>
    match frame[i]? with
    | some b => some { s with tx_buf := s.tx_buf.write i [b], kernel := .copying frame (i + 1) }
    | none => some { s with tx_len := frame.length, kernel := .idle }

/-- What the NIC reads when the length of a slot is stored. -/
def State.frame_at (len : ℕ) : List UInt8 :=
  s.slots.read (s.txaddr s.slot) (len % 8192)

/-- The next access of the driver. -/
def driver_step : Option State :=
  match s.driver with
  | .top => some { s with driver := if s.stop then .exited else .look }
  | .look => some { s with driver := if s.tx_len = 0 then .rest else .own s.tx_len SPINS }
  -- what it reads there is up to the NIC
  | .own _ (_ + 1) => none
  | .own len 0 => some { s with driver := .copying len 0 }
  | .copying len i =>
    if i < len then
      some { s with
        slots := s.slots.write (s.slot_off + i) [s.tx_buf.byte i], driver := .copying len (i + 1) }
    else some { s with driver := .address len }
  | .address len =>
    some { s with txaddr := Function.update s.txaddr s.slot s.slot_off, driver := .status len }
  | .status len =>
    some { s with
      handed := s.handed ++ [s.frame_at len], tx_slot := s.tx_slot + 1, driver := .clear }
  | .clear => some { s with tx_len := 0, driver := .rest }
  | .rest => some { s with driver := .top }
  | .exited => none

/-- The driver reads `TXSTAT` of its slot. -/
def own_step (own : Bool) : Option State :=
  match s.driver with
  | .own len (k + 1) => some { s with driver := if own then .copying len 0 else .own len k }
  | _ => none

/-- A new driver process, when there is none. -/
def start_step : Option State :=
  match s.driver with
  | .exited => some { s with driver := .top, tx_slot := 0 }
  | _ => none

inductive Label
  | send (data : List UInt8)
  | kernel
  | driver
  | own (own : Bool)
  /-- `start_service` and `stop_service` on another task -/
  | store_stop (v : Bool)
  | start
deriving DecidableEq, Repr

def next : Label → Option State
  | .send data => send s data
  | .kernel => kernel_step s
  | .driver => driver_step s
  | .own own => own_step s own
  | .store_stop v => some { s with stop := v }
  | .start => start_step s

def Next (a : Label) (t : State) : Prop := next s a = some t

/-! ## What is wanted -/

/-- The frames the NIC was handed are frames that were sent, each at most once and in the order
they were sent; and `send` writes to `tx_buf` only when no frame is waiting there. -/
structure Faithful : Prop where
  order : s.handed.Sublist s.sent
  kept : ∀ frame i, s.kernel = .copying frame i → s.tx_len = 0

/-- The wait is over without `tx_len` having been seen at 0. -/
def Kernel.spent : Kernel → Bool
  | .waiting _ 0 => true
  | _ => false

/-- The condition on a step: it does not go on after a wait that has run out of rounds. -/
def OnTime (a : Label) : Prop := a = .kernel → s.kernel.spent = false

instance (a : Label) : Decidable (OnTime s a) := inferInstanceAs (Decidable (_ → _))

def NextOnTime (a : Label) (t : State) : Prop := Next s a t ∧ OnTime s a

/-! ## The invariant -/

/-- The frame a call of `send` has not stored the length of yet. -/
def Kernel.frames : Kernel → List (List UInt8)
  | .idle => []
  | .waiting frame _ => [frame]
  | .copying frame _ => [frame]

/-- The frame in the mailbox, unless the NIC has it already. -/
def State.published : List (List UInt8) :=
  if s.tx_len ≠ 0 ∧ s.driver ≠ .clear then [s.tx_buf.read 0 s.tx_len] else []

/-- The copy of the kernel: it writes while nothing is published, and what it has written is
the beginning of its frame. -/
def State.KernelGood : Prop :=
  match s.kernel with
  | .idle => True
  | .waiting frame _ => frame ≠ [] ∧ frame.length ≤ 1792
  | .copying frame i => (frame ≠ [] ∧ frame.length ≤ 1792)
      ∧ s.tx_len = 0 ∧ i ≤ frame.length ∧ s.tx_buf.read 0 i = frame.take i

/-- The copy of the driver: the frame it has read the length of stays in `tx_buf` until it has
cleared `tx_len`. -/
def State.DriverGood : Prop :=
  match s.driver with
  | .own len _ => s.tx_len = len ∧ len ≠ 0
  | .copying len i => (s.tx_len = len ∧ len ≠ 0) ∧ i ≤ len
      ∧ s.slots.read s.slot_off i = s.tx_buf.read 0 i
  | .address len => (s.tx_len = len ∧ len ≠ 0) ∧ s.slots.read s.slot_off len = s.tx_buf.read 0 len
  | .status len => (s.tx_len = len ∧ len ≠ 0) ∧ s.slots.read s.slot_off len = s.tx_buf.read 0 len
      ∧ s.txaddr s.slot = s.slot_off
  | .clear => s.tx_len ≠ 0
  | .top | .look | .rest | .exited => True

structure Inv : Prop where
  /-- what was sent is what the NIC has, what the mailbox has and what `send` has -/
  sent : s.sent = s.handed ++ (s.published ++ s.kernel.frames)
  len : s.tx_len ≤ 1792
  kernel : s.KernelGood
  driver : s.DriverGood

end

theorem Inv.faithful {s : State} (h : Inv s) : Faithful s := by
  refine ⟨?_, ?_⟩
  · rw [h.sent]
    exact sublist_append_left _ _
  · intro frame i hk
    have hgood := h.kernel
    unfold State.KernelGood at hgood
    rw [hk] at hgood
    exact hgood.2.1

theorem inv_start : Inv State.start := ⟨rfl, Nat.zero_le _, trivial, trivial⟩

section

variable {s t : State}

/-- Without a published frame the driver is not at work on one, so the mailbox can change. -/
theorem State.DriverGood.of_zero (h : s.DriverGood) (h0 : s.tx_len = 0) (hd : t.driver = s.driver) :
    t.DriverGood ∧ s.driver ≠ .clear := by
  unfold State.DriverGood at h ⊢
  rw [hd]
  cases hs : s.driver with (rw [hs] at h)
  | own len k =>
    exact absurd (h.1.symm.trans h0) h.2
  | copying len i | address len | status len =>
    exact absurd (h.1.1.symm.trans h0) h.1.2
  | clear =>
    exact absurd h0 h
  | top | look | rest | exited => exact ⟨trivial, by simp⟩

theorem State.published_of_zero (h0 : s.tx_len = 0) : s.published = [] := by
  unfold State.published
  rw [if_neg]
  exact fun h => h.1 h0

theorem State.published_of_ne (h : s.tx_len ≠ 0) (hd : s.driver ≠ .clear) :
    s.published = [s.tx_buf.read 0 s.tx_len] := by
  unfold State.published
  rw [if_pos ⟨h, hd⟩]

section

variable (h : Inv s)

include h

theorem Inv.send {data : List UInt8} (hstep : Rtl8139.send s data = some t) : Inv t := by
  obtain ⟨hsent, hlen, hk, hd⟩ := h
  unfold Rtl8139.send at hstep
  cases hkernel : s.kernel with
  | idle =>
    rw [hkernel] at hstep
    split_ifs at hstep with hbad
    · cases hstep
      exact ⟨hsent, hlen, hk, hd⟩
    · cases hstep
      refine ⟨?_, hlen, ⟨fun hnil => hbad (.inr hnil), by omega⟩, hd⟩
      rw [hkernel] at hsent
      rw [hsent, append_assoc, append_assoc]
      rfl
  | waiting frame k | copying frame i =>
    rw [hkernel] at hstep
    simp at hstep

theorem Inv.kernel_step (hstep : Rtl8139.kernel_step s = some t)
    (hok : OnTime s .kernel) : Inv t := by
  obtain ⟨hsent, hlen, hk, hd⟩ := h
  unfold Rtl8139.kernel_step at hstep
  unfold State.KernelGood at hk
  cases hkernel : s.kernel with
  | idle =>
    rw [hkernel] at hstep
    simp at hstep
  | waiting frame k =>
    rw [hkernel] at hstep hk hsent
    cases k with
    -- a wait that runs out is not on time
    | zero =>
      have hspent := hok rfl
      rw [hkernel] at hspent
      exact absurd hspent (by simp [Kernel.spent])
    | succ k =>
      cases hstep
      split_ifs with h0
      · exact ⟨hsent, hlen, ⟨hk, h0, Nat.zero_le _, rfl⟩, hd⟩
      · exact ⟨hsent, hlen, hk, hd⟩
  | copying frame i =>
    rw [hkernel] at hstep hk hsent
    obtain ⟨⟨hne, hfits⟩, h0, hi, hread⟩ := hk
    rw [State.published_of_zero h0] at hsent
    dsimp only at hstep
    cases hb : frame[i]? with
    | some b =>
      rw [hb] at hstep
      cases hstep
      obtain ⟨hlt, hget⟩ := List.getElem?_eq_some_iff.mp hb
      refine ⟨?_, hlen, ⟨⟨hne, hfits⟩, h0, hlt, ?_⟩, ?_⟩
      · rw [State.published_of_zero (by exact h0)]
        exact hsent
      · have hnext := Mem.read_write_next s.tx_buf 0 i b (by omega)
        rw [Nat.zero_add] at hnext
        rw [hnext, hread, take_succ_eq_append_getElem hlt, hget]
      · refine (hd.of_zero h0 ?_).1
        rfl
    -- the length is stored last: it publishes the frame
    | none =>
      rw [hb] at hstep
      cases hstep
      obtain rfl : i = frame.length := by
        have := List.getElem?_eq_none_iff.mp hb
        omega
      have hnew := hd.of_zero h0 (t := { s with tx_len := frame.length, kernel := .idle }) rfl
      refine ⟨?_, hfits, trivial, hnew.1⟩
      rw [State.published_of_ne (by simpa using hne) (by exact hnew.2)]
      rw [hsent, hread, take_length]
      rfl

/-- A step of the driver that leaves the mailbox alone and hands over nothing. -/
theorem Inv.driver_moves (htx : t.tx_len = s.tx_len) (hbuf : t.tx_buf = s.tx_buf)
    (hkernel : t.kernel = s.kernel) (hsent : t.sent = s.sent) (hhanded : t.handed = s.handed)
    (hclear : t.driver = .clear ↔ s.driver = .clear) (hgood : t.DriverGood) : Inv t := by
  obtain ⟨hs, hlen, hk, -⟩ := h
  have hpub : t.published = s.published := by
    unfold State.published
    rw [htx, hbuf]
    exact if_congr (and_congr_right fun _ => not_congr hclear) rfl rfl
  refine ⟨?_, by rw [htx]; exact hlen, ?_, hgood⟩
  · rw [hsent, hhanded, hpub, hkernel]
    exact hs
  · unfold State.KernelGood
    rw [hkernel, htx, hbuf]
    exact hk

theorem Inv.driver_step (hstep : Rtl8139.driver_step s = some t) : Inv t := by
  have hd := h.driver
  have hlen := h.len
  unfold State.DriverGood at hd
  unfold Rtl8139.driver_step at hstep
  cases hdriver : s.driver with (rw [hdriver] at hstep hd)
  | top =>
    cases hstep
    split_ifs with hstop
    all_goals exact h.driver_moves rfl rfl rfl rfl rfl (by simp [hdriver]) trivial
  | look =>
    cases hstep
    split_ifs with h0
    · exact h.driver_moves rfl rfl rfl rfl rfl (by simp [hdriver]) trivial
    · exact h.driver_moves rfl rfl rfl rfl rfl (by simp [hdriver]) ⟨rfl, h0⟩
  | own len k =>
    cases k with
    | zero =>
      cases hstep
      exact h.driver_moves rfl rfl rfl rfl rfl (by simp [hdriver]) ⟨hd, Nat.zero_le _, rfl⟩
    | succ k => simp at hstep
  | copying len i =>
    obtain ⟨hlook, hi, hread⟩ := hd
    dsimp only at hstep
    split_ifs at hstep with hlt
    · cases hstep
      refine h.driver_moves rfl rfl rfl rfl rfl (by simp [hdriver]) ⟨hlook, hlt, ?_⟩
      have hslot : s.slot < 4 := Nat.mod_lt _ (by decide)
      show (s.slots.write (s.slot_off + i) [s.tx_buf.byte i]).read s.slot_off (i + 1) = _
      rw [Mem.read_write_next _ _ _ _ (by unfold State.slot_off TX_SLOT_STRIDE; omega), hread,
        Mem.read_succ, Nat.zero_add]
    · cases hstep
      obtain rfl : i = len := by omega
      exact h.driver_moves rfl rfl rfl rfl rfl (by simp [hdriver]) ⟨hlook, hread⟩
  | address len =>
    cases hstep
    refine h.driver_moves rfl rfl rfl rfl rfl (by simp [hdriver]) ⟨hd.1, hd.2, ?_⟩
    exact Function.update_self _ _ _
  | status len =>
    obtain ⟨⟨htx, hne⟩, hread, haddr⟩ := hd
    cases hstep
    obtain ⟨hs, -, hk, -⟩ := h
    -- the NIC gets the frame that was in the mailbox
    have hframe : s.frame_at len = s.tx_buf.read 0 len := by
      unfold State.frame_at
      rw [haddr, Nat.mod_eq_of_lt (by omega), hread]
    refine ⟨?_, hlen, hk, by exact fun h0 => hne (htx.symm.trans h0)⟩
    rw [State.published_of_ne (by rw [htx]; exact hne) (by rw [hdriver]; simp), htx] at hs
    rw [hs, hframe, State.published, if_neg (by simp), append_assoc]
    rfl
  | clear =>
    cases hstep
    obtain ⟨hs, -, hk, -⟩ := h
    have hpub : s.published = [] := by
      unfold State.published
      rw [if_neg (by simp [hdriver])]
    refine ⟨?_, Nat.zero_le _, ?_, trivial⟩
    · rw [hpub] at hs
      exact hs
    · unfold State.KernelGood at hk ⊢
      cases hkernel : s.kernel with (rw [hkernel] at hk)
      | idle => trivial
      | waiting frame k => exact hk
      | copying frame i => exact absurd hk.2.1 hd
  | rest =>
    cases hstep
    exact h.driver_moves rfl rfl rfl rfl rfl (by simp [hdriver]) trivial
  | exited => simp at hstep

theorem Inv.own_step {own : Bool} (hstep : Rtl8139.own_step s own = some t) : Inv t := by
  have hd := h.driver
  unfold State.DriverGood at hd
  unfold Rtl8139.own_step at hstep
  split at hstep
  case h_1 len k hdriver =>
    rw [hdriver] at hd
    cases hstep
    split_ifs with hown
    · exact h.driver_moves rfl rfl rfl rfl rfl (by simp [hdriver]) ⟨hd, Nat.zero_le _, rfl⟩
    · exact h.driver_moves rfl rfl rfl rfl rfl (by simp [hdriver]) hd
  case h_2 => simp at hstep

theorem Inv.start_step (hstep : Rtl8139.start_step s = some t) : Inv t := by
  unfold Rtl8139.start_step at hstep
  split at hstep
  case h_1 hdriver =>
    cases hstep
    exact h.driver_moves rfl rfl rfl rfl rfl (by simp [hdriver]) trivial
  case h_2 => simp at hstep

/-- **One step** that is on time keeps the invariant. -/
theorem Inv.step {a : Label} (hstep : NextOnTime s a t) : Inv t := by
  obtain ⟨hnext, hok⟩ := hstep
  cases a with
  | send data => exact h.send hnext
  | kernel => exact h.kernel_step hnext hok
  | driver => exact h.driver_step hnext
  | own own => exact h.own_step hnext
  | store_stop v =>
    cases hnext
    exact ⟨h.sent, h.len, h.kernel, h.driver⟩
  | start => exact h.start_step hnext

end

end

/-- **The transmit mailbox.** In every run in which no wait for `tx_len` runs out of rounds, the NIC
is handed frames that were sent, in order and once, and no published frame is written over. -/
theorem faithful_of_on_time {s : State} {l : List Label} (h : Steps NextOnTime State.start l s) :
    Faithful s :=
  (h.keeps inv_start fun _ _ _ hv hstep => hv.step hstep).faithful

/-- Two frames, one after the other, through a driver that keeps up. -/
def two_frames : List Label :=
  [.start, .send [1, 2], .kernel, .kernel, .kernel, .kernel, .driver, .driver, .own true, .driver,
    .driver, .driver, .driver, .driver, .driver, .driver, .send [3], .kernel, .kernel, .kernel,
    .driver, .driver, .own true, .driver, .driver, .driver, .driver]

theorem faithful_of_on_time_two : ∃ s, Steps NextOnTime State.start two_frames s
    ∧ s.handed = [[1, 2], [3]] ∧ Faithful s := by
  have hrun : (run (fun s a => if OnTime s a then next s a else none) State.start two_frames).map
      State.handed = some [[1, 2], [3]] := by decide +kernel
  obtain ⟨s, hs, hhanded⟩ := map_eq_some_iff.mp hrun
  have h : Steps NextOnTime State.start two_frames s := .of_run_if _ hs
  exact ⟨s, h, hhanded, faithful_of_on_time h⟩

/-- A wait with nobody to clear `tx_len` uses up its rounds. -/
theorem steps_waiting {s : State} (h : s.tx_len ≠ 0) (frame : List UInt8) (k : ℕ) :
    Steps Next { s with kernel := .waiting frame k } (List.replicate k .kernel)
      { s with kernel := .waiting frame 0 } := by
  refine Steps.countdown (f := fun k => { s with kernel := .waiting frame k }) ?_ k
  intro k
  show some _ = some _
  rw [if_neg h]

/-- The second of two calls of `send`, while the driver copies the first frame. -/
def second_send : List Label :=
  [.start, .send [1, 1], .kernel, .kernel, .kernel, .kernel, .driver, .driver, .own true, .driver,
    .send [2, 2]]

@[irreducible] def send_while_copying : State := (run next State.start second_send).getD State.start

/-- **A wait that runs out of rounds** tears a frame: the NIC is handed one byte of each. -/
theorem send_tears_frame : ∃ l s, Steps Next State.start l s ∧ s.sent = [[1, 1], [2, 2]]
    ∧ s.handed = [[1, 2]] ∧ ¬ Faithful s := by
  have hrun1 : (run next State.start second_send).isSome = true := by decide +kernel
  obtain ⟨s1, hs1⟩ := isSome_iff_exists.mp hrun1
  have hsame : send_while_copying = s1 := by
    unfold send_while_copying
    rw [hs1]
    rfl
  have h1 : Steps Next State.start second_send s1 := .of_run _ hs1
  rw [← hsame] at h1
  -- a million rounds of the wait, in which the driver does not get to run
  have hkernel : send_while_copying.kernel = .waiting [2, 2] SPINS := by decide +kernel
  have hlen : send_while_copying.tx_len ≠ 0 := by decide +kernel
  have h2 := steps_waiting hlen [2, 2] SPINS
  rw [← hkernel] at h2
  have hrun3 : (run next { send_while_copying with kernel := .waiting [2, 2] 0 }
      [.kernel, .kernel, .kernel, .driver, .driver, .driver, .driver]).map
        (fun s => (s.sent, s.handed)) = some ([[1, 1], [2, 2]], [[1, 2]]) := by decide +kernel
  obtain ⟨s3, hs3, hframes⟩ := map_eq_some_iff.mp hrun3
  obtain ⟨hsent, hhanded⟩ := Prod.mk.inj hframes
  refine ⟨_, s3, (h1.append h2).append (.of_run _ hs3), hsent, hhanded, ?_⟩
  rintro ⟨horder, -⟩
  rw [hsent, hhanded] at horder
  exact absurd horder (by decide)

end HepOS.Rtl8139
