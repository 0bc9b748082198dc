/-
The four transmit descriptors of the RTL8139.

The NIC serves them in turn, from the first one after a reset, and only when it is the turn of a
descriptor does its frame leave. `rtl8139d` fills them in turn too and keeps its position in
`tx_slot`, which begins at 0 in every new process, while the NIC goes on from where it was.

The wait for the `OWN` bit ends after 1000000 rounds, and the slot is then filled though the NIC has
not come to it. So a run is good when every driver starts after a whole number of rounds of four,
and no wait ends that way.
-/
import HepOS.Lib.Ring
import HepOS.Rtl8139.Transmit

set_option autoImplicit false

namespace HepOS.Rtl8139

open Rings Trace Function List Option

/-! ## The NIC -/

structure Nic where
  /-- how many frames it has served; the next descriptor is this one modulo 4 -/
  pos : ℕ
  /-- the frames of the descriptors it does not own -/
  desc : ℕ → Option (List UInt8)
  out : List (List UInt8)

def Nic.reset : Nic := ⟨0, fun _ => none, []⟩

def Nic.serve (n : Nic) : Option Nic :=
  (n.desc (n.pos % TX_SLOTS)).map fun frame =>
    ⟨n.pos + 1, update n.desc (n.pos % TX_SLOTS) none, n.out ++ [frame]⟩

/-- The frame that the step hands to the NIC: the driver stores the length of a slot. -/
def State.hands (s : State) : Label → Option (List UInt8)
  | .driver =>
    match s.driver with
    | .status len => some (s.frame_at len)
    | _ => none
  | _ => none

/-- The kernel, the driver and the NIC; the NIC serves a descriptor in the steps without a label. -/
def next_with (c : State × Nic) : Option Label → Option (State × Nic)
  | none => c.2.serve.map fun n => (c.1, n)
  | some a =>
    -- `OWN` is set when the NIC is done with the descriptor
    if (∃ own, a = .own own ∧ own ≠ (c.2.desc c.1.slot).isNone) then none
    else (next c.1 a).map fun t =>
      (t, match c.1.hands a with
        | some frame => { c.2 with desc := update c.2.desc c.1.slot (some frame) }
        | none => c.2)

/-! ## Agreement -/

/-- Frame number `k` is in descriptor `k % 4` until it is its turn; those before it have left, in
the order they were taken, and the next one goes to the descriptor after the last. -/
structure Agrees (s : State) (n : Nic) : Prop where
  out : n.out = s.handed.take n.pos
  queued : ∀ k, n.pos ≤ k → k < n.pos + TX_SLOTS → n.desc (k % TX_SLOTS) = s.handed[k]?
  room : n.pos ≤ s.handed.length ∧ s.handed.length ≤ n.pos + TX_SLOTS
  slot : s.driver ≠ .exited → s.slot = s.handed.length % TX_SLOTS

/-- The wait for the slot is over without `OWN` having been seen. -/
def Driver.spent : Driver → Bool
  | .own _ 0 => true
  | _ => false

/-- The condition on a step. -/
def InTurn (c : State × Nic) (a : Option Label) : Prop :=
  (a = some .start → c.1.handed.length % TX_SLOTS = 0)
    ∧ (a = some .driver → c.1.driver.spent = true → c.2.desc c.1.slot = none)

instance (c : State × Nic) (a : Option Label) : Decidable (InTurn c a) :=
  inferInstanceAs (Decidable (_ ∧ _))

def NextInTurn (c : State × Nic) (a : Option Label) (d : State × Nic) : Prop :=
  next_with c a = some d ∧ InTurn c a

/-! ## One step -/

/-- The driver has made sure of its slot and has not stored the length yet. -/
def Driver.fills : Driver → Bool
  | .copying _ _ | .address _ | .status _ => true
  | _ => false

/-- What a step other than the start of a driver does to the driver's position. -/
structure Moves (s : State) (a : Label) (t : State) : Prop where
  handed : t.handed = s.handed ++ (s.hands a).toList
  slot : t.slot = (s.slot + (s.hands a).toList.length) % TX_SLOTS
  alive : t.driver ≠ .exited → s.driver ≠ .exited
  fills : t.driver.fills = true →
    s.driver.fills = true ∨ (s.driver.spent = true ∧ a = .driver) ∨ a = .own true
  full : s.hands a ≠ none → s.driver.fills = true ∧ s.driver ≠ .exited ∧ t.driver.fills = false

section

variable {s t : State} {n : Nic} {a : Label}

theorem Moves.of_same (hhands : s.hands a = none) (hhanded : t.handed = s.handed)
    (hslot : t.tx_slot = s.tx_slot) (hdriver : t.driver = s.driver) : Moves s a t := by
  constructor <;> simp +contextual [hhands, hhanded, State.slot, hslot, hdriver]

theorem moves_of_driver (h : driver_step s = some t) : Moves s .driver t := by
  unfold driver_step at h
  cases hd : s.driver with (rw [hd] at h)
  | status len =>
    cases h
    refine ⟨by
      simp [State.hands, hd], ?_, by simp [hd], by simp [Driver.fills], by simp [hd, Driver.fills]⟩
    simp only [State.slot, State.hands, hd, TX_SLOTS, toList_some, length_singleton,
      UInt64.toNat_add, UInt64.toNat_one]
    omega
  | own len k =>
    cases k with
    | zero =>
      cases h
      constructor <;> simp [State.hands, State.slot, Driver.fills, Driver.spent, hd]
    | succ k => simp at h
  | copying len i | top | look =>
    dsimp only at h
    split_ifs at h <;> cases h <;> constructor <;> simp [State.hands, State.slot, Driver.fills, *]
  | address len | clear | rest =>
    cases h
    constructor <;> simp [State.hands, State.slot, Driver.fills, hd]
  | exited =>
    simp at h

theorem moves_of_next (h : next s a = some t) (hne : a ≠ .start) : Moves s a t := by
  cases a with
  | send data =>
    simp only [next, send] at h
    split at h
    · split_ifs at h <;> cases h <;> exact .of_same rfl rfl rfl rfl
    · simp at h
  | kernel =>
    simp only [next, kernel_step] at h
    split at h
    · simp at h
    · cases h
      exact .of_same rfl rfl rfl rfl
    · cases h
      exact .of_same rfl rfl rfl rfl
    · split at h <;> cases h <;> exact .of_same rfl rfl rfl rfl
  | driver => exact moves_of_driver h
  | own own =>
    simp only [next, own_step] at h
    split at h
    case h_1 len k hd =>
      cases h
      cases own <;> constructor <;> simp [State.slot, State.hands, Driver.fills, hd]
    case h_2 => simp at h
  | store_stop v =>
    cases h
    exact .of_same rfl rfl rfl rfl
  | start => exact absurd rfl hne

/-! ## Runs -/

/-- With it, that the slot the driver is about to fill is free. -/
structure TurnInv (c : State × Nic) : Prop where
  agrees : Agrees c.1 c.2
  free : c.1.driver.fills = true → c.2.desc c.1.slot = none

theorem Agrees.window (h : Agrees s n) : Window TX_SLOTS n.desc s.handed n.pos :=
  ⟨h.room.1, h.room.2, h.queued⟩

theorem Agrees.serve {n' : Nic} (h : Agrees s n) (hserve : n.serve = some n') : Agrees s n' := by
  obtain ⟨frame, hframe, rfl⟩ := map_eq_some_iff.mp hserve
  have hget := (h.queued n.pos (le_rfl) (Nat.lt_add_of_pos_right (by decide))).symm.trans hframe
  obtain ⟨hlt, hframe'⟩ := List.getElem?_eq_some_iff.mp hget
  have hpop := h.window.pop hlt
  refine ⟨?_, hpop.cells, ⟨hpop.le, hpop.room⟩, h.slot⟩
  rw [h.out, take_succ_eq_append_getElem hlt, hframe']

/-- The next frame goes to the descriptor that comes after the last. -/
theorem Agrees.fill {frame : List UInt8} (h : Agrees s n) (hfree : n.desc s.slot = none)
    (halive : s.driver ≠ .exited) (hhanded : t.handed = s.handed ++ [frame])
    (hslot : t.slot = (s.slot + 1) % TX_SLOTS) :
    Agrees t { n with desc := update n.desc s.slot (some frame) } := by
  have hs := h.slot halive
  rw [hs] at hfree ⊢
  have hpush := h.window.push (h.window.lt_of_free (by decide) hfree) frame
  rw [← hhanded] at hpush
  refine ⟨?_, hpush.cells, ⟨hpush.le, hpush.room⟩, fun _ => ?_⟩
  · rw [hhanded, h.out, take_append_of_le_length h.room.1]
  · simp only [hslot, hhanded, length_append, length_singleton, hs, TX_SLOTS]
    omega

theorem TurnInv.step {c d : State × Nic} {a : Option Label} (h : TurnInv c)
    (hstep : NextInTurn c a d) : TurnInv d := by
  obtain ⟨hnext, hturn⟩ := hstep
  obtain ⟨s, n⟩ := c
  obtain ⟨hagrees, hfree⟩ := h
  cases a with
  | none =>
    obtain ⟨n', hserve, rfl⟩ := map_eq_some_iff.mp hnext
    refine ⟨hagrees.serve hserve, fun hf => ?_⟩
    obtain ⟨frame, -, rfl⟩ := map_eq_some_iff.mp hserve
    by_cases hown : s.slot = n.pos % TX_SLOTS
    · simp [hown]
    · simpa [hown] using hfree hf
  | some a =>
    simp only [next_with] at hnext
    split_ifs at hnext with hown
    obtain ⟨t, ht, rfl⟩ := map_eq_some_iff.mp hnext
    by_cases hstart : a = .start
    · -- a new driver, from descriptor 0 on
      subst hstart
      simp only [next, start_step] at ht
      split at ht
      · cases ht
        exact ⟨⟨hagrees.out, hagrees.queued, hagrees.room, fun _ => (hturn.1 rfl).symm⟩,
          fun hf => absurd hf (by simp [Driver.fills])⟩
      · simp at ht
    -- any other step hands over one frame, or none and stays in its slot
    obtain ⟨hhanded, hslot, halive, hfills, hfull⟩ := moves_of_next ht hstart
    cases hhands : s.hands a with
    | some frame =>
      rw [hhands] at hhanded hslot
      obtain ⟨hready, hrun, hdone⟩ := hfull (by simp [hhands])
      exact ⟨hagrees.fill (hfree hready) hrun hhanded hslot, fun hf => absurd hf (by simp [hdone])⟩
    | none =>
      rw [hhands] at hhanded hslot
      have hsame : t.slot = s.slot := by simpa [State.slot] using hslot
      rw [toList_none, append_nil] at hhanded
      refine ⟨⟨hhanded ▸ hagrees.out, hhanded ▸ hagrees.queued, hhanded ▸ hagrees.room,
        fun hd => ?_⟩, fun hf => ?_⟩
      · rw [hhanded]
        exact hsame.trans (hagrees.slot (halive hd))
      · show n.desc t.slot = none
        rw [hsame]
        rcases hfills hf with hf | ⟨hspent, rfl⟩ | rfl
        · exact hfree hf
        · exact hturn.2 rfl hspent
        · -- the driver has seen `OWN`
          exact isNone_iff_eq_none.mp (by simpa using hown)

end

/-- **The descriptors.** In every run whose drivers start after a whole number of rounds, and in
which no wait for a slot is cut short, frames leave in the order they were taken and none is
parked. -/
theorem agrees_of_in_turn {l : List (Option Label)} {c : State × Nic}
    (h : Steps NextInTurn (State.start, Nic.reset) l c) : Agrees c.1 c.2 := by
  refine (h.keeps (P := TurnInv) ⟨⟨rfl, fun _ _ _ => rfl, by decide, fun hd => absurd rfl hd⟩,
    ?_⟩ ?_).agrees
  · exact fun hf => absurd hf (by decide)
  · exact fun _ _ _ hv hstep => hv.step hstep

theorem agrees_of_in_turn_two : ∃ c, Steps NextInTurn (State.start, Nic.reset)
    (two_frames.map some ++ [none, none]) c
    ∧ c.2.out = [[1, 2], [3]] ∧ Agrees c.1 c.2 := by
  have hrun : (run (fun c a => if InTurn c a then next_with c a else none) (State.start, Nic.reset)
      (two_frames.map some ++ [none, none])).map (fun c => c.2.out)
        = some [[1, 2], [3]] := by decide +kernel
  obtain ⟨c, hc, hout⟩ := map_eq_some_iff.mp hrun
  have h : Steps NextInTurn (State.start, Nic.reset) _ c := .of_run_if _ hc
  exact ⟨c, h, hout, agrees_of_in_turn h⟩

/-- A frame that leaves, and then `service stop` and `service start`. -/
def restarted : List (Option Label) :=
  ([.start, .send [1], .kernel, .kernel, .kernel, .driver, .driver, .own true, .driver,
    .driver, .driver, .driver, .driver, .driver] : List Label).map some
    ++ [none, some (.store_stop true), some .driver, some (.store_stop false), some .start]

/-- The new driver fills descriptor 0 next, and the NIC waits for descriptor 1. -/
theorem restarted_out_of_turn : ∃ c, Steps (fun c a d => next_with c a = some d)
    (State.start, Nic.reset) restarted c
    ∧ c.1.slot = 0 ∧ c.2.pos = 1 ∧ ¬ Agrees c.1 c.2 := by
  have hrun : (run next_with (State.start, Nic.reset) restarted).map
      (fun c => (c.1.driver, c.1.slot, c.1.handed.length, c.2.pos))
        = some (.top, 0, 1, 1) := by decide +kernel
  obtain ⟨c, hc, hval⟩ := map_eq_some_iff.mp hrun
  simp only [Prod.mk.injEq] at hval
  obtain ⟨hdriver, hslot, hhanded, hpos⟩ := hval
  refine ⟨c, .of_run _ hc, hslot, hpos, fun h => ?_⟩
  have := h.slot (by simp [hdriver])
  rw [hslot, hhanded] at this
  exact absurd this (by decide)

end HepOS.Rtl8139
