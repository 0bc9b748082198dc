/-
The two rings of the e1000.

`recv` writes its own position to `RDT`, and the card stops where `RDH` meets `RDT`: once the last
frame has been taken the card owns no descriptor, and it gets none until there is another frame. The
order of the frames is right in every run.

`send` queues the address of the caller's buffer and comes back; the buffer is freed, and no
descriptor is checked for being done. A frame leaves as it was given only if nobody writes to its
buffer, and no descriptor is filled again, before the card is done with it.
-/
import HepOS.Lib.Ring
import HepOS.Lib.Trace

set_option autoImplicit false

namespace HepOS.E1000

open Rings Trace Function List Option Nat

def RING : ℕ := 8

/-! ## Receiving -/

structure Rx where
  /-- the frames in the buffers of the descriptors with `RX_DD` -/
  desc : ℕ → Option (List UInt8)
  rdh : ℕ
  rdt : ℕ
  rx_tail : ℕ
  /-- what the card has stored and `recv` has returned so far; nothing reads these -/
  stored : List (List UInt8)
  returned : List (List UInt8)

def Rx.init : Rx := ⟨fun _ => none, 0, RING - 1, 0, [], []⟩

/-- The first of the descriptors with `RX_DD`, from `rx_tail` on. -/
def Rx.found (s : Rx) : Option ℕ :=
  ((List.range RING).map fun i => (s.rx_tail + i) % RING).find? fun idx => (s.desc idx).isSome

def recv (s : Rx) : Option (List UInt8) × Rx :=
  match s.found with
  | none => (none, s)
  | some idx =>
    let frame := (s.desc idx).getD []
    let next := (idx + 1) % RING
    let t := { s with desc := update s.desc idx none, rx_tail := next, rdt := next }
    -- a short frame is skipped
    if frame.length < 14 then (none, t)
      else (some frame, { t with returned := s.returned ++ [frame] })

inductive RxLabel
  | arrive (frame : List UInt8)
  | recv

/-- A frame for which the card has no descriptor is dropped. -/
def Rx.next (s : Rx) : RxLabel → Option Rx
  | .arrive frame =>
    if s.rdh = s.rdt then some s
    else some { s with
      desc := update s.desc s.rdh (some frame), rdh := (s.rdh + 1) % RING,
      stored := s.stored ++ [frame] }
  | .recv => some (recv s).2

/-- The frames of at least 14 bytes. -/
def long (l : List (List UInt8)) : List (List UInt8) := l.filter (14 ≤ ·.length)

/-- What was stored is returned once and in order, the rest is in the ring; and the card has a
descriptor when no frame waits. -/
structure Receives (s : Rx) : Prop where
  order : ∃ k, s.returned = long (s.stored.take k) ∧ Window RING s.desc s.stored k
  owns : s.found = none → s.rdh ≠ s.rdt

/-- `recv` leaves a frame behind, if it takes one. -/
def Leaves (s : Rx) : RxLabel → Prop
  | .recv => (s.desc s.rx_tail).isSome → (s.desc ((s.rx_tail + 1) % RING)).isSome
  | .arrive _ => True

instance (s : Rx) (a : RxLabel) : Decidable (Leaves s a) := by
  cases a
  all_goals unfold Leaves; infer_instance

/-- `k` frames have been taken. -/
structure RxInv (s : Rx) (k : ℕ) : Prop where
  window : Window RING s.desc s.stored k
  returned : s.returned = long (s.stored.take k)
  tail : s.rx_tail = k % RING
  head : s.rdh = s.stored.length % RING
  rdt : s.rdt = if k = 0 then RING - 1 else k % RING
  first : k = 0 → s.stored.length < RING

section

variable {s t : Rx} {k : ℕ} (h : RxInv s k)

include h

theorem RxInv.cell {i : ℕ} (hi : i < RING) :
    s.desc ((s.rx_tail + i) % RING) = s.stored[k + i]? := by
  rw [h.tail, mod_add_mod]
  exact h.window.cells _ (by omega) (by omega)

/-- The frame that `recv` finds is the next one. -/
theorem RxInv.found : s.found = if k < s.stored.length then some (k % RING) else none := by
  split_ifs with hlt
  · have hfirst := h.cell (i := 0) (by decide)
    rw [Nat.add_zero, Nat.add_zero, List.getElem?_eq_getElem hlt] at hfirst
    show List.find? _ (s.rx_tail % RING :: _) = _
    rw [List.find?_cons_of_pos (by rw [hfirst]; rfl), h.tail, mod_mod]
  · refine List.find?_eq_none.mpr fun idx hidx => ?_
    obtain ⟨i, hi, rfl⟩ := mem_map.mp hidx
    rw [h.cell (mem_range.mp hi), List.getElem?_eq_none (by omega)]
    exact nofun

theorem RxInv.arrive {frame : List UInt8} (hfree : s.rdh ≠ s.rdt) : RxInv { s with
      desc := update s.desc s.rdh (some frame), rdh := (s.rdh + 1) % RING,
      stored := s.stored ++ [frame] } k := by
  obtain ⟨hw, hret, htail, hhead, hrdt, hfirst⟩ := h
  -- the card never comes up to the first frame that waits
  have hroom : s.stored.length < k + RING ∧ (k = 0 → s.stored.length + 1 < RING) := by
    have hle := hw.room
    rw [hhead, hrdt] at hfree
    unfold RING at *
    split_ifs at hfree with hk
    · have := hfirst hk
      omega
    · omega
  refine ⟨?_, ?_, htail, ?_, hrdt, ?_⟩
  · dsimp only
    rw [hhead]
    exact hw.push hroom.1 frame
  · rw [hret, take_append_of_le_length hw.le]
  · simp [hhead, add_mod]
  · intro hk
    simpa using hroom.2 hk

theorem RxInv.take (hlt : k < s.stored.length) : RxInv (recv s).2 (k + 1) := by
  have hframe : s.desc (k % RING) = some s.stored[k] := by
    rw [h.window.cells k (le_rfl) (by simp [RING]), List.getElem?_eq_getElem hlt]
  have hw := h.window.pop hlt
  have hnext : (k % RING + 1) % RING = (k + 1) % RING := mod_add_mod k RING 1
  have hlong : long (s.stored.take (k + 1)) = s.returned ++ long [s.stored[k]] := by
    rw [take_succ_eq_append_getElem hlt, long, filter_append, h.returned]
    rfl
  unfold recv
  rw [h.found, if_pos hlt]
  dsimp only
  rw [hframe, getD_some, hnext]
  split_ifs with hshort
  · refine ⟨hw, ?_, rfl, h.head, rfl, nofun⟩
    rw [hlong]
    simp [long, hshort]
  · refine ⟨hw, ?_, rfl, h.head, rfl, nofun⟩
    rw [hlong]
    simp [long, Nat.le_of_not_lt hshort]

theorem RxInv.step {a : RxLabel} (hmore : k = 0 ∨ k < s.stored.length) (hstep : s.next a = some t)
    (hleaves : Leaves s a) :
    ∃ j, RxInv t j ∧ (j = 0 ∨ j < t.stored.length) := by
  cases a with
  | arrive frame =>
    simp only [Rx.next] at hstep
    split_ifs at hstep with hfull
    · cases hstep
      exact ⟨k, h, hmore⟩
    · cases hstep
      refine ⟨k, h.arrive hfull, hmore.imp_right fun hlt => ?_⟩
      simp only [length_append]
      omega
  | recv =>
    cases hstep
    by_cases hlt : k < s.stored.length
    · refine ⟨k + 1, h.take hlt, .inr ?_⟩
      have hstored : (recv s).2.stored = s.stored := by
        unfold recv
        split
        · rfl
        · dsimp only
          split_ifs <;> rfl
      have hsecond := hleaves (by
        rw [h.tail, h.window.cells k (le_rfl) (by simp [RING]), List.getElem?_eq_getElem hlt]
        rfl)
      rw [h.cell (by decide)] at hsecond
      rw [hstored]
      by_contra hno
      simp [List.getElem?_eq_none (Nat.le_of_not_lt hno)] at hsecond
    · have hsame : recv s = (none, s) := by rw [recv, h.found, if_neg hlt]
      rw [hsame]
      exact ⟨k, h, hmore⟩

end

structure Tx where
  mem : ℕ → UInt8
  /-- address and length -/
  desc : ℕ → ℕ × ℕ
  tdh : ℕ
  /-- `tx_tail`, and the register -/
  tdt : ℕ
  /-- the descriptor that the card has fetched and whose data it has not -/
  held : Option (ℕ × ℕ)
  given : List (List UInt8)
  wire : List (List UInt8)

def Tx.init (mem : ℕ → UInt8) : Tx := ⟨mem, fun _ => (0, 0), 0, 0, none, [], []⟩

section

variable (s : Tx)

def Tx.bytes (d : ℕ × ℕ) : List UInt8 := (List.range d.2).map fun i => s.mem (d.1 + i)

/-- `given` is what `send` does not refuse. -/
def send (addr : ℕ) (data : List UInt8) : Tx :=
  if 4096 < data.length then s
  else { s with
    desc := update s.desc (s.tdt % RING) (addr, data.length), tdt := (s.tdt + 1) % RING,
    given := s.given ++ [data] }

/-- The frame is put together in a buffer of the heap at `addr`, which is freed at the end. -/
def eth_send (addr : ℕ) (frame : List UInt8) : Tx :=
  let mem := fun a => if addr ≤ a ∧ a < addr + frame.length
    then frame.getD (a - addr) 0 else s.mem a
  send { s with mem := mem } addr frame

/-- `write` is a store by anybody. -/
inductive TxLabel
  | eth_send (addr : ℕ) (frame : List UInt8)
  | write (addr : ℕ) (v : UInt8)
  | fetch_desc
  | fetch_data

def Tx.next : TxLabel → Option Tx
  | .eth_send addr frame => some (eth_send s addr frame)
  | .write addr v => some { s with mem := update s.mem addr v }
  | .fetch_desc =>
    if s.held = none ∧ s.tdh ≠ s.tdt then some { s with held := some (s.desc s.tdh) } else none
  | .fetch_data => s.held.map fun d =>
    { s with held := none, tdh := (s.tdh + 1) % RING, wire := s.wire ++ [s.bytes d] }

/-- The frames leave as they were given, each once and in order, and the others are queued. -/
structure Delivers : Prop where
  order : s.wire = s.given.take s.wire.length
  rest : s.given.length = s.wire.length + (s.tdt + RING - s.tdh) % RING

/-- No buffer that the card is not done with meets the addresses from `lo` to `hi`. -/
def Tx.Clear (lo hi : ℕ) : Prop :=
  ∀ i < RING, (i + RING - s.tdh) % RING < (s.tdt + RING - s.tdh) % RING →
    hi ≤ (s.desc i).1 ∨ (s.desc i).1 + (s.desc i).2 ≤ lo

/-- Nothing is used again before the card is done with it. -/
def Apart : TxLabel → Prop
  | .eth_send addr frame =>
    s.Clear addr (addr + frame.length) ∧ (frame.length ≤ 4096 → (s.tdt + 1) % RING ≠ s.tdh)
  | .write addr _ => s.Clear addr (addr + 1)
  | _ => True

instance (a : TxLabel) : Decidable (Apart s a) := by
  cases a
  all_goals unfold Apart Tx.Clear; infer_instance

structure TxInv : Prop where
  order : s.wire = s.given.take s.wire.length
  room : s.wire.length ≤ s.given.length ∧ s.given.length < s.wire.length + RING
  head : s.tdh = s.wire.length % RING
  tail : s.tdt = s.given.length % RING
  data : ∀ k, s.wire.length ≤ k → k < s.given.length →
    s.given[k]? = some (s.bytes (s.desc (k % RING)))
  held : ∀ d, s.held = some d → d = s.desc s.tdh ∧ s.tdh ≠ s.tdt

end

section

variable {s t : Tx} (h : TxInv s)

include h

theorem TxInv.store {mem : ℕ → UInt8} {lo hi : ℕ} (hclear : s.Clear lo hi)
    (hmem : ∀ a, ¬ (lo ≤ a ∧ a < hi) → mem a = s.mem a) : TxInv { s with mem := mem } := by
  refine ⟨h.order, h.room, h.head, h.tail, fun k hk hk' => (h.data k hk hk').trans ?_, h.held⟩
  dsimp only at hk hk'
  have hwait := hclear (k % RING) (mod_lt _ (by decide)) (by
    have hroom := h.room
    rw [h.head, h.tail]
    unfold RING at hroom ⊢
    omega)
  refine congrArg some (map_congr_left fun i hi => (hmem _ ?_).symm)
  have := mem_range.mp hi
  omega

theorem TxInv.send {addr : ℕ} {data : List UInt8}
    (hfree : data.length ≤ 4096 → (s.tdt + 1) % RING ≠ s.tdh)
    (hbytes : s.bytes (addr, data.length) = data) : TxInv (send s addr data) := by
  unfold E1000.send
  split_ifs with hrefused
  · exact h
  have hfree := hfree (Nat.le_of_not_lt hrefused)
  obtain ⟨horder, hroom, hhead, htail, hdata, hheld⟩ := h
  have hidx : s.tdt % RING = s.given.length % RING := by rw [htail, mod_mod]
  rw [hhead, htail] at hfree
  rw [hidx]
  refine ⟨?_, ?_, hhead, ?_, fun k hk hk' => ?_, fun d hd => ?_⟩
  · rw [take_append_of_le_length hroom.1, ← horder]
  · simp only [length_append, length_singleton]
    unfold RING at *
    omega
  · simp [htail]
  · by_cases hlast : k = s.given.length
    · rw [hlast, List.getElem?_concat_length]
      simpa [Tx.bytes] using hbytes.symm
    · have hless : k < s.given.length := by
        simp only [length_append, length_singleton] at hk'
        omega
      dsimp only
      rw [List.getElem?_append_left hless, hdata k hk hless, update_of_ne]
      · rfl
      · dsimp only at hk
        unfold RING at *
        omega
  · obtain ⟨hd, hne⟩ := hheld d hd
    dsimp only
    rw [update_of_ne (htail ▸ hne)]
    refine ⟨hd, ?_⟩
    rw [hhead, htail]
    unfold RING at *
    omega

theorem TxInv.fetch_data {d : ℕ × ℕ} (hd : s.held = some d) :
    TxInv { s with held := none, tdh := (s.tdh + 1) % RING, wire := s.wire ++ [s.bytes d] } := by
  obtain ⟨horder, hroom, hhead, htail, hdata, hheld⟩ := h
  obtain ⟨rfl, hne⟩ := hheld d hd
  have hlt : s.wire.length < s.given.length := by
    rw [hhead, htail] at hne
    exact lt_of_le_of_ne hroom.1 fun heq => hne (by rw [heq])
  have hframe := hdata _ (le_rfl) hlt
  rw [← hhead, List.getElem?_eq_getElem hlt, some_inj] at hframe
  refine ⟨?_, ?_, ?_, htail, fun k hk hk' => ?_, nofun⟩
  · rw [length_append, length_singleton, take_succ_eq_append_getElem hlt, hframe, ← horder]
  · simp only [length_append, length_singleton]
    omega
  · simp [hhead]
  · simp only [length_append, length_singleton] at hk
    exact hdata k (by omega) hk'

theorem TxInv.step {a : TxLabel} (hstep : s.next a = some t) (hapart : Apart s a) : TxInv t := by
  cases a with
  | eth_send addr frame =>
    cases hstep
    refine (h.store hapart.1 fun a ha => if_neg ha).send hapart.2 ?_
    refine ext_getElem (by simp [Tx.bytes]) fun i hi hi' => ?_
    simp [Tx.bytes, hi']
  | write addr v =>
    cases hstep
    exact h.store hapart fun a ha => update_of_ne (by omega) _ _
  | fetch_desc =>
    simp only [Tx.next] at hstep
    split_ifs at hstep with hready
    cases hstep
    refine { h with held := fun d hd => ?_ }
    cases hd
    exact ⟨rfl, hready.2⟩
  | fetch_data =>
    obtain ⟨d, hd, rfl⟩ := map_eq_some_iff.mp hstep
    exact h.fetch_data hd

end

/-- **Sending**, in every run in which no buffer and no descriptor is used again before the card is
done with it. -/
theorem delivers_of_apart {mem : ℕ → UInt8} {l : List TxLabel} {s : Tx}
    (h : Steps (fun s a t => s.next a = some t ∧ Apart s a) (Tx.init mem) l s) : Delivers s := by
  have hinv : TxInv s := h.keeps ⟨rfl, ⟨le_rfl, succ_pos _⟩, rfl, rfl, nofun, nofun⟩
    fun _ _ _ hv hstep => hv.step hstep.1 hstep.2
  refine ⟨hinv.order, ?_⟩
  have hroom := hinv.room
  rw [hinv.head, hinv.tail]
  unfold RING at hroom ⊢
  omega

theorem delivers_of_apart_two : ∃ s, Steps (fun s a t => s.next a = some t ∧ Apart s a)
    (Tx.init fun _ => 0)
    [.eth_send 0 [1, 2], .eth_send 2 [3], .fetch_desc, .fetch_data, .write 0 9, .fetch_desc,
      .fetch_data] s
    ∧ s.wire = [[1, 2], [3]] ∧ Delivers s := by
  have h : Steps (fun s a t => s.next a = some t ∧ Apart s a) (Tx.init fun _ => 0)
    [.eth_send 0 [1, 2], .eth_send 2 [3], .fetch_desc, .fetch_data, .write 0 9, .fetch_desc,
      .fetch_data] _ :=
    .of_run_if _ rfl
  exact ⟨_, h, rfl, delivers_of_apart h⟩

/-- The buffer is freed when `eth_send` returns, and the next one is put together in its place. -/
theorem freed_buffer_sent : ∃ s, Steps (fun s a t => s.next a = some t) (Tx.init fun _ => 0)
    [.eth_send 0 [1, 2], .eth_send 0 [3, 4], .fetch_desc, .fetch_data] s
    ∧ s.given = [[1, 2], [3, 4]] ∧ s.wire = [[3, 4]] ∧ ¬ Delivers s :=
  ⟨_, .of_run _ rfl, rfl, rfl, fun h => absurd h.order (by decide)⟩

end HepOS.E1000
