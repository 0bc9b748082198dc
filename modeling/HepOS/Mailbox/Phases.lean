/-
The life of one request, seen from the mailbox.

Before a request is handed over the driver is `Quiet`: it is not working on anything and will
not find anything. A request that was handed over is first `Waiting`, then the driver is
`Serving` it, and when the status is stored it is `Answered`. That is the way it should go.
It is not the only one: when the driver has stored the status of the request before but has
not cleared `op` yet, the new request is in a race (`Racing`), and when the driver then clears
the field, it is `Lost`; and a driver that has seen `stop` leaves a request `Abandoned`.

The lemmas say how a step of the driver takes one phase to the next. None of them mentions
what the kernel does; `E` is what had been executed when the request was handed over.
-/
import HepOS.Mailbox.Model

set_option autoImplicit false

namespace HepOS.Mailbox

variable {sector_size : ℕ}

/-! ## Phases -/

/-- The transfer the driver had done is the one that was asked for. -/
structure Exec.Is (e : Exec) (r : Request sector_size) : Prop where
  write : e.write = r.write
  lba : e.lba = r.lba
  count : e.count = r.count.toNat
  data : r.write = true → e.data = r.bytes

section

variable (disk : Disk) (s : Service sector_size) (r : Request sector_size) (E : List Exec)

/-- The request asks for something, and a command can hold its `lba`. -/
structure Request.Asks : Prop where
  count : r.count ≠ 0
  lba : disk.first r.lba = r.lba

/-- The arguments in the mailbox are those of the request. -/
structure Holds : Prop where
  asks : r.Asks disk
  lba : s.mb.lba = r.lba
  count : s.mb.count = r.count.toUInt32
  data : r.write = true → s.mb.data.take r.bytes.length = r.bytes

/-- The driver comes round to look at `op`. -/
def Driver.comes (d : Driver) : Prop := d = .top ∨ d = .read_op ∨ d = .rest

/-- The driver is not working on anything, and finds nothing to work on unless it is about to
clear the field anyway. -/
def Quiet : Prop :=
  s.driver = .clear_op ∨ ((s.driver.comes ∨ s.driver = .exited) ∧ s.mb.op = .idle)

/-- The request is in the mailbox and nothing has been done for it. -/
structure Open : Prop where
  execs : s.execs = E
  status : s.mb.status = .pending
  holds : Holds disk s r

structure Waiting : Prop extends
    Open disk s r E where
  op : s.mb.op = r.op
  driver : s.driver.comes

structure Racing : Prop extends
    Open disk s r E where
  driver : s.driver = .clear_op

structure Lost : Prop extends
    Open disk s r E where
  op : s.mb.op = .idle
  driver : s.driver.comes ∨ s.driver = .exited

structure Abandoned : Prop extends
    Open disk s r E where
  op : s.mb.op = r.op
  driver : s.driver = .exited

/-- The transfer for the request has been done, as `e`. -/
structure Done (e : Exec) :
    Prop where
  execs : s.execs = E ++ [e]
  is : e.Is r
  serial : e.serial = s.issued.length
  read : r.write = false → s.mb.data.take r.bytes.length = e.data

/-- What the driver has read so far is the request. -/
def Serves : Prop :=
  (s.driver = .read_lba r.write s.issued.length ∧ Open disk s r E)
    ∨ (s.driver = .read_count r.write r.lba s.issued.length ∧ Open disk s r E)
    ∨ (s.driver = .issue r.write r.lba r.count.toUInt32 s.issued.length ∧ Open disk s r E)
    ∨ ∃ e, s.driver = .store_status e.status ∧ s.mb.status = .pending ∧ Done s r E e

structure Serving : Prop where
  op : s.mb.op = r.op
  serves : Serves disk s r E

structure Answered : Prop where
  quiet : Quiet s
  done : ∃ e, Done s r E e ∧ s.mb.status = e.status

end

theorem Exec.status_ne_pending (e : Exec) : e.status ≠ .pending := by
  unfold Exec.status
  split
  · decide
  · decide

/-- The six bytes of `ahcid` are enough for the sectors below 2^48. -/
theorem first_ahci {lba : UInt64} (h : lba.toNat < 2 ^ 48) : Disk.ahci.first lba = lba := by
  have hbyte : ∀ k : UInt64, k.toNat % 64 = k.toNat →
      (lba >>> k).toUInt8.toNat = lba.toNat / 2 ^ k.toNat % 256 := by
    intro k hk
    rw [UInt64.toNat_toUInt8, UInt64.toNat_shiftRight, hk, Nat.shiftRight_eq_div_pow]
  have hsum : (lba_fis lba).lba = lba.toNat := by
    unfold FisRegH2D.lba lba_fis
    dsimp only
    rw [hbyte 8 rfl, hbyte 16 rfl, hbyte 24 rfl, hbyte 32 rfl, hbyte 40 rfl, UInt64.toNat_toUInt8,
      show (8 : UInt64).toNat = 8 from rfl, show (16 : UInt64).toNat = 16 from rfl,
      show (24 : UInt64).toNat = 24 from rfl, show (32 : UInt64).toNat = 32 from rfl,
      show (40 : UInt64).toNat = 40 from rfl]
    omega
  unfold Disk.first
  rw [hsum, UInt64.ofNat_toNat]

section

variable (r : Request sector_size)

include r

theorem Request.op_ne_idle : r.op ≠ .idle := by
  unfold Request.op
  split
  · decide
  · decide

/-- The driver takes the direction from `op`. -/
theorem Request.op_eq_write : decide (r.op = .write) = r.write := by
  unfold Request.op
  cases r.write with
  | false => rfl
  | true => rfl

/-- A request for no sector would be executed as one for a sector. -/
theorem Request.sectors_count (h : r.count ≠ 0) :
    sectors r.count.toUInt32 = r.count.toNat := by
  have hpos : r.count.toNat ≠ 0 := fun h0 => h (UInt16.toNat_inj.mp h0)
  unfold sectors
  rw [UInt16.toNat_toUInt32]
  omega

theorem Request.length_bytes (h : r.count ≠ 0) :
    sectors r.count.toUInt32 * sector_size = r.bytes.length := by
  rw [r.sectors_count h, r.len]

end

/-! ## Steps of the driver -/

section

variable {disk : Disk} {s t : Service sector_size} {a : Answer} {r : Request sector_size}
    {E : List Exec}

theorem driver_exited (h : driver_step disk s a = some t) : s.driver ≠ .exited := by
  intro hd
  unfold driver_step at h
  rw [hd] at h
  simp at h

/-- What the driver never touches. -/
structure DriverFrame (s t : Service sector_size) : Prop where
  issued : t.issued = s.issued
  lba : t.mb.lba = s.mb.lba
  count : t.mb.count = s.mb.count
  stop : t.mb.stop = s.mb.stop

theorem driver_spec (h : driver_step disk s a = some t) :
    DriverFrame s t ∧ (t.driver = .exited → s.mb.stop = true) ∧ ∃ l, t.execs = s.execs ++ l := by
  unfold driver_step at h
  split at h
  case h_1 =>
    cases h
    refine ⟨⟨rfl, rfl, rfl, rfl⟩, fun hexit => ?_, [], (List.append_nil _).symm⟩
    by_contra hstop
    simp [hstop] at hexit
  case h_2 =>
    cases h
    refine ⟨⟨rfl, rfl, rfl, rfl⟩, fun hexit => ?_, [], (List.append_nil _).symm⟩
    split_ifs at hexit
  case h_3 | h_4 | h_7 | h_8 | h_9 =>
    cases h
    exact ⟨⟨rfl, rfl, rfl, rfl⟩, nofun, [], (List.append_nil _).symm⟩
  case h_5 =>
    cases h
    exact ⟨⟨rfl, rfl, rfl, rfl⟩, nofun, _, rfl⟩
  case h_6 =>
    split at h
    · cases h
      exact ⟨⟨rfl, rfl, rfl, rfl⟩, nofun, _, rfl⟩
    · simp at h
  case h_10 => simp at h

theorem driver_frame (h : driver_step disk s a = some t) : DriverFrame s t := (driver_spec h).1

/-- The driver leaves at the top of its loop, when it has seen `stop`. -/
theorem driver_exits (h : driver_step disk s a = some t) : t.driver = .exited → s.mb.stop = true :=
  (driver_spec h).2.1

theorem driver_execs (h : driver_step disk s a = some t) : ∃ l, t.execs = s.execs ++ l :=
  (driver_spec h).2.2

/-! ## From phase to phase -/

/-- What the driver leaves alone as long as it is not working on anything. -/
structure Untouched (s t : Service sector_size) : Prop where
  execs : t.execs = s.execs
  status : t.mb.status = s.mb.status
  data : t.mb.data = s.mb.data

/-- A driver that comes round finds a request, sees `stop`, or comes round again. -/
theorem Driver.comes.driver_step (h : driver_step disk s a = some t) (hc : s.driver.comes) :
    Untouched s t ∧ t.mb.op = s.mb.op ∧ (t.driver.comes ∨ (s.mb.stop = true ∧ t.driver = .exited)
        ∨ (s.mb.op ≠ .idle ∧ t.driver = .read_lba (s.mb.op = .write) s.issued.length)) := by
  unfold Mailbox.driver_step at h
  rcases hc with hd | hd | hd
  · rw [hd] at h
    cases h
    refine ⟨⟨rfl, rfl, rfl⟩, rfl, ?_⟩
    split_ifs with hstop
    · exact .inr (.inl ⟨hstop, rfl⟩)
    · exact .inl (.inr (.inl rfl))
  · rw [hd] at h
    cases h
    refine ⟨⟨rfl, rfl, rfl⟩, rfl, ?_⟩
    split_ifs with hop
    · exact .inl (.inr (.inr rfl))
    · exact .inr (.inr ⟨hop, rfl⟩)
  · rw [hd] at h
    cases h
    exact ⟨⟨rfl, rfl, rfl⟩, rfl, .inl (.inl rfl)⟩

/-- The end of a request: `op` is cleared, and nothing else has changed. -/
theorem driver_clear_op (h : driver_step disk s a = some t) (hd : s.driver = .clear_op) :
    t.mb.op = .idle ∧ t.driver.comes ∧ Untouched s t := by
  unfold driver_step at h
  rw [hd] at h
  cases h
  exact ⟨rfl, .inr (.inr rfl), rfl, rfl, rfl⟩

theorem Quiet.driver_step (h : driver_step disk s a = some t) (hq : Quiet s) :
    Quiet t ∧ Untouched s t := by
  rcases hq with hd | ⟨hc | hd, hop⟩
  · obtain ⟨hop, hc, hun⟩ := driver_clear_op h hd
    exact ⟨.inr ⟨.inl hc, hop⟩, hun⟩
  · obtain ⟨hun, hop', hnext⟩ := hc.driver_step h
    refine ⟨.inr ⟨?_, hop'.trans hop⟩, hun⟩
    rcases hnext with hc' | ⟨-, hd'⟩ | ⟨hne, -⟩
    · exact .inl hc'
    · exact .inr hd'
    · exact absurd hop hne
  · exact absurd hd (driver_exited h)

/-- An open request stays open while its fields stay. -/
theorem Open.congr (h : Open disk s r E) (ht : Untouched s t) (hf : DriverFrame s t) :
    Open disk t r E :=
  ⟨ht.execs.trans h.execs, ht.status.trans h.status,
    ⟨h.holds.asks, hf.lba.trans h.holds.lba, hf.count.trans h.holds.count,
      fun hw => by rw [ht.data]; exact h.holds.data hw⟩⟩

/-- **Waiting.** The driver comes round, sees `stop` and leaves, or takes the request. -/
theorem Waiting.driver_step (h : driver_step disk s a = some t) (hw : Waiting disk s r E) :
    Waiting disk t r E ∨ Serving disk t r E ∨ (s.mb.stop = true ∧ Abandoned disk t r E) := by
  have hf := driver_frame h
  obtain ⟨hun, hop, hnext⟩ := hw.driver.driver_step h
  have ho := hw.toOpen.congr hun hf
  rcases hnext with hc | ⟨hstop, hd⟩ | ⟨-, hd⟩
  · exact .inl ⟨ho, hop.trans hw.op, hc⟩
  · exact .inr (.inr ⟨hstop, ho, hop.trans hw.op, hd⟩)
  · refine .inr (.inl ⟨hop.trans hw.op, .inl ⟨?_, ho⟩⟩)
    rw [hd, hw.op, r.op_eq_write, hf.issued]

/-- What the transfer for a request is when the driver has read the request right. -/
theorem Open.issue (h : driver_step disk s a = some t) (ho : Open disk s r E)
    (hd : s.driver = .issue r.write r.lba r.count.toUInt32 s.issued.length) :
    t.mb.op = s.mb.op ∧ ∃ e, t.driver = .store_status e.status ∧ t.mb.status = .pending
        ∧ Done t r E e := by
  unfold driver_step at h
  cases hw : r.write with
  | true =>
    rw [hd, hw] at h
    cases h
    refine ⟨rfl, _, rfl, ho.status, by rw [ho.execs],
      ⟨hw.symm, ho.holds.asks.lba, r.sectors_count ho.holds.asks.count, ?_⟩, rfl, ?_⟩
    · intro _
      rw [r.length_bytes ho.holds.asks.count]
      exact ho.holds.data hw
    · intro hw'
      rw [hw] at hw'
      exact absurd hw' (by decide)
  | false =>
    rw [hd, hw] at h
    dsimp only at h
    split at h
    swap
    · simp at h
    rename_i hlen
    rw [r.length_bytes ho.holds.asks.count] at hlen
    cases h
    refine ⟨rfl, _, rfl, ho.status, by rw [ho.execs],
      ⟨hw.symm, ho.holds.asks.lba, r.sectors_count ho.holds.asks.count, ?_⟩, rfl, ?_⟩
    · intro hw'
      rw [hw] at hw'
      exact absurd hw' (by decide)
    · intro _
      rw [← hlen]
      exact take_overlay _ _

/-- **Serving.** The driver reads the rest of the request, has it executed with what it has
read, and reports how that went. -/
theorem Serving.driver_step (h : driver_step disk s a = some t) (hs : Serving disk s r E) :
    Serving disk t r E ∨ Answered t r E := by
  have hf := driver_frame h
  obtain ⟨hop, ⟨hd, ho⟩ | ⟨hd, ho⟩ | ⟨hd, ho⟩ | ⟨e, hd, hst, hdone⟩⟩ := hs
  · unfold Mailbox.driver_step at h
    rw [hd] at h
    cases h
    refine .inl ⟨hop, .inr (.inl ⟨?_, ho.congr ⟨rfl, rfl, rfl⟩ hf⟩)⟩
    rw [ho.holds.lba]
  · unfold Mailbox.driver_step at h
    rw [hd] at h
    cases h
    refine .inl ⟨hop, .inr (.inr (.inl ⟨?_, ho.congr ⟨rfl, rfl, rfl⟩ hf⟩))⟩
    rw [ho.holds.count]
  · obtain ⟨hop', e, hissue⟩ := ho.issue h hd
    exact .inl ⟨hop'.trans hop, .inr (.inr (.inr ⟨e, hissue⟩))⟩
  · unfold Mailbox.driver_step at h
    rw [hd] at h
    cases h
    exact .inr ⟨.inl rfl, e, ⟨hdone.execs, hdone.is, hdone.serial, hdone.read⟩, rfl⟩

theorem Serving.status (hs : Serving disk s r E) : s.mb.status = .pending := by
  obtain ⟨-, ⟨-, ho⟩ | ⟨-, ho⟩ | ⟨-, ho⟩ | ⟨e, -, hst, -⟩⟩ := hs
  · exact ho.status
  · exact ho.status
  · exact ho.status
  · exact hst

/-- **Answered.** The answer stays until the kernel has taken it. -/
theorem Answered.driver_step (h : driver_step disk s a = some t) (ha : Answered s r E) :
    Answered t r E := by
  have hf := driver_frame h
  obtain ⟨hq, e, hdone, hst⟩ := ha
  obtain ⟨hq', hun⟩ := hq.driver_step h
  exact ⟨hq', e, ⟨hun.execs.trans hdone.execs, hdone.is, by rw [hf.issued]; exact hdone.serial,
    fun hw => by rw [hun.data]; exact hdone.read hw⟩, hun.status.trans hst⟩

/-- **Racing.** Clearing the field for the request before takes the new one with it. -/
theorem Racing.driver_step (h : driver_step disk s a = some t) (hr : Racing disk s r E) :
    Lost disk t r E := by
  obtain ⟨hop, hc, hun⟩ := driver_clear_op h hr.driver
  exact ⟨hr.toOpen.congr hun (driver_frame h), hop, .inl hc⟩

/-- **Lost.** There is nothing left for the driver to find. -/
theorem Lost.driver_step (h : driver_step disk s a = some t) (hl : Lost disk s r E) :
    Lost disk t r E := by
  have hf := driver_frame h
  rcases hl.driver with hc | hd
  · obtain ⟨hun, hop, hnext⟩ := hc.driver_step h
    refine ⟨hl.toOpen.congr hun hf, hop.trans hl.op, ?_⟩
    rcases hnext with hc' | ⟨-, hd'⟩ | ⟨hne, -⟩
    · exact .inl hc'
    · exact .inr hd'
    · exact absurd hl.op hne
  · exact absurd hd (driver_exited h)

/-! ## Handing a request over -/

theorem Quiet.store_op (hq : Quiet s) (hh : Holds disk s r) (hst : s.mb.status = .pending)
    (ht : t = { s with mb := { s.mb with op := r.op }, issued := s.issued ++ [r] }) :
    Waiting disk t r s.execs ∨ (s.driver = .clear_op ∧ Racing disk t r s.execs)
      ∨ (s.driver = .exited ∧ Abandoned disk t r s.execs) := by
  have ho : Open disk t r s.execs := by
    rw [ht]
    exact ⟨rfl, hst, ⟨hh.asks, hh.lba, hh.count, hh.data⟩⟩
  rcases hq with hd | ⟨hc | hd, -⟩
  · exact .inr (.inl ⟨hd, ho, by rw [ht]; exact hd⟩)
  · exact .inl ⟨ho, by rw [ht], by rw [ht]; exact hc⟩
  · exact .inr (.inr ⟨hd, ho, by rw [ht], by rw [ht]; exact hd⟩)

end

end HepOS.Mailbox
