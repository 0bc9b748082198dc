/-
What one access of the kernel can be.

A call first fills in the mailbox, one field after the other, and only the last store, the one
to `op`, hands the request over. `Kernel.prepares` are the places up to that store and
`Prepared` is what is in the mailbox at each of them. As long as the driver is quiet it does
not disturb that. `KernelStep` lists what else an access can be; every invariant of the
mailbox goes through this list.
-/
import HepOS.Mailbox.Phases

set_option autoImplicit false

namespace HepOS.Mailbox

open Trace List

variable {a : Answer} {disk : Disk}

variable {sector_size : ℕ}

/-! ## Filling in a request -/

/-- The kernel has a request and has not handed it over. -/
def Kernel.prepares : Kernel sector_size → Prop
  | .copy_in _ | .store_lba _ | .store_count _ | .clear_status _ | .store_op _ => True
  | _ => False

/-- What is in the mailbox at every one of these places. -/
def Prepared (disk : Disk) (s : State sector_size) : Prop :=
  match s.kernel with
  | .copy_in r => r.Asks disk
  | .store_lba r => r.Asks disk ∧ (r.write = true → s.mb.data.take r.bytes.length = r.bytes)
  | .store_count r => r.Asks disk ∧ (r.write = true → s.mb.data.take r.bytes.length = r.bytes)
      ∧ s.mb.lba = r.lba
  | .clear_status r => Holds disk s.toService r
  | .store_op r => Holds disk s.toService r ∧ s.mb.status = .pending
  | _ => True

/-- What the kernel leaves alone while it fills in a request. -/
structure Filling (s t : State sector_size) : Prop where
  op : t.mb.op = s.mb.op
  stop : t.mb.stop = s.mb.stop
  driver : t.driver = s.driver
  issued : t.issued = s.issued
  execs : t.execs = s.execs
  stopper : t.stopper = s.stopper
  active : t.active = s.active
  consumed : t.consumed = s.consumed
  returns : t.returns = s.returns

variable {s t : State sector_size} {r : Request sector_size}

/-- A quiet driver stays quiet while the kernel fills in a request. -/
theorem Filling.quiet (h : Filling s t) (hq : Quiet s.toService) : Quiet t.toService := by
  unfold Quiet
  rw [h.driver, h.op]
  exact hq

theorem Holds.driver_step {v : Service sector_size} (hh : Holds disk s.toService r)
    (h : driver_step disk s.toService a = some v) (hun : Untouched s.toService v) :
    Holds disk v r := by
  have hf := driver_frame h
  exact ⟨hh.asks, hf.lba.trans hh.lba, hf.count.trans hh.count,
    fun hw => by rw [hun.data]; exact hh.data hw⟩

/-- A quiet driver does not disturb what has been filled in. -/
theorem Prepared.driver_step {v : Service sector_size}
    (hp : Prepared disk s) (hq : s.kernel.prepares → Quiet s.toService)
    (h : driver_step disk s.toService a = some v) : Prepared disk { s with toService := v } := by
  have hf := driver_frame h
  have hun : s.kernel.prepares → Untouched s.toService v := fun hk => ((hq hk).driver_step h).2
  unfold Prepared at hp ⊢
  cases hk : s.kernel with
  | copy_in r => rw [hk] at hp; exact hp
  | store_lba r =>
    rw [hk] at hp hun
    obtain ⟨hsome, hdata⟩ := hp
    exact ⟨hsome, fun hw => by rw [(hun trivial).data]; exact hdata hw⟩
  | store_count r =>
    rw [hk] at hp hun
    obtain ⟨hsome, hdata, hlba⟩ := hp
    exact ⟨hsome, fun hw => by rw [(hun trivial).data]; exact hdata hw, hf.lba.trans hlba⟩
  | clear_status r =>
    rw [hk] at hp hun
    exact Holds.driver_step hp h (hun trivial)
  | store_op r =>
    rw [hk] at hp hun
    exact ⟨hp.1.driver_step h (hun trivial), (hun trivial).status.trans hp.2⟩
  | idle | direct r | poll r k | reread r | copy_out r | reset r ok out | panicked => exact trivial

/-! ## The accesses -/

/-- What an access of the kernel does. -/
inductive KernelStep (disk : Disk) (s : State sector_size) : State sector_size → Prop
  | direct (r : Request sector_size) (hk : s.kernel = .direct r) :
      KernelStep disk s { s with kernel := .idle, direct := s.direct ++ [r] }
  | fill (t : State sector_size) (hs : s.kernel.prepares) (ht : t.kernel.prepares)
      (hfill : Filling s t) (hprep : Prepared disk s → Prepared disk t) : KernelStep disk s t
  | hand_over (r : Request sector_size) (hk : s.kernel = .store_op r) :
      KernelStep disk s { s with
        mb := { s.mb with op := r.op }
        kernel := .poll r MAILBOX_WAIT_SPINS
        issued := s.issued ++ [r] }
  | give_up (r : Request sector_size) (hk : s.kernel = .poll r 0) :
      KernelStep disk s { s with kernel := .reset r false [] }
  | wait (r : Request sector_size) (k : ℕ) (hk : s.kernel = .poll r (k + 1))
      (hst : s.mb.status = .pending) : KernelStep disk s { s with kernel := .poll r k }
  | look (r : Request sector_size) (k : ℕ) (hk : s.kernel = .poll r (k + 1))
      (hst : s.mb.status ≠ .pending) (hdisk : disk = .ahci) :
      KernelStep disk s { s with kernel := .reread r }
  | take (r : Request sector_size)
      (hk : s.kernel = .reread r ∨ (∃ k, s.kernel = .poll r (k + 1) ∧ s.mb.status ≠ .pending)) :
      KernelStep disk s (s.decide_status r s.mb.status)
  | copy_out (r : Request sector_size) (hk : s.kernel = .copy_out r) :
      KernelStep disk s
        { s with kernel := .reset r true (s.mb.data.take r.bytes.length) }
  | reset (r : Request sector_size) (ok : Bool) (out : List UInt8)
      (hk : s.kernel = .reset r ok out) :
      KernelStep disk s
        (State.return_from disk { s with mb := { s.mb with status := .pending } } r ok out)

theorem kernel_cases (h : kernel_step disk s = some t) : KernelStep disk s t := by
  unfold kernel_step at h
  cases hk : s.kernel with (rw [hk] at h)
  | idle | panicked => simp at h
  | direct r =>
    cases h
    exact .direct r hk
  -- the stores before `op` fill the mailbox one field at a time
  | copy_in r =>
    cases h
    refine .fill _ (by rw [hk]; trivial) trivial (by constructor <;> rfl) ?_
    unfold Prepared
    rw [hk]
    exact fun hp => ⟨hp, fun _ => take_overlay _ _⟩
  | store_lba r =>
    cases h
    refine .fill _ (by rw [hk]; trivial) trivial (by constructor <;> rfl) ?_
    unfold Prepared
    rw [hk]
    exact fun hp => ⟨hp.1, hp.2, rfl⟩
  | store_count r =>
    cases h
    refine .fill _ (by rw [hk]; trivial) trivial (by constructor <;> rfl) ?_
    unfold Prepared
    rw [hk]
    exact fun hp => ⟨hp.1, hp.2.2, rfl, hp.2.1⟩
  | clear_status r =>
    cases h
    refine .fill _ (by rw [hk]; trivial) trivial (by constructor <;> rfl) ?_
    unfold Prepared
    rw [hk]
    exact fun hp => ⟨⟨hp.asks, hp.lba, hp.count, hp.data⟩, rfl⟩
  | store_op r =>
    cases h
    exact .hand_over r hk
  | poll r k =>
    cases k with
    | zero =>
      cases h
      exact .give_up r hk
    | succ k =>
      dsimp only at h
      split_ifs at h with hst hread
      · cases h
        exact .wait r k hk hst
      · cases h
        exact .look r k hk hst hread.1
      · cases h
        exact .take r (.inr ⟨k, hk, hst⟩)
  | reread r =>
    cases h
    exact .take r (.inl hk)
  | copy_out r =>
    cases h
    exact .copy_out r hk
  | reset r ok out =>
    cases h
    exact .reset r ok out hk

/-- What a call does before its first access. -/
inductive CallStep (disk : Disk) (s : State sector_size) (r : Request sector_size) :
    State sector_size → Prop
  | refused (hempty : r.bytes = []) : CallStep disk s r
      { s with returns := s.returns ++ [⟨s.issued.length, r, false, []⟩] }
  | direct : CallStep disk s r { s with kernel := .direct r }
  | mailbox (hsome : disk = .ahci → r.count ≠ 0) (hactive : s.active = true) :
      CallStep disk s r { s with kernel := if r.write then .copy_in r else .store_lba r }

theorem Request.count_ne_zero (h : r.bytes ≠ []) : r.count ≠ 0 := by
  intro h0
  apply h
  apply eq_nil_of_length_eq_zero
  rw [r.len, h0]
  exact Nat.zero_mul _

theorem call_cases
    (h : call_step disk s r = some t) : s.kernel = .idle ∧ CallStep disk s r t := by
  unfold call_step at h
  cases hk : s.kernel with
  | idle =>
    rw [hk] at h
    dsimp only at h
    refine ⟨rfl, ?_⟩
    by_cases hempty : disk = .ahci ∧ r.bytes = []
    · rw [if_pos hempty, ← hk] at h
      cases h
      exact .refused hempty.2
    rw [if_neg hempty] at h
    by_cases hactive : s.active = false
    · rw [if_pos hactive] at h
      split at h
      · cases h
        exact .direct
      · simp at h
    · rw [if_neg hactive] at h
      cases h
      refine .mailbox (fun hd => Request.count_ne_zero fun hb => hempty ⟨hd, hb⟩) ?_
      exact Bool.eq_true_of_not_eq_false hactive
  | direct r | copy_in r | store_lba r | store_count r | clear_status r | store_op r
    | poll r k | reread r
  | copy_out r | reset r ok out | panicked => rw [hk] at h; simp at h

theorem prepared_call (hsome : r.Asks disk) :
    let t : State sector_size :=
      { s with kernel := if r.write then .copy_in r else .store_lba r }
    t.kernel.prepares ∧ Prepared disk t := by
  cases hw : r.write with
  | true => exact ⟨trivial, hsome⟩
  | false => exact ⟨trivial, hsome, fun h => absurd (hw.symm.trans h) (by decide)⟩

theorem kernel_stop (h : kernel_step disk s = some t) : t.mb.stop = s.mb.stop := by
  cases kernel_cases h with
  | fill _ _ _ hfill _ => exact hfill.stop
  | reset r ok out _ =>
    unfold State.return_from
    split
    · rfl
    · rfl
  | direct r _ => rfl
  | hand_over r _ => rfl
  | give_up r _ => rfl
  | wait r k _ _ => rfl
  | look r k _ _ _ => rfl
  | take r _ => rfl
  | copy_out r _ => rfl

theorem call_stop
    (h : call_step disk s r = some t) : t.mb.stop = s.mb.stop := by
  cases (call_cases h).2 with
  | refused _ => rfl
  | direct => rfl
  | mailbox _ _ => rfl

/-! ## Executing a read -/

/-- A read is executed when the disk returns as many bytes as were asked for. -/
theorem step_issue_read {disk : Disk} {a : Answer} {lba : UInt64}
    {count : UInt32} {n : ℕ} (hd : s.driver = .issue false lba count n)
    (hlen : a.bytes.length = sectors count * sector_size) :
    step disk s (.driver a) = some { s with
      mb := { s.mb with data := overlay a.bytes s.mb.data }
      driver := .store_status (if a.ok then .ok else .error)
      execs := s.execs ++ [⟨n, false, disk.first lba, sectors count, a.bytes, a.ok⟩] } := by
  unfold step driver_step
  rw [hd]
  dsimp only
  rw [if_pos hlen]
  rfl

/-- The driver had the sectors from `lba` on read, as the request with the number `n`, and has
reported it. -/
def executed (disk : Disk) (s : State sector_size) (lba : UInt64) (n : ℕ) (b : List UInt8) :
    State sector_size :=
  { s with
    mb := { s.mb with data := overlay b s.mb.data, status := .ok }
    driver := .clear_op
    execs := s.execs ++ [⟨n, false, disk.first lba, sectors s.mb.count, b, true⟩] }

theorem steps_executed {lba : UInt64} {n : ℕ}
    {b : List UInt8} (hdriver : s.driver = .read_count false lba n)
    (hlen : b.length = sectors s.mb.count * sector_size) :
    Steps (Next disk) s (List.replicate 3 (.driver ⟨true, b⟩)) (executed disk s lba n b) := by
  obtain ⟨⟨mb, driver, issued, execs⟩, kernel, stopper, active, consumed, returns, direct⟩ := s
  subst hdriver
  refine .next rfl ?_
  -- the transfer is the one step that looks at the bytes
  refine .next (step_issue_read rfl hlen) ?_
  exact .one rfl

/-- A read of one sector. -/
def read_one (lba : UInt64) : Request 512 where
  write := false
  lba := lba
  count := 1
  bytes := List.replicate 512 0
  len := length_replicate
  fits := by rw [length_replicate]; decide

/-- What a disk may return for it. -/
def sector : List UInt8 := List.replicate 512 7

theorem length_sector : sector.length = 512 := length_replicate

/-- Sector `lba` was asked for and the driver has read the `lba`; the kernel has `k` rounds
left. -/
def taken_up (lba : UInt64) (k : ℕ) : State 512 :=
  { State.start 512 with
    mb := ⟨.read, .pending, lba, 1, List.replicate 4096 0, false⟩
    driver := .read_count false lba 1
    issued := [read_one lba]
    kernel := .poll (read_one lba) k }

theorem steps_taken_up (disk : Disk) (lba : UInt64) (a : Answer) :
    Steps (Next disk) (State.start 512)
      (.call (read_one lba) :: (List.replicate 4 .kernel ++ List.replicate 3 (.driver a)))
      (taken_up lba MAILBOX_WAIT_SPINS) := by
  cases disk with
  | nvme | ahci => exact .of_run _ rfl

end HepOS.Mailbox
