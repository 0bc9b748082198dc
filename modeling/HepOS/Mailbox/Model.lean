/-
The mailbox between the kernel and a disk driver process, one memory access at a time.

`nvme.rs` with `nvmed` and `ahci.rs` with `ahcid` use the same scheme. The kernel fills in
`lba` and `count` (and `data` for a write), clears `status`, stores `op` and then polls
`status` for a bounded number of times. The driver looks at `stop` and `op` once in every
round of its loop; when there is a request it reads `lba` and `count`, has the hardware do
the transfer, stores `status` and then sets `op` back to 0. Either side can be stopped
between any two of these accesses, so every one of them is a step of its own here.

One kernel transaction runs at a time: `read_blocks` and `write_blocks` are called with the
controller locked, `read_sectors` and `write_sectors` take a lock of their own. The lists in
`Service` and `State` are there for the statements only. They record which requests were handed
over, what the driver made the hardware do, which status the kernel took for an answer, and
what the calls returned; nothing reads them.
-/
import HepOS.Lib.Trace

set_option autoImplicit false

namespace HepOS.Mailbox

/-! ## The shared fields -/

/-- `op`: 0 is idle, 1 is a read request, 2 a write request. -/
inductive Op
  | idle | read | write
deriving DecidableEq, Repr

/-- `status`: 0 is pending, 1 is done, 2 is done with an error. -/
inductive Status
  | pending | ok | error
deriving DecidableEq, Repr

/-- The fields of `Mailbox` both sides use while the driver runs. -/
structure Fields where
  op : Op
  status : Status
  lba : UInt64
  count : UInt32
  data : List UInt8
  stop : Bool
deriving DecidableEq, Repr

/-- The two users of the scheme. -/
inductive Disk
  | nvme | ahci
deriving DecidableEq, Repr

def MAILBOX_WAIT_SPINS : ℕ := 500000000

/-- A transfer the kernel is asked for: `bytes` is the caller's buffer. Longer ones are
refused before the mailbox is touched. -/
structure Request (sector_size : ℕ) where
  write : Bool
  lba : UInt64
  count : UInt16
  bytes : List UInt8
  len : bytes.length = count.toNat * sector_size
  fits : bytes.length ≤ 4096

section

variable {sector_size : ℕ} (disk : Disk)

def Request.op (r : Request sector_size) : Op := if r.write then .write else .read

/-- `copy_nonoverlapping` of all of `b` to the start of `d`. -/
def overlay (b d : List UInt8) : List UInt8 := b ++ d.drop b.length

theorem take_overlay (b d : List UInt8) : (overlay b d).take b.length = b := List.take_left

/-- The number of sectors a command moves: it holds `count.saturating_sub(1)`, and the device
moves one more than that. `ahcid` is never handed a count of 0. -/
def sectors (count : UInt32) : ℕ := count.toNat - 1 + 1

/-- The address in the command of `ahcid`. -/
structure FisRegH2D where
  (lba0 lba1 lba2 lba3 lba4 lba5 : UInt8)

def lba_fis (lba : UInt64) : FisRegH2D where
  lba0 := lba.toUInt8
  lba1 := (lba >>> 8).toUInt8
  lba2 := (lba >>> 16).toUInt8
  lba3 := (lba >>> 24).toUInt8
  lba4 := (lba >>> 32).toUInt8
  lba5 := (lba >>> 40).toUInt8

/-- The sector the device finds in it. -/
def FisRegH2D.lba (f : FisRegH2D) : ℕ :=
  f.lba0.toNat + f.lba1.toNat * 2 ^ 8 + f.lba2.toNat * 2 ^ 16 + f.lba3.toNat * 2 ^ 24
    + f.lba4.toNat * 2 ^ 32 + f.lba5.toNat * 2 ^ 40

/-- The sector a command starts at. That of `nvmed` holds both halves of the `lba`, that of
`ahcid` only six of its bytes. -/
def Disk.first (lba : UInt64) : UInt64 :=
  match disk with
  | .nvme => lba
  | .ahci => UInt64.ofNat (lba_fis lba).lba

/-! ## The parties -/

/-- Where the kernel is in a transaction. -/
inductive Kernel (sector_size : ℕ)
  | idle
  /-- no mailbox: `read_blocks_direct`, `write_blocks_direct` -/
  | direct (r : Request sector_size)
  | copy_in (r : Request sector_size)
  | store_lba (r : Request sector_size)
  | store_count (r : Request sector_size)
  | clear_status (r : Request sector_size)
  | store_op (r : Request sector_size)
  /-- in the loop on `status`, with `k` rounds left -/
  | poll (r : Request sector_size) (k : ℕ)
  /-- `read_sectors` reads `status` once more to see which one it is -/
  | reread (r : Request sector_size)
  | copy_out (r : Request sector_size)
  /-- about to set `status` back to 0 and return `ok` -/
  | reset (r : Request sector_size) (ok : Bool) (out : List UInt8)
  /-- an `assert!` failed -/
  | panicked

/-- Where the driver is in its loop, with what it has read. The number says which request
stored the `op` it acts on; it is not part of the program. -/
inductive Driver
  | top
  | read_op
  | read_lba (write : Bool) (n : ℕ)
  | read_count (write : Bool) (lba : UInt64) (n : ℕ)
  | issue (write : Bool) (lba : UInt64) (count : UInt32) (n : ℕ)
  | store_status (st : Status)
  | clear_op
  /-- the end of the round: queue position, waiting for the timer -/
  | rest
  | exited
deriving DecidableEq, Repr

/-- Where `stop_service` is, on another task. -/
inductive Stopper
  | idle
  /-- it has the mailbox pointer -/
  | got
  /-- `stop` is set, waiting for the process to be gone -/
  | stopping
deriving DecidableEq, Repr

/-- One transfer by the hardware: what the command asked for, the bytes that were moved and
whether it succeeded. Nothing is moved for it later on. -/
structure Exec where
  serial : ℕ
  write : Bool
  lba : UInt64
  count : ℕ
  data : List UInt8
  ok : Bool

/-- What the driver reports of a transfer. -/
def Exec.status (e : Exec) : Status := if e.ok then .ok else .error

/-- A call that came back: `out` is what a read copied to the caller's buffer. -/
structure Return (sector_size : ℕ) where
  serial : ℕ
  request : Request sector_size
  ok : Bool
  out : List UInt8

/-- The mailbox and the driver, with the requests that were handed over and what was done. -/
structure Service (sector_size : ℕ) where
  mb : Fields
  driver : Driver
  issued : List (Request sector_size)
  execs : List Exec

structure State (sector_size : ℕ) extends Service sector_size where
  kernel : Kernel sector_size
  stopper : Stopper
  /-- `ctrl.mailbox.is_some()` -/
  active : Bool
  consumed : List (ℕ × Status)
  returns : List (Return sector_size)
  direct : List (Request sector_size)

/-- A fresh mailbox, the kernel idle and the driver about to start its loop. -/
def State.start (sector_size : ℕ) : State sector_size where
  mb := ⟨.idle, .pending, 0, 0, List.replicate 4096 0, false⟩
  driver := .top
  issued := []
  execs := []
  kernel := .idle
  stopper := .idle
  active := true
  consumed := []
  returns := []
  direct := []

/-! ## Steps of the kernel -/

/-- After `status` was read as `st`: the first branch of `if ok` copies the data of a read
out. -/
def State.decide_status (s : State sector_size) (r : Request sector_size) (st : Status) :
    State sector_size :=
  { s with
    consumed := s.consumed ++ [(s.issued.length, st)]
    kernel :=
      if st = .ok then (if r.write then .reset r true [] else .copy_out r)
      else .reset r false [] }

/-- `read_blocks` and `write_blocks` assert that the transfer succeeded, `read_sectors` and
`write_sectors` return whether it did. -/
def State.return_from (s : State sector_size) (r : Request sector_size) (ok : Bool)
    (out : List UInt8) : State sector_size :=
  if ok = false ∧ disk = .nvme then { s with kernel := .panicked }
  else { s with
    kernel := .idle
    returns := s.returns ++ [⟨s.issued.length, r, ok, out⟩] }

def kernel_step (s : State sector_size) : Option (State sector_size) :=
  match s.kernel with
  | .idle => none
  | .panicked => none
  | .direct r => some { s with kernel := .idle, direct := s.direct ++ [r] }
  | .copy_in r =>
    some { s with mb := { s.mb with data := overlay r.bytes s.mb.data }, kernel := .store_lba r }
  | .store_lba r => some { s with mb := { s.mb with lba := r.lba }, kernel := .store_count r }
  | .store_count r =>
    some { s with mb := { s.mb with count := r.count.toUInt32 }, kernel := .clear_status r }
  | .clear_status r =>
    some { s with mb := { s.mb with status := .pending }, kernel := .store_op r }
  | .store_op r =>
    some { s with
      mb := { s.mb with op := r.op }
      kernel := .poll r MAILBOX_WAIT_SPINS
      issued := s.issued ++ [r] }
  | .poll r 0 => some { s with kernel := .reset r false [] }
  | .poll r (k + 1) =>
    if s.mb.status = .pending then some { s with kernel := .poll r k }
    else if disk = .ahci ∧ r.write = false then some { s with kernel := .reread r }
    else some (s.decide_status r s.mb.status)
  | .reread r => some (s.decide_status r s.mb.status)
  | .copy_out r =>
    some { s with kernel := .reset r true (s.mb.data.take r.bytes.length) }
  | .reset r ok out =>
    some (State.return_from disk { s with mb := { s.mb with status := .pending } } r ok out)

/-- A call: through the mailbox when there is one, directly otherwise. AHCI refuses to move
nothing and has no direct path. -/
def call_step (s : State sector_size) (r : Request sector_size) :
    Option (State sector_size) :=
  match s.kernel with
  | .idle =>
    if disk = .ahci ∧ r.bytes = [] then
      some { s with returns := s.returns ++ [⟨s.issued.length, r, false, []⟩] }
    else if s.active = false then
      if disk = .nvme then some { s with kernel := .direct r } else none
    else some { s with kernel := if r.write then .copy_in r else .store_lba r }
  | _ => none

/-! ## Steps of the driver -/

/-- What the hardware does with a command. -/
structure Answer where
  ok : Bool
  bytes : List UInt8

def driver_step (s : Service sector_size) (a : Answer) : Option (Service sector_size) :=
  match s.driver with
  | .top => some { s with driver := if s.mb.stop then .exited else .read_op }
  | .read_op =>
    some { s with driver :=
      if s.mb.op = .idle then .rest else .read_lba (s.mb.op = .write) s.issued.length }
  | .read_lba write n => some { s with driver := .read_count write s.mb.lba n }
  | .read_count write lba n => some { s with driver := .issue write lba s.mb.count n }
  | .issue true lba count n =>
    -- the hardware takes the data out of the mailbox
    some { s with
      driver := .store_status (if a.ok then .ok else .error)
      execs := s.execs ++
        [⟨n, true, disk.first lba, sectors count,
          s.mb.data.take (sectors count * sector_size), a.ok⟩] }
  | .issue false lba count n =>
    -- the hardware puts what it read into the mailbox
    if a.bytes.length = sectors count * sector_size then
      some { s with
        mb := { s.mb with data := overlay a.bytes s.mb.data }
        driver := .store_status (if a.ok then .ok else .error)
        execs := s.execs ++ [⟨n, false, disk.first lba, sectors count, a.bytes, a.ok⟩] }
    else none
  | .store_status st => some { s with mb := { s.mb with status := st }, driver := .clear_op }
  | .clear_op => some { s with mb := { s.mb with op := .idle }, driver := .rest }
  | .rest => some { s with driver := .top }
  | .exited => none

/-! ## Steps of `stop_service` -/

/-- `stop_service` of NVMe. Taking the mailbox pointer and giving the queue back to the kernel need
the controller lock, which a transaction holds to its end. -/
def stop_step (s : State sector_size) : Option (State sector_size) :=
  match s.stopper, s.kernel with
  | .idle, .idle =>
    if s.driver ≠ .exited ∧ s.active = true then some { s with stopper := .got } else none
  | .got, _ => some { s with mb := { s.mb with stop := true }, stopper := .stopping }
  | .stopping, .idle =>
    if s.driver = .exited then some { s with active := false, stopper := .idle } else none
  | _, _ => none

/-! ## The system -/

inductive Label (sector_size : ℕ)
  | call (r : Request sector_size)
  | kernel
  | driver (a : Answer)
  | stop
  /-- `stop_service` returns without having seen the process exit -/
  | stop_timeout

def step (s : State sector_size) : Label sector_size → Option (State sector_size)
  | .call r => call_step disk s r
  | .kernel => kernel_step disk s
  | .driver a => (driver_step disk s.toService a).map fun v => { s with toService := v }
  | .stop => if disk = .nvme then stop_step s else none
  | .stop_timeout =>
    if disk = .nvme ∧ s.stopper = .stopping then some { s with stopper := .idle } else none

/-- The step relation. -/
def Next (s : State sector_size) (a : Label sector_size) (t : State sector_size) :
    Prop := step disk s a = some t

end

end HepOS.Mailbox
