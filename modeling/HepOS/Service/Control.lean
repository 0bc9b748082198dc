/-
Starting and stopping the driver processes.

Every driver has a `start_service`, a `stop_service` and a first launch that `task_blink` makes
when the scheduler is up. `start_service` looks whether the driver is enabled and whether it
is running, claims the flag `STARTING`, queues a launch and waits until the process is in the
process table. A launch that is queued is not in the table yet: it gets there when the task
that was spawned for it has its turn. `stop_service` sets a flag the driver looks at and waits
until the process is gone. Two tasks make these calls, `task_blink` for shell commands and
`task_svc_worker` for the system call, and either of them can be stopped between any two
accesses.

`rtl8139`, `hda`, `ahci` and `xhci` do the same thing. `nvme` hands the queue over before it
launches `nvmed` and makes the mailbox active when it has seen it run, and its first launch
waits as well; `framebuffer` takes the mailbox pointer for a sign that `gopd` was launched, and
`task_blink` makes its first launch anew in every round.
-/
import HepOS.Lib.Trace

set_option autoImplicit false

namespace HepOS.Service

open Trace

/-! ## The services -/

/-- The tasks that start and stop services. -/
inductive Task
  | blink | svc_worker
deriving DecidableEq, Repr

instance {P : Task → Prop} [DecidablePred P] : Decidable (∀ t, P t) :=
  decidable_of_iff (P .blink ∧ P .svc_worker)
    ⟨fun h t => match t with
      | .blink => h.1
      | .svc_worker => h.2,
    fun h => ⟨h .blink, h .svc_worker⟩⟩

inductive Kind
  /-- `rtl8139d`, `hdad`, `ahcid`, `xhcid` -/
  | plain
  | nvme
  | gopd
deriving DecidableEq, Repr

/-- A service; `built` says that there is something to launch: the ELF image is not empty and the
hardware, or the back buffer of the display, is there. -/
structure Config where
  kind : Kind
  built : Bool
deriving DecidableEq, Repr

/-- Where a task is in one of the calls. `guarded` marks a launch by `start_service`, which holds
`STARTING`. -/
inductive Place
  | idle
  /-- `is_enabled()` was true -/
  | start_running
  /-- `is_running()` was false -/
  | start_claim
  /-- about to set up the mailbox -/
  | launch (guarded : Bool)
  /-- about to call `exec_async_with_arg` -/
  | exec (guarded : Bool)
  | wait (guarded : Bool)
  /-- `nvme` looks once more after the wait -/
  | confirm (guarded : Bool)
  /-- `nvme` makes the mailbox active -/
  | take_over (guarded : Bool)
  /-- about to clear `STARTING` and return -/
  | release (ok : Bool)
  /-- `is_running()` was true -/
  | stop_mailbox
  | stop_store
  | stop_wait
  /-- `is_running()` was false: `nvme` takes the queue back, `gopd` loses its mailbox -/
  | stop_finish
deriving DecidableEq, Repr

/-- What happened; for the statements only. -/
inductive Event
  | launched (guarded : Bool)
  | start_ok
  | stop_ok
deriving DecidableEq, Repr

structure State where
  enabled : Bool
  /-- `STARTING` -/
  starting : Bool
  /-- the first launch is still to be made: `PENDING_DRIVER_MAILBOX`, `HANDED_OFF` -/
  first : Bool
  /-- `nvme`: the mailbox is active; `gopd`: `mailbox_virt` is not null -/
  mailbox : Bool
  stop : Bool
  /-- launches that are not in the process table yet -/
  pending : ℕ
  /-- processes of the service in the table that are running -/
  running : ℕ
  place : Task → Place
  log : List Event

section

variable (cfg : Config) (s : State)

/-- After boot. `init` leaves a first launch to be made when there is something to launch. -/
def State.start : State where
  enabled := true
  starting := false
  first := match cfg.kind with
    | .plain => cfg.built
    | .nvme => true
    | .gopd => false
  mailbox := false
  stop := false
  pending := 0
  running := 0
  place := fun _ => .idle
  log := []

/-! ## Calls -/

def State.at (t : Task) (p : Place) : State :=
  { s with place := Function.update s.place t p }

/-- `exec_async_with_arg`. -/
def State.queue (guarded : Bool) : State :=
  { s with pending := s.pending + 1, log := s.log ++ [.launched guarded] }

/-- The end of a launch: `start_service` still has to clear `STARTING`. -/
def finished (guarded ok : Bool) : Place := if guarded then .release ok else .idle

inductive Call
  | start | stop
  /-- `spawn_pending_driver`, `spawn_gopd` -/
  | spawn
deriving DecidableEq, Repr

/-- The first launch, from the head of the loop of `task_blink`. -/
def spawn_step : State :=
  match cfg.kind with
  | .plain => if s.first then { s with first := false }.queue false else s
  | .nvme => if s.first then { s with first := false }.at .blink (.launch false) else s
  | .gopd =>
    if s.mailbox = false ∧ cfg.built then { s with mailbox := true, stop := false }.queue false
    else s

def call_step (t : Task) (c : Call) : Option State :=
  match s.place t, c with
  | .idle, .start => some (if s.enabled then s.at t .start_running else s)
  | .idle, .stop => some (if s.running ≠ 0 then s.at t .stop_mailbox else s)
  | .idle, .spawn => if t = .blink then some (spawn_step cfg s) else none
  | _, _ => none

/-- Setting up the mailbox, at the place `.launch guarded`. -/
def launch_step (t : Task) (guarded : Bool) : State :=
  match cfg.kind with
  | .gopd =>
    -- `spawn_gopd` again, with the display locked
    if s.mailbox = false ∧ cfg.built then
      ({ s with mailbox := true, stop := false }.queue guarded).at t (.wait guarded)
    else s.at t (finished guarded false)
  | _ =>
    if cfg.built then { s with stop := false }.at t (.exec guarded)
    else s.at t (finished guarded false)

/-- The next access of a task. -/
def go (t : Task) : Option State :=
  match s.place t with
  | .idle => none
  | .start_running => some (if s.running = 0 then s.at t .start_claim else s.at t .idle)
  | .start_claim =>
    some (if s.starting then s.at t .idle else { s with starting := true }.at t (.launch true))
  | .launch guarded => some (launch_step cfg s t guarded)
  | .exec guarded => some ((s.queue guarded).at t (.wait guarded))
  | .wait guarded =>
    if s.running = 0 then none
    else if cfg.kind = .nvme then some (s.at t (.confirm guarded))
    else some (s.at t (finished guarded true))
  | .confirm guarded =>
    some (if s.running = 0 then s.at t (finished guarded false) else s.at t (.take_over guarded))
  | .take_over guarded => some ({ s with mailbox := true }.at t (finished guarded true))
  | .release ok =>
    some ({ s with starting := false, log := if ok then s.log ++ [Event.start_ok]
      else s.log }.at t .idle)
  | .stop_mailbox =>
    some (if cfg.kind = .plain ∨ s.mailbox then s.at t .stop_store else s.at t .idle)
  | .stop_store => some ({ s with stop := true }.at t .stop_wait)
  | .stop_wait =>
    if s.running ≠ 0 then none
    else if cfg.kind = .plain then some ({ s with log := s.log ++ [Event.stop_ok] }.at t .idle)
    else some (s.at t .stop_finish)
  | .stop_finish =>
    some ({ s with mailbox := false, log := s.log ++ [Event.stop_ok] }.at t .idle)

/-- A wait that has used up its rounds. -/
def give_up (t : Task) : Option State :=
  match s.place t with
  | .wait guarded =>
    if s.running ≠ 0 then none
    else if cfg.kind = .nvme then some (s.at t (.confirm guarded))
    else some (s.at t (finished guarded false))
  | .stop_wait => if s.running = 0 then none else some (s.at t .idle)
  | _ => none

/-! ## The system -/

inductive Label
  | call (t : Task) (c : Call)
  | go (t : Task)
  | give_up (t : Task)
  /-- the task of a launch has its turn: the process is in the table -/
  | register
  /-- a process is gone, because it was told to stop or because it failed -/
  | exit
  | enable (v : Bool)
deriving DecidableEq, Repr

def step : Label → Option State
  | .call t c => call_step cfg s t c
  | .go t => go cfg s t
  | .give_up t => give_up cfg s t
  | .register =>
    if s.pending = 0 then none
    else some { s with pending := s.pending - 1, running := s.running + 1 }
  | .exit => if s.running = 0 then none else some { s with running := s.running - 1 }
  | .enable v => some { s with enabled := v }

def Next (a : Label) (t : State) : Prop := step cfg s a = some t

end

end HepOS.Service
