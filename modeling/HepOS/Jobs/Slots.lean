/-
The job slots of the system calls (`FS_JOB` and `SVC_JOB` in `syscall.rs`) and the task that serves
them (`task_svc_worker` in `main.rs`).

A system call runs with interrupts off, so a submission and a poll are one step each. They use
`try_lock`, and come away with `EAGAIN` when the worker was preempted with the lock in its hands.
The worker runs with interrupts on and holds the lock from the moment it looks at the job until the
result is stored, however long that takes; in `fs_service` it may also find the controller busy and
come back later. Its steps are those between which another task can run.

Each slot is a slot in the sense of `HepOS.Lib.Slot`: every step of the system is a run of slot
steps (`Next.fs_runs`, `Next.svc_runs`), and the guarantees of the protocol follow for any number of
processes and any interleaving.
-/
import HepOS.Callers.Jobs
import HepOS.Lib.Slot

set_option autoImplicit false

namespace HepOS.Jobs

open Callers Hoare Handover Trace Bool Option

/-! ## The calls -/

abbrev Pid := ℕ

def EAGAIN : ℤ := -11
def EBUSY : ℤ := -16
def ENOSYS : ℤ := -38

section

variable {J : Type}

/-- `try_lock`, the look at the slot, and the store: the same in `submit_fs_job` and in
`sys_service_ctl`. -/
def submit (s : Slot Pid J) (p : Pid) (j : J) : ℤ × Slot Pid J :=
  if s.held then (EAGAIN, s)
  else if s.entry.isSome then (EBUSY, s)
  else (0, s.accept p j)

/-- `try_lock`, the look at the job, and its removal: the same in `sys_fs_poll` and in
`sys_service_poll`. -/
def poll (done : J → Bool) (s : Slot Pid J) (p : Pid) : Except ℤ J × Slot Pid J :=
  if s.held then (.error EAGAIN, s)
  else match s.entry with
    | none => (.error ENOENT, s)
    | some e => if done e.job then (.ok e.job, s.collect p e) else (.error EBUSY, s)

end

def submit_fs_job (s : Slot Pid FsJob) (p : Pid) (op : FsOp) (path : String) : ℤ × Slot Pid FsJob :=
  submit s p (FsJob.new op path)

/-- The returned number, and the bytes that are copied to the caller. -/
def sys_fs_poll (s : Slot Pid FsJob) (p : Pid) (out_ptr out_cap : UInt64) :
    (ℤ × List UInt8) × Slot Pid FsJob :=
  match poll FsJob.done s p with
  | (.error code, s) => ((code, []), s)
  | (.ok job, s) =>
    ((job.result, if out_ptr ≠ 0 ∧ out_cap ≠ 0 then job.out_data.take out_cap.toNat else []), s)

inductive Service where
  | rtl8139d
  | hdad
  | ahcid
  | xhcid
deriving DecidableEq, Repr

def service_name (id : UInt64) : Option Service :=
  if id = 0 then some .rtl8139d
  else if id = 1 then some .hdad
  else if id = 2 then some .ahcid
  else if id = 3 then some .xhcid
  else none

inductive SvcAction where
  | Status
  | Start
  | Stop
  | Enable
  | Disable
deriving DecidableEq, Repr

def parse_svc_action (a : UInt64) : Option SvcAction :=
  if a = 0 then some .Status
  else if a = 1 then some .Start
  else if a = 2 then some .Stop
  else if a = 3 then some .Enable
  else if a = 4 then some .Disable
  else none

structure SvcJob where
  name : Service
  start : Bool
  done : Bool
  result : ℤ
deriving DecidableEq, Repr

/-- `is_enabled` and `is_running` of each driver. -/
structure Services where
  enabled : Service → Bool
  running : Service → Bool

def sys_service_ctl (services : Services) (s : Slot Pid SvcJob) (p : Pid)
    (service_id action : UInt64) :
    ℤ × Services × Slot Pid SvcJob :=
  match service_name service_id with
  | none => (ENOENT, services, s)
  | some name =>
    match parse_svc_action action with
    | none => (ENOSYS, services, s)
    | some .Status =>
      ((if services.enabled name then 2 else 0) + (if services.running name then 1 else 0),
        services, s)
    | some .Enable =>
      (0, { services with enabled := Function.update services.enabled name true }, s)
    | some .Disable =>
      (0, { services with enabled := Function.update services.enabled name false }, s)
    | some .Start =>
      let (code, s) := submit s p ⟨name, true, false, 0⟩
      (code, services, s)
    | some .Stop =>
      let (code, s) := submit s p ⟨name, false, false, 0⟩
      (code, services, s)

def sys_service_poll (s : Slot Pid SvcJob) (p : Pid) : ℤ × Slot Pid SvcJob :=
  match poll SvcJob.done s p with
  | (.error code, s) => (code, s)
  | (.ok job, s) => (job.result, s)

/-! ## The worker -/

/-- Where `task_svc_worker` is: in front of a function, with the lock taken, or in the middle of a
job. The last four are `has_pending_job`, which takes both locks for a look. -/
inductive Pc where
  | fs_service
  | fs_locked
  | fs_running
  | svc_service
  | svc_locked
  | svc_running
  | pending_fs
  | pending_fs_locked
  | pending_svc
  | pending_svc_locked
deriving DecidableEq, Repr

/-- What a call returned to a process. -/
inductive Seen where
  | submitted (code : ℤ)
  | polled (code : ℤ) (data : List UInt8)
deriving DecidableEq, Repr

structure State where
  fs : Slot Pid FsJob
  svc : Slot Pid SvcJob
  pc : Pc
  disk : Session
  /-- `nvme::CONTROLLER` holds a controller -/
  controller : Bool
  services : Services
  seen : List (Pid × Seen)

def State.start (disk : Session) (controller : Bool) (services : Services) : State :=
  ⟨Slot.empty, Slot.empty, .fs_service, disk, controller, services, []⟩

/-- A job without a controller. -/
def no_device (job : FsJob) : FsJob := { job with result := ENOENT, done := true }

/-- A service job whose driver function has returned. -/
def SvcJob.served (job : SvcJob) (ok : Bool) : SvcJob :=
  { job with result := if ok then 0 else -1, done := true }

/-- Behind the look at the job in `fs_service`, when there is something to do. -/
def State.take_fs_job (s : State) (e : Entry Pid FsJob) : State :=
  if s.controller then { s with fs := s.fs.start e, pc := .fs_running }
  else { s with fs := ((s.fs.start e).finish e (no_device e.job)).hold false, pc := .svc_service }

def State.leave_fs (s : State) : State := { s with fs := s.fs.hold false, pc := .svc_service }

def State.leave_svc (s : State) : State := { s with svc := s.svc.hold false, pc := .pending_fs }

/-- One step of the worker. `busy` says whether somebody else has the controller, `ok` what the
driver function returns. A panic of HepFS stops everything. -/
def State.work (s : State) (busy ok : Bool) : Option State :=
  match s.pc with
  | .fs_service => some { s with fs := s.fs.hold true, pc := .fs_locked }
  | .fs_locked =>
    match s.fs.entry with
    | none => some s.leave_fs
    | some e =>
      if e.job.done then some s.leave_fs else if busy then some s.leave_fs
        else some (s.take_fs_job e)
  | .fs_running =>
    match s.fs.running with
    | none => none
    | some e =>
      match fs_service e.job s.disk with
      | .ok job disk =>
        some { s with fs := (s.fs.finish e job).hold false, disk := disk, pc := .svc_service }
      | .error _ _ => none
  | .svc_service => some { s with svc := s.svc.hold true, pc := .svc_locked }
  | .svc_locked =>
    match s.svc.entry with
    | none => some s.leave_svc
    | some e =>
      if e.job.done then some s.leave_svc
        else some { s with svc := s.svc.start e, pc := .svc_running }
  | .svc_running =>
    match s.svc.running with
    | none => none
    | some e =>
      some { s with svc := (s.svc.finish e (e.job.served ok)).hold false, pc := .pending_fs }
  | .pending_fs => some { s with fs := s.fs.hold true, pc := .pending_fs_locked }
  | .pending_fs_locked => some { s with fs := s.fs.hold false, pc := .pending_svc }
  | .pending_svc => some { s with svc := s.svc.hold true, pc := .pending_svc_locked }
  -- then `sleep_ms`, if nothing is pending
  | .pending_svc_locked => some { s with svc := s.svc.hold false, pc := .fs_service }

/-! ## Runs -/

inductive Label where
  | submit (p : Pid) (op : FsOp) (path : String)
  | fs_poll (p : Pid) (out_ptr out_cap : UInt64)
  | service_ctl (p : Pid) (service_id action : UInt64)
  | service_poll (p : Pid)
  | work (busy ok : Bool)
  /-- other tasks: the file system, the controller and the drivers change -/
  | other (controller : Bool) (services : Services)

/-- The steps of processes and worker. -/
def State.next (s : State) : Label → Option State
  | .submit p op path =>
    let (code, fs) := submit_fs_job s.fs p op path
    some { s with fs := fs, seen := s.seen ++ [(p, .submitted code)] }
  | .fs_poll p out_ptr out_cap =>
    let ((code, data), fs) := sys_fs_poll s.fs p out_ptr out_cap
    some { s with fs := fs, seen := s.seen ++ [(p, .polled code data)] }
  | .service_ctl p service_id action =>
    let (code, services, svc) := sys_service_ctl s.services s.svc p service_id action
    some { s with services := services, svc := svc, seen := s.seen ++ [(p, .submitted code)] }
  | .service_poll p =>
    let (code, svc) := sys_service_poll s.svc p
    some { s with svc := svc, seen := s.seen ++ [(p, .polled code [])] }
  | .work busy ok => s.work busy ok
  | .other _ _ => none

/-- Other tasks leave the disk alone while the worker has the controller. -/
inductive Next (s : State) : Label → State → Prop
  | call {a : Label} {t : State} (h : s.next a = some t) : Next s a t
  | other {controller : Bool} {services : Services} {disk : Session}
      (h : s.pc = .fs_running → disk = s.disk ∧ controller = s.controller) :
      Next s (.other controller services)
        { s with disk := disk, controller := controller, services := services }

/-! ## The outcome of a job -/

/-- What a file system job asks for. -/
def fs_req (job : FsJob) : FsOp × String := (job.op, job.path)

def SvcJob.req (job : SvcJob) : Service × Bool := (job.name, job.start)

/-- `fs_service` with or without a controller. -/
def ExecFs (job job' : FsJob) : Prop :=
  (∃ disk disk', fs_service job disk = .ok job' disk') ∨ job' = no_device job

def ExecSvc (job job' : SvcJob) : Prop := ∃ ok, job' = job.served ok

section

variable {job : FsJob}

/-- Whatever comes of the program, the job asks for the same. -/
structure Keeps (job : FsJob) (x : CallM FsJob) : Prop where
  post : ∀ σ, Post x σ (fun job' _ => fs_req job' = fs_req job) fun _ _ => True

theorem Keeps.pure {job' : FsJob} (h : fs_req job' = fs_req job) : Keeps job (Pure.pure job') :=
  ⟨fun _ => Post.pure h⟩

theorem Keeps.bind {α : Type} {x : CallM α} {f : α → CallM FsJob} (h : ∀ a, Keeps job (f a)) :
    Keeps job (x >>= f) := by
  refine ⟨fun σ => Post.bind ?_⟩
  rw [Post]
  cases x σ with
  | ok a σ' => exact (h a).post σ'
  | error e σ' => exact trivial

theorem Keeps.ite {c : Prop} [Decidable c] {x y : CallM FsJob} (hx : Keeps job x)
    (hy : Keeps job y) :
    Keeps job (if c then x else y) := by
  split
  · exact hx
  · exact hy

theorem keeps_list_dir (job : FsJob) : Keeps job job.list_dir := by
  refine Keeps.bind fun found => ?_
  cases found with
  | none => exact Keeps.pure rfl
  | some ino =>
    exact Keeps.bind fun _ => Keeps.ite (Keeps.bind fun _ => Keeps.pure rfl) (Keeps.pure rfl)

theorem keeps_read_file (job : FsJob) : Keeps job job.read_file := by
  refine Keeps.bind fun found => ?_
  cases found with
  | none => exact Keeps.pure rfl
  | some ino =>
    exact Keeps.bind fun _ => Keeps.ite (Keeps.pure rfl) (Keeps.bind fun _ => Keeps.pure rfl)

theorem keeps_put (job : FsJob) (ino : UInt32) (data : List UInt8) : Keeps job (job.put ino data) :=
  Keeps.bind fun _ => Keeps.pure rfl

theorem keeps_write_file (job : FsJob) (data : List UInt8) : Keeps job (job.write_file data) := by
  refine Keeps.bind fun found => ?_
  cases found with
  | some ino => exact Keeps.bind fun _ => Keeps.ite (Keeps.pure rfl) (keeps_put job ino data)
  | none =>
    rcases split_path job.path with ⟨parent, name⟩
    refine Keeps.bind fun parent => ?_
    cases parent with
    | none => exact Keeps.pure rfl
    | some parent_ino => exact Keeps.bind fun ino => keeps_put job ino data

theorem keeps_create (job : FsJob) (is_dir : Bool) : Keeps job (job.create is_dir) := by
  rcases split_path job.path with ⟨parent, name⟩
  refine Keeps.bind fun parent => ?_
  cases parent with
  | none => exact Keeps.pure rfl
  | some parent_ino =>
    exact Keeps.ite (Keeps.bind fun _ => Keeps.pure rfl) (Keeps.bind fun _ => Keeps.pure rfl)

theorem keeps_perform (job : FsJob) : Keeps job job.perform := by
  unfold FsJob.perform
  cases job.op with
  | ListDir => exact keeps_list_dir job
  | ReadFile => exact keeps_read_file job
  | WriteFile data => exact keeps_write_file job data
  | Create is_dir => exact keeps_create job is_dir

end

/-- A job that has been executed is done, and still the same job. -/
theorem execFs_spec (job job' : FsJob) (h : ExecFs job job') :
    job'.done = true ∧ fs_req job' = fs_req job := by
  rcases h with ⟨σ, σ', hrun⟩ | rfl
  · unfold fs_service at hrun
    split_ifs at hrun with hdone
    · cases hrun
      exact ⟨hdone, rfl⟩
    · obtain ⟨job1, σ1, hperform, hpure⟩ := exists_of_bind_ok hrun
      cases hpure
      have hreq := ((keeps_perform job).post σ).of_ok hperform
      exact ⟨rfl, hreq⟩
  · exact ⟨rfl, rfl⟩

theorem execSvc_spec (job job' : SvcJob) (h : ExecSvc job job') :
    job'.done = true ∧ job'.req = job.req := by
  obtain ⟨ok, rfl⟩ := h
  exact ⟨rfl, rfl⟩

/-! ## The system and its slots -/

def Pc.holds_fs : Pc → Bool
  | .fs_locked | .fs_running | .pending_fs_locked => true
  | _ => false

def Pc.holds_svc : Pc → Bool
  | .svc_locked | .svc_running | .pending_svc_locked => true
  | _ => false

/-- The locks are held, and jobs are under way, where the worker is at them. -/
structure Placed (s : State) : Prop where
  fs_held : s.fs.held = s.pc.holds_fs
  svc_held : s.svc.held = s.pc.holds_svc
  fs_running : s.pc ≠ .fs_running → s.fs.running = none
  svc_running : s.pc ≠ .svc_running → s.svc.running = none

/-- Both slots take steps of the protocol. -/
structure Moves (s t : State) : Prop where
  placed : Placed t
  fs : Runs FsJob.done ExecFs s.fs t.fs
  svc : Runs SvcJob.done ExecSvc s.svc t.svc

section

variable {J : Type} {done : J → Bool} {exec : J → J → Prop} {s : Slot Pid J}

theorem submit_spec (s : Slot Pid J) (p : Pid) {j : J} (hnew : done j = false) :
    Step done exec s (submit s p j).2 ∧ (submit s p j).2.held = s.held
        ∧ (submit s p j).2.running = s.running := by
  unfold submit
  split_ifs with hheld hsome
  · exact ⟨.same, rfl, rfl⟩
  · exact ⟨.same, rfl, rfl⟩
  · rw [not_eq_true, isSome_eq_false_iff, isNone_iff_eq_none] at hsome
    exact ⟨.accept hsome hnew, rfl, rfl⟩

theorem poll_spec (s : Slot Pid J) (p : Pid) :
    Step done exec s (poll done s p).2 ∧ (poll done s p).2.held = s.held
        ∧ (poll done s p).2.running = s.running := by
  unfold poll
  split_ifs with hheld
  · exact ⟨.same, rfl, rfl⟩
  cases hentry : s.entry with
  | none => exact ⟨.same, rfl, rfl⟩
  | some e =>
    dsimp only
    split_ifs with hdone
    · exact ⟨.collect (not_eq_true _ ▸ hheld) hentry hdone, rfl, rfl⟩
    · exact ⟨.same, rfl, rfl⟩

end

theorem sys_fs_poll_slot (s : Slot Pid FsJob) (p : Pid) (out_ptr out_cap : UInt64) :
    (sys_fs_poll s p out_ptr out_cap).2 = (poll FsJob.done s p).2 := by
  unfold sys_fs_poll
  rcases poll FsJob.done s p with ⟨code | job, t⟩
  · rfl
  · rfl

theorem sys_service_poll_slot (s : Slot Pid SvcJob) (p : Pid) :
    (sys_service_poll s p).2 = (poll SvcJob.done s p).2 := by
  unfold sys_service_poll
  rcases poll SvcJob.done s p with ⟨code | job, t⟩
  · rfl
  · rfl

/-- A service call leaves the slot alone or submits a job. -/
theorem sys_service_ctl_slot (services : Services) (s : Slot Pid SvcJob) (p : Pid)
    (service_id action : UInt64) :
    (sys_service_ctl services s p service_id action).2.2 = s
      ∨ ∃ name start, (sys_service_ctl services s p service_id action).2.2
        = (submit s p ⟨name, start, false, 0⟩).2 := by
  unfold sys_service_ctl
  cases service_name service_id with
  | none => exact .inl rfl
  | some name =>
    cases parse_svc_action action with
    | none => exact .inl rfl
    | some act =>
      cases act with
      | Status | Enable | Disable => exact .inl rfl
      | Start => exact .inr ⟨name, true, rfl⟩
      | Stop => exact .inr ⟨name, false, rfl⟩

section

variable {s t : State}

theorem Placed.fs_call (h : Placed s) {fs : Slot Pid FsJob} (hfs : t.fs = fs) (hsvc : t.svc = s.svc)
    (hpc : t.pc = s.pc) (hstep : Step FsJob.done ExecFs s.fs fs ∧ fs.held = s.fs.held
      ∧ fs.running = s.fs.running) : Moves s t := by
  obtain ⟨hrun, hheld, hrunning⟩ := hstep
  subst hfs
  refine ⟨⟨?_, ?_, fun hne => ?_, fun hne => ?_⟩, .single hrun, hsvc ▸ .refl⟩
  · rw [hheld, h.fs_held, hpc]
  · rw [hsvc, h.svc_held, hpc]
  · rw [hrunning]
    exact h.fs_running (hpc ▸ hne)
  · rw [hsvc]
    exact h.svc_running (hpc ▸ hne)

theorem Placed.svc_call (h : Placed s) {svc : Slot Pid SvcJob} (hsvc : t.svc = svc)
    (hfs : t.fs = s.fs) (hpc : t.pc = s.pc) (hstep : Step SvcJob.done ExecSvc s.svc svc
      ∧ svc.held = s.svc.held ∧ svc.running = s.svc.running) : Moves s t := by
  obtain ⟨hrun, hheld, hrunning⟩ := hstep
  subst hsvc
  refine ⟨⟨?_, ?_, fun hne => ?_, fun hne => ?_⟩, hfs ▸ .refl, .single hrun⟩
  · rw [hfs, h.fs_held, hpc]
  · rw [hheld, h.svc_held, hpc]
  · rw [hfs]
    exact h.fs_running (hpc ▸ hne)
  · rw [hrunning]
    exact h.svc_running (hpc ▸ hne)

/-- The worker takes or leaves the lock of `FS_JOB` without a job under way. -/
theorem Placed.fs_hold (h : Placed s) {at' : Pc} (hpc : s.pc = at') (b : Bool) (pc : Pc)
    (hrun : at' ≠ .fs_running) (hfs : b = pc.holds_fs) (hsvc : at'.holds_svc = pc.holds_svc)
    (hne : at' ≠ .svc_running) :
    Moves s { s with fs := s.fs.hold b, pc := pc } := by
  subst hpc
  have hidle := h.fs_running hrun
  exact ⟨⟨hfs, h.svc_held.trans hsvc, fun _ => hidle, fun _ => h.svc_running hne⟩,
    .single (.hold hidle), .refl⟩

theorem Placed.svc_hold (h : Placed s) {at' : Pc} (hpc : s.pc = at') (b : Bool) (pc : Pc)
    (hrun : at' ≠ .svc_running) (hsvc : b = pc.holds_svc) (hfs : at'.holds_fs = pc.holds_fs)
    (hne : at' ≠ .fs_running) :
    Moves s { s with svc := s.svc.hold b, pc := pc } := by
  subst hpc
  have hidle := h.svc_running hrun
  exact ⟨⟨h.fs_held.trans hfs, hsvc, fun _ => h.fs_running hne, fun _ => hidle⟩, .refl,
    .single (.hold hidle)⟩

theorem Placed.take_fs_job (h : Placed s) (hpc : s.pc = .fs_locked) {e : Entry Pid FsJob}
    (he : s.fs.entry = some e) (hnew : e.job.done = false) : Moves s (s.take_fs_job e) := by
  have hheld : s.fs.held = true := by rw [h.fs_held, hpc]; rfl
  have hrun : s.fs.running = none := h.fs_running (by rw [hpc]; decide)
  have hsvc : s.svc.running = none := h.svc_running (by rw [hpc]; decide)
  have hsvc_held : s.svc.held = false := by rw [h.svc_held, hpc]; rfl
  have hstart : Step FsJob.done ExecFs s.fs (s.fs.start e) := .start hheld hrun he hnew
  unfold State.take_fs_job
  split_ifs with hctrl
  · exact ⟨⟨hheld, hsvc_held, fun hne => absurd rfl hne, fun _ => hsvc⟩, .single hstart, .refl⟩
  · -- without a controller the job is done at once
    have hfinish : Step FsJob.done ExecFs (s.fs.start e)
        ((s.fs.start e).finish e (no_device e.job)) :=
      .finish rfl (.inr rfl)
    have hhold : Step FsJob.done ExecFs ((s.fs.start e).finish e (no_device e.job))
        (((s.fs.start e).finish e (no_device e.job)).hold false) := .hold rfl
    exact ⟨⟨rfl, hsvc_held, fun _ => rfl, fun _ => hsvc⟩,
      ((Relation.ReflTransGen.single hstart).tail hfinish).tail hhold, .refl⟩

/-- **One step of the worker.** -/
theorem Placed.work (h : Placed s) {busy ok : Bool} (hstep : s.work busy ok = some t) :
    Moves s t := by
  unfold State.work at hstep
  split at hstep
  -- `fs_service`: the lock is held from the look at the job to the stored result
  case h_1 hpc =>
    cases hstep
    exact h.fs_hold hpc true .fs_locked nofun rfl rfl nofun
  case h_2 hpc =>
    have hleave : Moves s s.leave_fs := h.fs_hold hpc false .svc_service nofun rfl rfl nofun
    split at hstep
    case h_1 =>
      cases hstep
      exact hleave
    case h_2 e he =>
      split_ifs at hstep with hdone hbusy
      · cases hstep
        exact hleave
      · cases hstep
        exact hleave
      · cases hstep
        exact h.take_fs_job hpc he (not_eq_true _ ▸ hdone)
  -- running: the result is stored and the lock dropped in one move
  case h_3 hpc =>
    split at hstep
    case h_1 => simp at hstep
    case h_2 e hrun =>
      split at hstep
      case h_1 job disk hjob =>
        cases hstep
        have hfinish : Step FsJob.done ExecFs s.fs (s.fs.finish e job) :=
          .finish hrun (.inl ⟨_, _, hjob⟩)
        have hhold : Step FsJob.done ExecFs (s.fs.finish e job) ((s.fs.finish e job).hold false) :=
          .hold rfl
        have hsvc : s.svc.running = none := h.svc_running (by rw [hpc]; decide)
        have hheld : s.svc.held = false := by rw [h.svc_held, hpc]; rfl
        exact ⟨⟨rfl, hheld, fun _ => rfl, fun _ => hsvc⟩,
          (Relation.ReflTransGen.single hfinish).tail hhold, .refl⟩
      case h_2 => simp at hstep
  -- the service slot goes the same way
  case h_4 hpc =>
    cases hstep
    exact h.svc_hold hpc true .svc_locked nofun rfl rfl nofun
  case h_5 hpc =>
    have hleave : Moves s s.leave_svc := h.svc_hold hpc false .pending_fs nofun rfl rfl nofun
    split at hstep
    case h_1 =>
      cases hstep
      exact hleave
    case h_2 e he =>
      split_ifs at hstep with hdone
      · cases hstep
        exact hleave
      · cases hstep
        have hheld : s.svc.held = true := by rw [h.svc_held, hpc]; rfl
        have hfs_held : s.fs.held = false := by rw [h.fs_held, hpc]; rfl
        have hrun : s.svc.running = none := h.svc_running (by rw [hpc]; decide)
        have hfs : s.fs.running = none := h.fs_running (by rw [hpc]; decide)
        have hstart : Step SvcJob.done ExecSvc s.svc (s.svc.start e) :=
          .start hheld hrun he (not_eq_true _ ▸ hdone)
        exact ⟨⟨hfs_held, hheld, fun _ => hfs, fun hne => absurd rfl hne⟩, .refl, .single hstart⟩
  case h_6 hpc =>
    split at hstep
    case h_1 => simp at hstep
    case h_2 e hrun =>
      cases hstep
      have hfinish : Step SvcJob.done ExecSvc s.svc (s.svc.finish e (e.job.served ok)) :=
        .finish hrun ⟨ok, rfl⟩
      have hhold : Step SvcJob.done ExecSvc (s.svc.finish e (e.job.served ok))
          ((s.svc.finish e (e.job.served ok)).hold false) :=
        .hold rfl
      have hfs : s.fs.running = none := h.fs_running (by rw [hpc]; decide)
      have hheld : s.fs.held = false := by rw [h.fs_held, hpc]; rfl
      exact ⟨⟨hheld, rfl, fun _ => hfs, fun _ => rfl⟩, .refl,
        (Relation.ReflTransGen.single hfinish).tail hhold⟩
  -- `has_pending_job` only looks
  case h_7 hpc =>
    cases hstep
    exact h.fs_hold hpc true .pending_fs_locked nofun rfl rfl nofun
  case h_8 hpc =>
    cases hstep
    exact h.fs_hold hpc false .pending_svc nofun rfl rfl nofun
  case h_9 hpc =>
    cases hstep
    exact h.svc_hold hpc true .pending_svc_locked nofun rfl rfl nofun
  case h_10 hpc =>
    cases hstep
    exact h.svc_hold hpc false .fs_service nofun rfl rfl nofun

/-- **One step of the system** is a run of each slot. -/
theorem Placed.moves (h : Placed s) {a : Label} (hstep : Next s a t) : Moves s t := by
  cases hstep with
  | other hdisk => exact ⟨⟨h.fs_held, h.svc_held, h.fs_running, h.svc_running⟩, .refl, .refl⟩
  | call hcall =>
    cases a with
    | submit p op path =>
      cases hcall
      exact h.fs_call rfl rfl rfl (submit_spec s.fs p rfl)
    | fs_poll p out_ptr out_cap =>
      cases hcall
      exact h.fs_call (sys_fs_poll_slot s.fs p out_ptr out_cap) rfl rfl (poll_spec s.fs p)
    | service_ctl p service_id action =>
      cases hcall
      rcases sys_service_ctl_slot s.services s.svc p service_id action with hsame
        | ⟨name, start, hsubmit⟩
      · exact h.svc_call hsame rfl rfl ⟨.same, rfl, rfl⟩
      · exact h.svc_call hsubmit rfl rfl (submit_spec s.svc p rfl)
    | service_poll p =>
      cases hcall
      exact h.svc_call (sys_service_poll_slot s.svc p) rfl rfl (poll_spec s.svc p)
    | work busy ok => exact h.work hcall
    | other controller services => exact absurd hcall (by simp [State.next])

end

/-- What holds along every run. -/
structure Inv (s : State) : Prop where
  placed : Placed s
  fs : Handover.Inv FsJob.done fs_req ExecFs s.fs
  svc : Handover.Inv SvcJob.done SvcJob.req ExecSvc s.svc

theorem inv_start (disk : Session) (controller : Bool) (services : Services) :
    Inv (State.start disk controller services) :=
  ⟨⟨rfl, rfl, fun _ => rfl, fun _ => rfl⟩, inv_empty, inv_empty⟩

theorem Inv.next {s t : State} (h : Inv s) {a : Label} (hstep : Next s a t) : Inv t := by
  obtain ⟨hplaced, hfs, hsvc⟩ := h.placed.moves hstep
  exact ⟨hplaced, h.fs.runs execFs_spec hfs, h.svc.runs execSvc_spec hsvc⟩

/-- While a job is in the slot a submission is refused, and nothing changes. -/
theorem submit_refused {J : Type} {s : Slot Pid J} (h : s.entry.isSome = true) (p : Pid) (j : J) :
    ((submit s p j).1 = EAGAIN ∨ (submit s p j).1 = EBUSY) ∧ (submit s p j).2 = s := by
  unfold submit
  split_ifs
  · exact ⟨.inl rfl, rfl⟩
  · exact ⟨.inr rfl, rfl⟩

/-- **The job slots.** In every run of any processes with the worker both slots keep to the
protocol, and while a job is outstanding every further submission to its slot is refused. -/
theorem slots_keep_protocol {disk : Session} {controller : Bool} {services : Services}
    {l : List Label} {s : State} (h : Steps Next (State.start disk controller services) l s) :
    Protocol FsJob.done fs_req ExecFs s.fs ∧ Protocol SvcJob.done SvcJob.req ExecSvc s.svc
    ∧ (s.fs.entry.isSome = true → ∀ p op path,
        ((submit_fs_job s.fs p op path).1 = EAGAIN ∨ (submit_fs_job s.fs p op path).1 = EBUSY)
          ∧ (submit_fs_job s.fs p op path).2 = s.fs)
    ∧ (s.svc.entry.isSome = true → ∀ p service_id action,
        (parse_svc_action action = some .Start ∨ parse_svc_action action = some .Stop) →
          service_name service_id ≠ none →
        ((sys_service_ctl s.services s.svc p service_id action).1 = EAGAIN
            ∨ (sys_service_ctl s.services s.svc p service_id action).1 = EBUSY)
          ∧ (sys_service_ctl s.services s.svc p service_id action).2.2 = s.svc) := by
  have hinv : Inv s := h.keeps (inv_start _ _ _) fun _ _ _ hv hstep => hv.next hstep
  refine ⟨hinv.fs.protocol, hinv.svc.protocol, fun hsome p op path => submit_refused hsome p _, ?_⟩
  intro hsome p service_id action haction hname
  obtain ⟨name, hname⟩ := ne_none_iff_exists'.mp hname
  unfold sys_service_ctl
  rw [hname]
  rcases haction with hstart | hstop
  · rw [hstart]
    exact submit_refused hsome p _
  · rw [hstop]
    exact submit_refused hsome p _

/-- A machine with a controller and without drivers. -/
def machine (disk : Session) : State := State.start disk true ⟨fun _ => false, fun _ => false⟩

theorem State.next_finishes {s : State} {e : Entry Pid FsJob} {job : FsJob} {disk : Session}
    (hpc : s.pc = .fs_running)
    (hrun : s.fs.running = some e) (hjob : fs_service e.job s.disk = .ok job disk)
    (busy ok : Bool) :
    s.next (.work busy ok)
      = some { s with fs := (s.fs.finish e job).hold false, disk := disk, pc := .svc_service } := by
  rw [State.next, State.work, hpc]
  simp only [hrun, hjob]

/-- A formatted disk on which the root directory is listed. -/
theorem exists_listed : ∃ disk job disk', fs_service (FsJob.new .ListDir "/") disk
    = .ok job disk' := by
  obtain ⟨s, -, hfrom, -, hroom⟩ := exists_formatted_job .ListDir "/"
  obtain ⟨hc, I⟩ := hfrom.inv (fun _ _ hmem => absurd hmem List.not_mem_nil) s (.inl rfl)
  have hsound : Sound s := ⟨hc, I⟩
  have hdirs : (FsJob.new .ListDir "/").OnDirs s.blk := by
    exact trivial
  have hname : (FsJob.new .ListDir "/").NameFits s.blk := fun hno => absurd hno id
  obtain ⟨job₁, σ₁, hperform, -⟩ :=
    Sound.perform (σ := ⟨s, []⟩) hsound (FsJob.new .ListDir "/") hdirs hname
    (hroom (Nat.zero_le _))
  obtain ⟨job, disk', hrun, -⟩ := (finishes_iff (σ := ⟨s, []⟩) rfl).mpr ⟨job₁, σ₁, hperform⟩
  exact ⟨_, job, disk', hrun⟩

/-- Process 1 has the root directory listed; process 2 is refused meanwhile. -/
theorem slots_keep_protocol_listed : ∃ disk s code data, Steps Next (machine disk)
      [.submit 1 .ListDir "/", .submit 2 .ReadFile "/a", .work false false, .work false false,
        .work false false, .fs_poll 1 1 4096] s
    ∧ s.seen = [(1, .submitted 0), (2, .submitted EBUSY), (1, .polled code data)]
    ∧ Protocol FsJob.done fs_req ExecFs s.fs := by
  obtain ⟨disk, job, disk', hjob⟩ := exists_listed
  have hrun : Steps Next (machine disk) [.submit 1 .ListDir "/", .submit 2 .ReadFile "/a",
    .work false false,
      .work false false, .work false false, .fs_poll 1 1 4096] _ :=
    .next (.call rfl) (.next (.call rfl) (.next (.call rfl) (.next (.call rfl)
      (.next (.call (State.next_finishes (e := ⟨0, 1, _⟩) rfl rfl hjob _ _))
        (.next (.call rfl) (.done _))))))
  exact ⟨disk, _, _, _, hrun, rfl, (slots_keep_protocol hrun).1⟩

end HepOS.Jobs
