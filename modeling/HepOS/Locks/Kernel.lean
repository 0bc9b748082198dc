/-
The kernel's locks and the code that runs with interrupts off.

Every `spin::Mutex` of the kernel is a static. Three kinds of code wait for such locks with
interrupts off: the timer's handler (`tick`, an interrupt gate clears the flag), the system calls
(`SFMASK` clears it), and a task that has left ring 3 through `do_exit`, which returns into
`run_elf` without setting it again. Their locks are written out below from the source, function by
function. A guard that is a temporary of a `let` or of an expression statement is dropped at its
end; one in a call such as `PENDING_QUEUE.lock().push(..)` is taken before the arguments are
evaluated, so that these allocate under it. The heap is one lock as well.

Everything else is taken to run with interrupts on (a sleeper that `tick` resumes does not, see
`Scheduler.Flags`, but it is none of the three), and nothing is assumed of it but this: where a task
sleeps, exits or is in ring 3 it holds no lock. `sleep_ms` is called in `task_svc_worker` only,
`exit_current` at the end of `async_task_entry`, and `run_elf` enters ring 3 with all the guards of
`exec_blocking` dropped.

The page allocator, the page tables and the serial port have no lock.
-/
import HepOS.Lib.Spin

set_option autoImplicit false

namespace HepOS.Locks

open Spin Trace List

/-! ## The statics -/

inductive Lock
  -- scheduler.rs, heap.rs, process.rs, syscall.rs
  | SCHEDULER | SLAB | PROC_OUT | PROCTAB | PENDING_QUEUE | DONE_QUEUE
  | DYNAMIC_PORTS | DYNAMIC_MMIO | FS_JOB | SVC_JOB
  -- the drivers
  | KEYBUF | MOUSE | nvme_CONTROLLER | nvme_IO_LOCK | ahci_CONTROLLER | AHCI_IO_LOCK | HDA | XHCI
    | GPU | MIRROR
  | e1000_NIC | virtio_net_NIC | rtl8139_NIC
  | rtl8139_PENDING_DRIVER_MAILBOX | ahci_PENDING_DRIVER_MAILBOX | hda_PENDING_DRIVER_MAILBOX
    | xhci_PENDING_DRIVER_MAILBOX
  | PING_REPLY | NET_JOB
  -- the desktop
  | DISPLAY | DESKTOP | PINNED_FILES | FS_CLIPBOARD | PINNED_TASKBAR | CLIPBOARD | NOW_PLAYING
  | EDITOR | EXTRA_EDITORS | TERMINAL | EXTRA_TERMINALS | VIEWER | EXTRA_VIEWERS
  | FOCUSED_WIN | TEXT_DRAG_WIN | VOLUME_DRAG | FILE_DRAG | FS_SCROLL_DRAG | FS_MARQUEE | LAST_CLICK
    | PCI_DEVS | HEPFS_NAVS
deriving DecidableEq, Repr

/-- A critical section without anything of interest in it. -/
def brief (l : Lock) : Code Lock := .lock l .skip

/-! ## The heap and the scheduler -/

def alloc : Code Lock := brief .SLAB

def dealloc : Code Lock := brief .SLAB

/-- A vector may have to grow. `GlobalAlloc::realloc` is not overridden: a new block, then the old
one is freed. -/
def grow : Code Lock := maybe (.seq alloc (maybe dealloc))

def current_task_index : Code Lock := brief .SCHEDULER

def set_current_cr3 : Code Lock := brief .SCHEDULER

def wake_irq_waiters : Code Lock := brief .SCHEDULER

/-- The guard of `SCHEDULER.lock().next()` is gone before the switch. -/
def tick : Code Lock := block [wake_irq_waiters, brief .SCHEDULER, maybe .switch]

/-- Both stacks are on the heap. -/
def task_new : Code Lock := block [alloc, alloc]

/-- The new task takes the place of a dead one, whose stacks are freed, or is pushed; both under the
lock. -/
def spawn : Code Lock :=
  block [task_new, .lock .SCHEDULER (.choice (block [dealloc, dealloc]) grow)]

def exit_current : Code Lock := block [brief .SCHEDULER, maybe .switch]

def block_on_irq : Code Lock := block [brief .SCHEDULER, .choice .switch (brief .SCHEDULER)]

/-! ## `process.rs` -/

def slot_index : Code Lock := current_task_index

def proc_write : Code Lock :=
  block [slot_index, .lock .PROC_OUT (.choice grow (block [alloc, grow]))]

def take_proc_output : Code Lock := block [slot_index, brief .PROC_OUT]

def for_each_proc : Code Lock := brief .PROCTAB

/-- The name and the data are copied while the queue is locked. -/
def exec_async_with_arg : Code Lock :=
  maybe (block [.lock .PENDING_QUEUE (block [alloc, alloc, grow]), spawn])

/-- `run_elf` behind `enter_ring3`: the vectors of pages are dropped. -/
def run_elf_rest : Code Lock := block [set_current_cr3, dealloc, dealloc]

def exec_blocking_rest : Code Lock := block [run_elf_rest, brief .PROCTAB]

/-- `async_task_entry` from the place to which `do_exit` returns. The message is put together on the
heap. -/
def async_task_rest : Code Lock :=
  block [exec_blocking_rest, take_proc_output, .loop (.seq alloc (maybe dealloc)),
    .lock .DONE_QUEUE grow, .loop dealloc, exit_current]

/-! ## The system calls -/

/-- The fixed table is looked at first. -/
def port_allowed : Code Lock := maybe (brief .DYNAMIC_PORTS)

def mmio_allowed : Code Lock := maybe (brief Lock.DYNAMIC_MMIO)

def sys_write : Code Lock := maybe proc_write

/-- `is_user_running`, then `do_exit`. -/
def sys_exit : Code Lock := block [slot_index, maybe (block [slot_index, .leave])]

def sys_mmap_mmio : Code Lock := block [mmio_allowed, maybe slot_index]

/-- `MOUSE.try_lock()` and up to sixteen times `KEYBUF.try_lock()`. -/
def sys_input_state : Code Lock :=
  maybe (block [.attempt .MOUSE .skip .skip, .loop (.attempt .KEYBUF .skip .skip)])

def read_user_path : Code Lock := maybe alloc

/-- `submit_fs_job` after the copies have been made; what is not queued is freed. -/
def submit_fs_job : Code Lock := block [.attempt .FS_JOB .skip .skip, .loop dealloc]

def sys_fs_submit : Code Lock := block [read_user_path, maybe submit_fs_job]

def sys_fs_write_file : Code Lock :=
  block [read_user_path, maybe (block [maybe alloc, submit_fs_job])]

/-- `*guard = None` frees the job. -/
def sys_fs_poll : Code Lock := .attempt .FS_JOB (.loop dealloc) .skip

/-- `Status` looks the service up in the table of processes, `Start` and `Stop` queue a job, the
others are atomic. -/
def sys_service_ctl : Code Lock := .choice for_each_proc (maybe (.attempt .SVC_JOB .skip .skip))

def sys_service_poll : Code Lock := .attempt .SVC_JOB .skip .skip

def sys_spawn_bytes : Code Lock := maybe exec_async_with_arg

def syscall_dispatch : ℕ → Code Lock
  | 1 => sys_write
  | 60 => sys_exit
  -- `SYS_GETPID`
  | 39 => slot_index
  | 500 => sys_mmap_mmio
  -- `SYS_PORT_IN`, `SYS_PORT_OUT`
  | 501 | 502 => port_allowed
  | 503 => block_on_irq
  -- `SYS_MMAP_ANON`
  | 504 => slot_index
  | 505 => sys_input_state
  | 506 | 507 | 509 => sys_fs_submit
  | 508 => sys_fs_write_file
  | 510 => sys_fs_poll
  | 511 => sys_service_ctl
  | 512 => sys_service_poll
  | 513 => sys_spawn_bytes
  -- `ENOSYS`
  | _ => .skip

theorem syscall_dispatch_safe (nr : ℕ) : (syscall_dispatch nr).safe = true := by
  unfold syscall_dispatch
  split <;> rfl

def kernel : Kernel Lock where
  handler := tick
  service := syscall_dispatch
  departure := async_task_rest
  handler_safe := rfl
  service_safe := syscall_dispatch_safe
  departure_safe := rfl

/-! ## What is waited for -/

/-- The locks that code with interrupts off waits for. The others that it uses, it only tries. -/
def AWAITED : List Lock := [.SCHEDULER, .SLAB, .PROC_OUT, .PROCTAB, .PENDING_QUEUE, .DONE_QUEUE,
    .DYNAMIC_PORTS, Lock.DYNAMIC_MMIO]

theorem syscall_dispatch_spins (nr : ℕ) : ∀ l ∈ (syscall_dispatch nr).spins, l ∈ AWAITED := by
  unfold syscall_dispatch
  split <;> decide

theorem awaits_iff (l : Lock) : kernel.Awaits l ↔ l ∈ AWAITED := by
  constructor
  · rintro (h | ⟨nr, h⟩ | h)
    · exact (by decide : ∀ l ∈ tick.spins, l ∈ AWAITED) l h
    · exact syscall_dispatch_spins nr l h
    · exact (by decide : ∀ l ∈ async_task_rest.spins, l ∈ AWAITED) l h
  · -- every one of them is waited for in some call or behind `do_exit`
    have hcalls : ∀ l ∈ AWAITED, l ∈ (syscall_dispatch 1).spins ∨ l ∈ (syscall_dispatch 500).spins
        ∨ l ∈ (syscall_dispatch 501).spins ∨ l ∈ (syscall_dispatch 513).spins
        ∨ l ∈ async_task_rest.spins := by decide
    intro h
    rcases hcalls l h with h | h | h | h | h
    · exact .inr (.inl ⟨1, h⟩)
    · exact .inr (.inl ⟨500, h⟩)
    · exact .inr (.inl ⟨501, h⟩)
    · exact .inr (.inl ⟨513, h⟩)
    · exact .inr (.inr h)

/-- A step of the machine. -/
def Next (s : State Lock) (a : Label) (t : State Lock) : Prop := Step kernel s a t

/-- The timer does not interrupt a task that holds one of the locks `AWAITED`. -/
def Undisturbed (s : State Lock) (a : Label) : Prop := Quiet (· ∈ AWAITED) s a

/-- **No waiting for ever with interrupts off.** Any tasks, any interleaving: when the timer leaves
the tasks alone that hold a lock of `AWAITED`, no handler, system call or task behind `do_exit`
waits for a lock of code that is suspended. -/
theorem never_stuck_of_undisturbed (p : Program Lock) (ps : List (Program Lock)) {l : List Label}
    {t : State Lock}
    (h : Steps (fun s a t => Next s a t ∧ Undisturbed s a) (State.start p ps) l t) : ¬ Stuck t := by
  have hinv : Inv (· ∈ AWAITED) t := by
    refine h.keeps (Inv.start _ p ps) ?_
    rintro v b w hv ⟨hstep, hquiet⟩
    exact hv.step kernel (fun l hl => (awaits_iff l).mp hl) hstep hquiet
  exact hinv.not_stuck

/-! ## The timer in `spawn` -/

/-- A process: any number of the system calls `nrs`. -/
def ring3 (nrs : List ℕ) : Code Lock := .loop (nrs.foldr (fun nr c => .choice (.call nr) c) .skip)

theorem ring3_safe (nrs : List ℕ) : (ring3 nrs).safe = true := by
  induction nrs with
  | nil => rfl
  | cons nr nrs ih => exact ih

/-- What `task_blink` does to launch a driver. -/
def launcher : Program Lock := ⟨exec_async_with_arg, rfl⟩

def process (nrs : List ℕ) : Program Lock := ⟨ring3 nrs, ring3_safe nrs⟩

/-- The timer in a task that holds nothing: `tick` gets its lock. -/
theorem never_stuck_of_undisturbed_launch :
    ∃ l t, Steps (fun s a t => Next s a t ∧ Undisturbed s a)
      (State.start launcher [process [1]]) l t ∧ ¬ Stuck t := by
  have hrun : Steps (fun s a t => Next s a t ∧ Undisturbed s a) (State.start launcher [process [1]])
      [.interrupt, .run true, .run true] _ :=
    .next ⟨.interrupt, fun _ l hl => absurd hl not_mem_nil⟩
      (.next ⟨.of_next kernel rfl, fun h => nomatch h⟩
        (.next ⟨.of_next kernel rfl, fun h => nomatch h⟩ (.done _)))
  exact ⟨_, _, hrun, never_stuck_of_undisturbed _ _ hrun⟩

/-- So many steps of code, with the first branch at every choice. -/
def runs (n : ℕ) : List Label := List.replicate n (.run true)

theorem steps_of_run {s t : State Lock} {l : List Label}
    (h : run (fun s a => s.next kernel a) s l = some t) : Steps Next s l t :=
  (Steps.of_run l h).mono fun _ _ _ hnext => .of_next kernel hnext

/-- The timer comes while `task_blink` holds `SCHEDULER` in `spawn`: `tick` waits for a lock of the
very task that it has interrupted. Or it comes while `task_blink` has the heap locked: the process
that is next writes to its output and waits for the heap inside the system call. In both cases
nothing can happen any more. -/
theorem interrupted_holder_never_resumes :
    (∃ l t, Steps Next (State.start launcher []) l t ∧ Stuck t ∧ ∀ a u, ¬ Next t a u)
      ∧ ∃ l t, Steps Next (State.start launcher [process [1]]) l t ∧ Stuck t ∧ ∀ a u,
        ¬ Next t a u := by
  constructor
  · obtain ⟨t, ht, hstuck⟩ : ∃ t, run (fun s a => s.next kernel a) (State.start launcher [])
          (runs 36 ++ [.interrupt, .run true]) = some t
        ∧ Stuck t :=
      ⟨_, rfl, by decide, .SCHEDULER, _, _, rfl, _, mem_cons_self, by decide⟩
    exact ⟨_, t, steps_of_run ht, hstuck, fun _ _ => hstuck.no_step kernel⟩
  · obtain ⟨t, ht, hstuck⟩ : ∃ t, run (fun s a => s.next kernel a)
      (State.start launcher [process [1]])
          (runs 27 ++ [.interrupt] ++ runs 10 ++ [.change 0] ++ runs 2 ++ [.enter] ++ runs 7
            ++ [.run false] ++ runs 1) = some t
        ∧ Stuck t :=
      ⟨_,
        rfl, by decide, .SLAB, _, _, rfl, ⟨.task,
          _⟩, mem_cons_of_mem _ (mem_cons_of_mem _ mem_cons_self),
        by decide⟩
    exact ⟨_, t, steps_of_run ht, hstuck, fun _ _ => hstuck.no_step kernel⟩

end HepOS.Locks
