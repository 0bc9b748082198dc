/-
The control state of processes (`process.rs`): `PROC_SLOTS`, `PROC_OUT` and the life of a process
from `exec_async` to its message in `DONE_QUEUE`.

Every process has a task of its own, and its slot is found by the task's place in the scheduler's
table: `slot_index` is that place, or 31 when it is larger. Tasks run in any order, one access to
shared state at a time. What a process has done itself (the bytes it wrote, how far its own mappings
reach) is kept next to what the slot says, and each time the kernel takes something from a slot the
two are put side by side in a log.

The table of the scheduler is the length and the entries of a vector; a kernel stack is named by a
number that no other task has. `PROC_OUT` is a list of pairs in the source, here the buffer of each
index. Whether an image loads is up to the label.
-/
import HepOS.Process.Async
import HepOS.Process.Elf

set_option autoImplicit false

namespace HepOS.Process.Slots

open Async (AsyncJob)
open Trace Function List Option

/-! ## State -/

def MAX_TASKS : ℕ := 32

structure ProcSlot where
  /-- The kernel stack that the saved stack pointer is in. -/
  kernel_return_rsp : ℕ
  exit_code : UInt64
  user_running : Bool
  mmio_next_va : UInt64
  pid : UInt32
deriving DecidableEq, Repr

def ProcSlot.empty : ProcSlot := ⟨0, 0, false, 0, 0⟩

/-- The place of a process that runs on the task. -/
def slot_index (task : ℕ) : ℕ := min task (MAX_TASKS - 1)

/-- A process and what it has done: the bytes it wrote, and where its next mapping goes. -/
structure Proc where
  job : AsyncJob
  pid : UInt32
  wrote : List UInt8
  cursor : UInt64
deriving DecidableEq, Repr

/-- What a task does next. -/
inductive Phase
  /-- The task has exited; its entry is free. -/
  | dead
  /-- A task of the kernel. -/
  | kernel
  /-- `async_task_entry` -/
  | start
  /-- `exec_blocking` clears the output. -/
  | popped (job : AsyncJob)
  /-- It takes a pid. -/
  | cleared (job : AsyncJob)
  /-- It enters the process into `PROCTAB`. -/
  | numbered (job : AsyncJob) (pid : UInt32)
  /-- `run_elf` sets up the slot. -/
  | named (job : AsyncJob) (pid : UInt32)
  /-- The image is loaded. -/
  | loading (p : Proc)
  /-- `enter_ring3` -/
  | entering (p : Proc)
  | ring3 (p : Proc)
  /-- `do_exit` has come back to `run_elf`; the code is the one the process has given. -/
  | returned (p : Proc) (code : UInt64)
  /-- `run_elf` has returned. -/
  | ran (p : Proc) (result : Except String UInt64)
  /-- The result is in `PROCTAB`. -/
  | closed (p : Proc) (result : Except String UInt64)
  /-- The output has been taken. -/
  | told (p : Proc) (result : Except String UInt64) (output : List UInt8)
  | exiting
  /-- `do_exit` has gone on in the stack frame of another task. -/
  | lost
deriving Repr

def Phase.in_ring3 : Phase → Bool
  | .ring3 _ => true
  | _ => false

/-- What a process has done or got itself, and what the kernel found in the slot. -/
inductive Event
  | frame (own seen : ℕ)
  | code (own seen : UInt64)
  | pid (own seen : UInt32)
  | cursor (own seen : UInt64)
  | output (own seen : List UInt8)
  /-- Whose entry of `PROCTAB` gets the result. -/
  | entry (own : ℕ) (seen : Option ℕ)
deriving DecidableEq, Repr

def Event.same : Event → Prop
  | .frame own seen => own = seen
  | .code own seen => own = seen
  | .pid own seen => own = seen
  | .cursor own seen => own = seen
  | .output own seen => own = seen
  | .entry own seen => seen = some own

/-- An entry of `PROCTAB`; `owner` is the kernel stack of the task that made it. -/
structure ProcEntry where
  pid : UInt32
  name : String
  running : Bool
  exit_code : UInt64
  owner : ℕ
deriving DecidableEq, Repr

def MAX_PROCS : ℕ := 32

/-- An entry of `DONE_QUEUE`. -/
structure Message where
  issuer : UInt64
  name : String
  output : List UInt8
  result : Except String UInt64

structure State where
  len : ℕ
  tasks : ℕ → Phase
  stack : ℕ → ℕ
  next_stack : ℕ
  slots : ℕ → ProcSlot
  out : ℕ → List UInt8
  pending : List AsyncJob
  done : List Message
  next_pid : UInt32
  tab : List ProcEntry
  log : List Event

/-- After boot: the three tasks of the kernel. -/
def State.start : State where
  len := 3
  tasks := fun i => if i < 3 then .kernel else .dead
  stack := id
  next_stack := 3
  slots := fun _ => .empty
  out := fun _ => []
  pending := []
  done := []
  next_pid := 1
  tab := []
  log := []

/-! ## Steps -/

inductive Label
  /-- `exec_async_with_arg`, from a task of the kernel or through `SYS_SPAWN_BYTES`. -/
  | launch (task : ℕ) (job : AsyncJob)
  /-- The next access of a task to what it shares with others. -/
  | go (task : ℕ)
  /-- The image, the tables and the stack are there, or are not. -/
  | load (task : ℕ) (error : Option String)
  | write (task : ℕ) (bytes : List UInt8)
  | getpid (task : ℕ)
  /-- `SYS_MMAP_MMIO` or `SYS_MMAP_ANON` of so many pages. -/
  | mmap (task : ℕ) (pages : UInt64)
  | exit (task : ℕ) (code : UInt64)
deriving DecidableEq, Repr

section

variable (s : State)

def State.set (i : ℕ) (ph : Phase) : State := { s with tasks := update s.tasks i ph }

def State.set_slot (i : ℕ) (slot : ProcSlot) : State :=
  { s with slots := update s.slots (slot_index i) slot }

/-- The slot of the calling task. -/
def State.slot (i : ℕ) : ProcSlot := s.slots (slot_index i)

def State.tell (e : Event) : State := { s with log := e :: s.log }

/-- `scheduler::spawn` with `async_task_entry`. -/
def State.spawn : State :=
  let s := { s with next_stack := s.next_stack + 1 }
  let place := fun (i : ℕ) (s : State) =>
    { s with tasks := update s.tasks i .start, stack := update s.stack i (s.next_stack - 1) }
  match (List.range s.len).find? fun i => match s.tasks i with | .dead => true | _ => false with
  | some i => place i s
  | none => place s.len { s with len := s.len + 1 }

def exec_async (job : AsyncJob) : State :=
  if job.data = [] then s else { s with pending := job :: s.pending }.spawn

def take_proc_output (i : ℕ) : List UInt8 × State :=
  (s.out (slot_index i), { s with out := update s.out (slot_index i) [] })

def proc_write (i : ℕ) (bytes : List UInt8) : State :=
  { s with out := update s.out (slot_index i) (s.out (slot_index i) ++ bytes) }

/-- The oldest process that has exited makes room when the table is full. -/
def make_room (tab : List ProcEntry) : List ProcEntry :=
  if MAX_PROCS ≤ tab.length then tab.eraseP fun e => !e.running else tab

/-- The first entry with the pid gets the exit code. -/
def close (pid : UInt32) (code : UInt64) : List ProcEntry → List ProcEntry
  | [] => []
  | e :: tab => if e.pid = pid then { e with running := false, exit_code := code } :: tab
      else e :: close pid code tab

def exit_code : Except String UInt64 → UInt64
  | .ok code => code
  | .error _ => 0xFFFFFFFFFFFFFFFF

/-- The next access of task `i`. -/
def State.go (i : ℕ) : Option State :=
  match s.tasks i with
  | .start =>
    match s.pending with
    | [] => some (s.set i .exiting)
    | job :: rest => some ({ s with pending := rest }.set i (.popped job))
  | .popped job => some ((take_proc_output s i).2.set i (.cleared job))
  | .cleared job => some ({ s with next_pid := s.next_pid + 1 }.set i (.numbered job s.next_pid))
  | .numbered job pid =>
    let entry : ProcEntry := ⟨pid, job.name, true, 0, s.stack i⟩
    some ({ s with tab := make_room s.tab ++ [entry] }.set i (.named job pid))
  | .named job pid =>
    let slot := { ProcSlot.empty with pid := pid, mmio_next_va := USER_MMIO_BASE }
    some ((s.set_slot i slot).set i (.loading ⟨job, pid, [], USER_MMIO_BASE⟩))
  | .entering p =>
    some ((s.set_slot i { s.slot i with kernel_return_rsp := s.stack i }).set i (.ring3 p))
  | .returned p code =>
    let seen := (s.slot i).exit_code
    some ((s.tell (.code code seen)).set i (.ran p (.ok seen)))
  | .ran p result =>
    let found := s.tab.find? fun e => e.pid = p.pid
    some (({ s with tab := close p.pid (exit_code result) s.tab }.tell
      (.entry (s.stack i) (found.map ProcEntry.owner))).set i (.closed p result))
  | .closed p result =>
    let (output, s) := take_proc_output s i
    let s := match result with
      | .ok _ => s.tell (.output p.wrote output)
      | .error _ => s
    some (s.set i (.told p result output))
  | .told p result output =>
    some ({ s with done := ⟨p.job.issuer, p.job.name, output, result⟩ :: s.done }.set i .exiting)
  | .exiting => some (s.set i .dead)
  | _ => none

/-- `do_exit`. -/
def State.do_exit (i : ℕ) (p : Proc) (code : UInt64) : State :=
  let slot := s.slot i
  let s := s.set_slot i { slot with exit_code := code, user_running := false }
  let s := s.tell (.frame (s.stack i) slot.kernel_return_rsp)
  s.set i (if slot.kernel_return_rsp = s.stack i then .returned p code else .lost)

def State.next : Label → Option State
  | .launch i job =>
    if s.len ≤ i then none
    else match s.tasks i with
      | .kernel => some (exec_async s job)
      | .ring3 _ => some (exec_async s job)
      | _ => none
  | .go i => if s.len ≤ i then none else s.go i
  | .load i error =>
    if s.len ≤ i then none
    else match s.tasks i with
      | .loading p =>
        match error with
        | some e => some (s.set i (.ran p (.error e)))
        | none => some ((s.set_slot i { s.slot i with user_running := true }).set i (.entering p))
      | _ => none
  | .write i bytes =>
    if s.len ≤ i then none
    else match s.tasks i with
      | .ring3 p =>
        some ((proc_write s i bytes).set i (.ring3 { p with wrote := p.wrote ++ bytes }))
      | _ => none
  | .getpid i =>
    if s.len ≤ i then none
    else match s.tasks i with
      | .ring3 p => some (s.tell (.pid p.pid (s.slot i).pid))
      | _ => none
  | .mmap i pages =>
    if s.len ≤ i then none
    else match s.tasks i with
      | .ring3 p =>
        let slot := s.slot i
        if slot.user_running then
          some (((s.set_slot i { slot with mmio_next_va := slot.mmio_next_va + pages * 4096 }).tell
            (.cursor p.cursor slot.mmio_next_va)).set i
              (.ring3 { p with cursor := p.cursor + pages * 4096 }))
        else some s
      | _ => none
  | .exit i code =>
    if s.len ≤ i then none
    else match s.tasks i with
      | .ring3 p => if (s.slot i).user_running then some (s.do_exit i p code) else some s
      | _ => none

def Next (a : Label) (t : State) : Prop := s.next a = some t

/-! ## The property and the condition -/

/-- The pid of the process, from when it has one until its result is in the table. -/
def Phase.pid : Phase → Option UInt32
  | .numbered _ pid => some pid
  | .named _ pid => some pid
  | .loading p => some p.pid
  | .entering p => some p.pid
  | .ring3 p => some p.pid
  | .returned p _ => some p.pid
  | .ran p _ => some p.pid
  | _ => none

/-- No control state is shared: processes in ring 3 have slots of their own, and whatever the kernel
found in a slot was the calling process's. -/
structure Unmixed : Prop where
  slots : ∀ i < s.len, ∀ j < s.len, i ≠ j → (s.tasks i).in_ring3 = true →
    (s.tasks j).in_ring3 = true →
    slot_index i ≠ slot_index j
  log : ∀ e ∈ s.log, e.same

def Phase.takes_pid : Phase → Bool
  | .cleared _ => true
  | _ => false

/-- A pid that is given out is in nobody's hands: `NEXT_PID` comes round after 2³² processes. -/
def Fresh : Label → Prop
  | .go i => (s.tasks i).takes_pid = true →
      (∀ e ∈ s.tab, e.pid ≠ s.next_pid) ∧ ∀ j < s.len, (s.tasks j).pid ≠ some s.next_pid
  | _ => True

instance (a : Label) : Decidable (Fresh s a) := by
  cases a with
  | go i => exact inferInstanceAs (Decidable (_ → _ ∧ _))
  | launch | load | write | getpid | mmap | exit => exact isTrue trivial

/-! ## The invariant -/

/-- What the slot and the output of a task say in each phase. -/
def Owns (stack : ℕ) (slot : ProcSlot) (out : List UInt8) : Phase → Prop
  | .cleared _ => out = []
  | .numbered _ _ => out = []
  | .named _ _ => out = []
  | .loading p => out = p.wrote ∧ slot.mmio_next_va = p.cursor ∧ slot.pid = p.pid
  | .entering p => out = p.wrote ∧ slot.mmio_next_va = p.cursor ∧ slot.pid = p.pid
  | .ring3 p => out = p.wrote ∧ slot.mmio_next_va = p.cursor ∧ slot.pid = p.pid
      ∧ slot.kernel_return_rsp = stack
  | .returned p code => out = p.wrote ∧ slot.exit_code = code
  | .ran p _ => out = p.wrote
  | .closed p _ => out = p.wrote
  | _ => True

/-- The process has an entry in the table. -/
def Phase.entered : Phase → Bool
  | .numbered _ _ => false
  | ph => ph.pid.isSome

/-- The entries with the pid of a process are its own, and one of them is there and running. -/
structure Entered (tab : List ProcEntry) (stack : ℕ) (ph : Phase) (pid : UInt32) : Prop where
  own : ∀ e ∈ tab, e.pid = pid → e.owner = stack
  new : ph.entered = false → ∀ e ∈ tab, e.pid ≠ pid
  there : ph.entered = true → ∃ e ∈ tab, e.pid = pid ∧ e.running = true

structure Inv : Prop where
  owns : ∀ i < s.len, Owns (s.stack i) (s.slot i) (s.out (slot_index i)) (s.tasks i)
  pids : ∀ i < s.len, ∀ j < s.len, ∀ pid, (s.tasks i).pid = some pid →
    (s.tasks j).pid = some pid → i = j
  tab : ∀ i < s.len, ∀ pid, (s.tasks i).pid = some pid → Entered s.tab (s.stack i) (s.tasks i) pid
  log : ∀ e ∈ s.log, e.same

end

variable {tab : List ProcEntry} {e : ProcEntry} {code : UInt64} {stack : ℕ} {ph : Phase}

section

variable {s t u : State} {i : ℕ}

/-- With 32 tasks every task has a slot of its own. -/
theorem slot_index_inj {i j : ℕ} (hi : i < MAX_TASKS) (hj : j < MAX_TASKS) (hij : i ≠ j) :
    slot_index i ≠ slot_index j := by
  unfold slot_index MAX_TASKS
  unfold MAX_TASKS at hi hj
  omega

theorem Inv.unmixed (h : Inv s) (hlen : s.len ≤ MAX_TASKS) : Unmixed s :=
  ⟨fun _ hi _ hj hij _ _ => slot_index_inj (Nat.lt_of_lt_of_le hi hlen)
    (Nat.lt_of_lt_of_le hj hlen) hij, h.log⟩

theorem inv_start : Inv State.start := by
  have hkernel : ∀ i < 3, State.start.tasks i = .kernel := fun i hi => if_pos hi
  refine ⟨fun i hi => ?_, fun i hi j _ pid hpid => ?_, fun i hi pid hpid => ?_,
    fun e he => absurd he not_mem_nil⟩
  · rw [hkernel i hi]
    trivial
  · rw [hkernel i hi] at hpid
    exact absurd hpid (by simp [Phase.pid])
  · rw [hkernel i hi] at hpid
    exact absurd hpid (by simp [Phase.pid])

/-! ## The process table -/

theorem mem_make_room (h : e ∈ make_room tab) : e ∈ tab := by
  unfold make_room at h
  split_ifs at h
  · exact mem_of_mem_eraseP h
  · exact h

theorem mem_make_room_of_running (h : e ∈ tab) (hrun : e.running = true) : e ∈ make_room tab := by
  unfold make_room
  split_ifs
  · exact (mem_eraseP_of_neg (by simp [hrun])).mpr h
  · exact h

theorem mem_close {pid : UInt32}
    (h : e ∈ close pid code tab) : ∃ e' ∈ tab, e'.pid = e.pid ∧ e'.owner = e.owner
      ∧ e'.name = e.name := by
  induction tab with
  | nil => exact absurd h not_mem_nil
  | cons a tab ih =>
    unfold close at h
    split_ifs at h with hpid
    · rcases mem_cons.mp h with rfl | h
      · exact ⟨a, mem_cons_self, rfl, rfl, rfl⟩
      · exact ⟨e, mem_cons_of_mem _ h, rfl, rfl, rfl⟩
    · rcases mem_cons.mp h with rfl | h
      · exact ⟨e, mem_cons_self, rfl, rfl, rfl⟩
      · obtain ⟨e', he', hsame⟩ := ih h
        exact ⟨e', mem_cons_of_mem _ he', hsame⟩

theorem mem_close_of_ne {pid : UInt32} (h : e ∈ tab) (hne : e.pid ≠ pid) :
    e ∈ close pid code tab := by
  induction tab with
  | nil => exact h
  | cons a tab ih =>
    unfold close
    rcases mem_cons.mp h with rfl | h
    · rw [if_neg hne]
      exact mem_cons_self
    · split_ifs
      · exact mem_cons_of_mem _ h
      · exact mem_cons_of_mem _ (ih h)

theorem Entered.close {pid q : UInt32}
    (h : Entered tab stack ph pid) (hne : pid ≠ q) : Entered (close q code tab) stack ph pid := by
  refine ⟨fun e he hpid => ?_, fun hnew e he hpid => ?_, fun hin => ?_⟩
  · obtain ⟨e', he', hpid', howner, -⟩ := mem_close he
    rw [← howner]
    exact h.own e' he' (hpid'.trans hpid)
  · obtain ⟨e', he', hpid', -⟩ := mem_close he
    exact h.new hnew e' he' (hpid'.trans hpid)
  · obtain ⟨e, he, hpid, hrun⟩ := h.there hin
    exact ⟨e, mem_close_of_ne he (hpid ▸ hne), hpid, hrun⟩

theorem Entered.enter {pid : UInt32} {e0 : ProcEntry}
    (h : Entered tab stack ph pid) (hne : e0.pid ≠ pid) :
    Entered (make_room tab ++ [e0]) stack ph pid := by
  have hmem : ∀ e ∈ make_room tab ++ [e0], e.pid = pid → e ∈ tab := by
    intro e he hpid
    rcases mem_append.mp he with he | he
    · exact mem_make_room he
    · obtain rfl := mem_singleton.mp he
      exact absurd hpid hne
  refine ⟨fun e he hpid => h.own e (hmem e he hpid) hpid, fun hnew e he hpid => ?_, fun hin => ?_⟩
  · exact h.new hnew e (hmem e he hpid) hpid
  · obtain ⟨e, he, hpid, hrun⟩ := h.there hin
    exact ⟨e, mem_append_left _ (mem_make_room_of_running he hrun), hpid, hrun⟩

/-- The first entry with the pid is the process's own. -/
theorem Entered.find {pid : UInt32} (h : Entered tab stack ph pid) (hin : ph.entered = true) :
    (tab.find? fun e => e.pid = pid).map ProcEntry.owner = some stack := by
  cases hfind : tab.find? fun e => e.pid = pid with
  | none =>
    obtain ⟨e, he, hpid, -⟩ := h.there hin
    exact absurd (decide_eq_true hpid) (by simpa using List.find?_eq_none.mp hfind e he)
  | some e =>
    have hpid :=
      of_decide_eq_true (List.find?_some (p := fun e : ProcEntry => decide (e.pid = pid)) hfind)
    rw [map_some, h.own e (mem_of_find?_eq_some hfind) hpid]

/-! ## One step -/

/-- A step of task `i` touches at most its own slot and output, besides its phase. -/
structure Local (s u : State) (i : ℕ) : Prop where
  len : u.len = s.len := by rfl
  stack : u.stack = s.stack := by rfl
  tasks : u.tasks = s.tasks := by rfl
  slots : ∀ k, k ≠ slot_index i → u.slots k = s.slots k := by intros; rfl
  out : ∀ k, k ≠ slot_index i → u.out k = s.out k := by intros; rfl

theorem tasks_set_self (u : State) (i : ℕ) (ph : Phase) : (u.set i ph).tasks i = ph :=
  update_self _ _ _

theorem Local.other (hl : Local s u i) {j : ℕ} (hj : j ≠ i) : (u.set i ph).tasks j = s.tasks j :=
  (update_of_ne hj _ _).trans (congrFun hl.tasks j)

theorem log_tell {e : Event} (h : ∀ e ∈ s.log, e.same) (he : e.same) :
    ∀ e' ∈ e :: s.log, e'.same := by
  simpa [he] using h

/-- The new task's entry belongs to nobody. -/
theorem Inv.place (h : Inv s) {len place stack next_stack : ℕ} {pending : List AsyncJob}
    (hbelow : ∀ j < len, j ≠ place → j < s.len) :
    Inv { s with
      pending := pending,
      next_stack := next_stack,
      len := len,
      tasks := update s.tasks place .start,
      stack := update s.stack place stack } := by
  have hnew : update s.tasks place .start place = .start := update_self _ _ _
  have hold : ∀ j, j ≠ place → update s.tasks place .start j = s.tasks j :=
    fun j hj => update_of_ne hj _ _
  have hnone : ∀ j pid, (update s.tasks place .start j).pid = some pid → j ≠ place := by
    rintro j pid hp rfl
    simp [Phase.pid] at hp
  refine ⟨fun j hj => ?_, fun j hj k hk pid hjp hkp => ?_, fun j hj pid hjp => ?_, h.log⟩
  · dsimp only at hj ⊢
    by_cases hjp : j = place
    · rw [hjp, hnew]
      trivial
    · rw [hold j hjp, update_of_ne hjp]
      exact h.owns j (hbelow j hj hjp)
  · have hj' := hnone j pid hjp
    have hk' := hnone k pid hkp
    dsimp only at hj hk hjp hkp
    rw [hold j hj'] at hjp
    rw [hold k hk'] at hkp
    exact h.pids j (hbelow j hj hj') k (hbelow k hk hk') pid hjp hkp
  · have hj' := hnone j pid hjp
    dsimp only at hj hjp ⊢
    rw [hold j hj'] at hjp ⊢
    rw [update_of_ne hj']
    exact h.tab j (hbelow j hj hj') pid hjp

theorem Inv.exec_async (h : Inv s) (job : AsyncJob) : Inv (exec_async s job) := by
  unfold Slots.exec_async State.spawn
  dsimp only
  split_ifs
  · exact h
  · split
    · exact h.place fun j hj _ => hj
    · exact h.place fun j hj hne => Nat.lt_of_le_of_ne (Nat.le_of_lt_succ hj) hne

section

variable (h : Inv s) (hlen : s.len ≤ MAX_TASKS) (hi : i < s.len)

include h hlen hi

section

variable (hl : Local s u i) (hown : Owns (s.stack i) (u.slot i) (u.out (slot_index i)) ph)

include hl hown

/-- **Frame rule.** A step of task `i` touches its own phase, slot and output only, and of the table
the entries with its own pid. -/
theorem Inv.of_own (hpid : ∀ pid, ph.pid = some pid →
      (∀ j < s.len, j ≠ i → (s.tasks j).pid ≠ some pid) ∧ Entered u.tab (s.stack i) ph pid)
    (htab : ∀ j < s.len, j ≠ i → ∀ pid, (s.tasks j).pid = some pid →
      Entered u.tab (s.stack j) (s.tasks j) pid)
    (hlog : ∀ e ∈ u.log, e.same) : Inv (u.set i ph) := by
  have hlen' : (u.set i ph).len = s.len := hl.len
  have hstack : (u.set i ph).stack = s.stack := hl.stack
  have hself := tasks_set_self u i ph
  refine ⟨fun j hj => ?_, fun j hj k hk pid hjp hkp => ?_, fun j hj pid hjp => ?_, hlog⟩
  · rw [hlen'] at hj
    by_cases hji : j = i
    · rw [hji, hstack, hself]
      exact hown
    · -- tasks below `MAX_TASKS` have slots of their own
      have hne := slot_index_inj (Nat.lt_of_lt_of_le hj hlen) (Nat.lt_of_lt_of_le hi hlen) hji
      have hslot : (u.set i ph).slot j = s.slot j := hl.slots _ hne
      have hout : (u.set i ph).out (slot_index j) = s.out (slot_index j) := hl.out _ hne
      rw [hstack, hl.other hji, hslot, hout]
      exact h.owns j hj
  · rw [hlen'] at hj hk
    by_cases hji : j = i
    · rw [hji, hself] at hjp
      by_cases hki : k = i
      · rw [hji, hki]
      · rw [hl.other hki] at hkp
        -- a new number is nobody else's
        exact absurd hkp ((hpid pid hjp).1 k hk hki)
    · rw [hl.other hji] at hjp
      by_cases hki : k = i
      · rw [hki, hself] at hkp
        exact absurd hjp ((hpid pid hkp).1 j hj hji)
      · rw [hl.other hki] at hkp
        exact h.pids j hj k hk pid hjp hkp
  · rw [hlen'] at hj
    rw [hstack]
    by_cases hji : j = i
    · rw [hji, hself] at hjp ⊢
      exact (hpid pid hjp).2
    · rw [hl.other hji] at hjp ⊢
      exact htab j hj hji pid hjp

/-- A process gives up its pid, or has none. -/
theorem Inv.ends (htab : u.tab = s.tab) (hpid : ph.pid = none) (hlog : ∀ e ∈ u.log, e.same) :
    Inv (u.set i ph) := by
  refine h.of_own hlen hi hl hown (fun pid hp => ?_) (fun j hj _ pid hp => ?_) hlog
  · rw [hpid] at hp
    simp at hp
  · rw [htab]
    exact h.tab j hj pid hp

end

/-- A process keeps its pid, and its slot is `slot` now. -/
theorem Inv.goes {old : Phase} {slot : ProcSlot} (hph : s.tasks i = old) (hl : Local s u i)
    (hslot : u.slot i = slot) (hown : Owns (s.stack i) slot (u.out (slot_index i)) ph)
    (htab : u.tab = s.tab) (hpid : ph.pid = old.pid) (hin : ph.entered = old.entered)
    (hlog : ∀ e ∈ u.log, e.same) :
    Inv (u.set i ph) := by
  subst hph
  refine h.of_own hlen hi hl (hslot ▸ hown) (fun pid hp => ?_) (fun j hj _ pid hp => ?_) hlog
  · rw [hpid] at hp
    have hentered := h.tab i hi pid hp
    refine ⟨fun j hj hji hjp => hji (h.pids j hj i hi pid hjp hp), ?_⟩
    rw [htab]
    exact ⟨hentered.own, fun hnew => hentered.new (hin ▸ hnew),
      fun hyes => hentered.there (hin ▸ hyes)⟩
  · rw [htab]
    exact h.tab j hj pid hp

theorem Inv.number {job : AsyncJob} (hph : s.tasks i = .cleared job) (hfresh : Fresh s (.go i)) :
    Inv ({ s with next_pid := s.next_pid + 1 }.set i (.numbered job s.next_pid)) := by
  obtain ⟨htab, htasks⟩ := hfresh (by rw [hph]; rfl)
  have howns := h.owns i hi
  rw [hph] at howns
  refine h.of_own hlen hi {} howns (fun pid hp => ?_) (fun j hj _ pid hp => h.tab j hj pid hp) h.log
  cases hp
  exact ⟨fun j hj _ => htasks j hj, fun e he hpid => absurd hpid (htab e he), fun _ => htab,
    fun hin => by simp [Phase.entered] at hin⟩

theorem Inv.enter {job : AsyncJob} {pid : UInt32} (hph : s.tasks i = .numbered job pid) :
    Inv ({ s with tab := make_room s.tab
        ++ [(⟨pid, job.name, true, 0, s.stack i⟩ : ProcEntry)] }.set i (.named job pid)) := by
  have hpid : (s.tasks i).pid = some pid := by rw [hph]; rfl
  have hentered := h.tab i hi pid hpid
  have howns := h.owns i hi
  rw [hph] at howns
  refine h.of_own hlen hi {} howns (fun q hq => ?_) (fun j hj hji q hq => ?_) h.log
  · cases hq
    refine ⟨fun j hj hji hjp => hji (h.pids j hj i hi pid hjp hpid), fun e he hep => ?_,
      fun hnew => by simp [Phase.entered, Phase.pid] at hnew, fun _ => ?_⟩
    · rcases mem_append.mp he with he | he
      · exact hentered.own e (mem_make_room he) hep
      · obtain rfl := mem_singleton.mp he
        rfl
    · exact ⟨_, mem_append_right _ (mem_singleton_self _), rfl, rfl⟩
  · refine (h.tab j hj q hq).enter fun heq => ?_
    exact hji (h.pids j hj i hi q hq (heq ▸ hpid))

theorem Inv.close {p : Proc} {result : Except String UInt64} (hph : s.tasks i = .ran p result) :
    Inv (({ s with tab := close p.pid (exit_code result) s.tab }.tell
      (.entry (s.stack i)
        ((s.tab.find? fun e : ProcEntry => e.pid = p.pid).map ProcEntry.owner))).set i
        (.closed p result)) := by
  have hpid : (s.tasks i).pid = some p.pid := by rw [hph]; rfl
  have hentered := h.tab i hi p.pid hpid
  have howns := h.owns i hi
  rw [hph] at howns hentered
  rw [hentered.find rfl]
  refine h.of_own hlen hi {} howns (fun q hq => ?_) (fun j hj hji q hq => ?_) (log_tell h.log rfl)
  · simp [Phase.pid] at hq
  · exact (h.tab j hj q hq).close fun heq => hji (h.pids j hj i hi q hq (heq ▸ hpid))

theorem Inv.go (hfresh : Fresh s (.go i)) (hgo : s.go i = some t) : Inv t := by
  have howns := h.owns i hi
  unfold State.go at hgo
  -- one access for each phase
  cases hph : s.tasks i with (rw [hph] at hgo howns)
  | dead | kernel | loading | ring3 | lost => simp at hgo
  | start =>
    dsimp only at hgo
    split at hgo
    all_goals
      cases hgo
      exact h.ends hlen hi {} trivial rfl rfl h.log
  | popped job =>
    cases hgo
    exact h.ends hlen hi { out := fun k hk => update_of_ne hk _ _ }
      (update_self _ _ _) rfl rfl h.log
  | cleared job =>
    cases hgo
    exact h.number hlen hi hph hfresh
  | numbered job pid =>
    cases hgo
    exact h.enter hlen hi hph
  | named job pid =>
    cases hgo
    exact h.goes hlen hi hph { slots := fun k hk => update_of_ne hk _ _ } (update_self _ _ _)
      ⟨howns, rfl, rfl⟩ rfl rfl rfl h.log
  | entering p =>
    cases hgo
    obtain ⟨hout, hcursor, hpid⟩ := howns
    exact h.goes hlen hi hph { slots := fun k hk => update_of_ne hk _ _ } (update_self _ _ _)
      ⟨hout, hcursor, hpid, rfl⟩ rfl rfl rfl h.log
  | returned p code =>
    cases hgo
    exact h.goes hlen hi hph {} rfl howns.1 rfl rfl rfl (log_tell h.log howns.2.symm)
  | ran p result =>
    cases hgo
    exact h.close hlen hi hph
  | closed p result =>
    cases hgo
    have hout : p.wrote = s.out (slot_index i) := howns.symm
    cases result with
    | ok code =>
      exact h.ends hlen hi { out := fun k hk => update_of_ne hk _ _ } trivial rfl rfl
        (log_tell h.log hout)
    | error e =>
      exact h.ends hlen hi { out := fun k hk => update_of_ne hk _ _ } trivial rfl rfl h.log
  | told p result output | exiting =>
    cases hgo
    exact h.ends hlen hi {} trivial rfl rfl h.log

/-- `do_exit` comes back to the frame of the calling task. -/
theorem Inv.do_exit {p : Proc} (hph : s.tasks i = .ring3 p) : Inv (s.do_exit i p code) := by
  have howns := h.owns i hi
  rw [hph] at howns
  obtain ⟨hout, -, -, hrsp⟩ := howns
  unfold State.do_exit
  dsimp only
  split_ifs with hframe
  · exact h.goes hlen hi hph { slots := fun k hk => update_of_ne hk _ _ } (update_self _ _ _)
      ⟨hout, rfl⟩ rfl rfl rfl (log_tell h.log hrsp.symm)
  · exact absurd hrsp hframe

end

/-- Only tasks of the table take steps. -/
theorem task_of_next {r : Option State} (hr : (if s.len ≤ i then none else r) = some t) :
    i < s.len ∧ r = some t := by
  by_cases hi : s.len ≤ i
  · rw [if_pos hi] at hr
    simp at hr
  · rw [if_neg hi] at hr
    exact ⟨Nat.lt_of_not_le hi, hr⟩

/-- **One step** keeps the invariant, as long as there are no more tasks than slots. -/
theorem Inv.step (h : Inv s) (hlen : s.len ≤ MAX_TASKS) {a : Label} (hstep : Next s a t)
    (hfresh : Fresh s a) :
    Inv t := by
  cases a with
  | launch i job =>
    obtain ⟨-, hstep⟩ := task_of_next hstep
    -- a launch is made by the kernel or from ring 3
    split at hstep
    case h_1 | h_2 =>
      cases hstep
      exact h.exec_async job
    · simp at hstep
  | go i =>
    obtain ⟨hi, hstep⟩ := task_of_next hstep
    exact h.go hlen hi hfresh hstep
  -- a load writes the slot of its task, or nothing when it fails
  | load i error =>
    obtain ⟨hi, hstep⟩ := task_of_next hstep
    split at hstep
    case h_1 p hph =>
      have howns := h.owns i hi
      rw [hph] at howns
      cases error with
      | some e =>
        cases hstep
        exact h.goes hlen hi hph {} rfl howns.1 rfl rfl rfl h.log
      | none =>
        cases hstep
        exact h.goes hlen hi hph { slots := fun k hk => update_of_ne hk _ _ } (update_self _ _ _)
          howns rfl rfl rfl h.log
    · simp at hstep
  | write i bytes =>
    obtain ⟨hi, hstep⟩ := task_of_next hstep
    split at hstep
    case h_1 p hph =>
      cases hstep
      have howns := h.owns i hi
      rw [hph] at howns
      obtain ⟨hout, hrest⟩ := howns
      refine h.goes hlen hi hph { out := fun k hk => update_of_ne hk _ _ } rfl
        ⟨?_, hrest⟩ rfl rfl rfl h.log
      rw [← hout]
      exact update_self _ _ _
    · simp at hstep
  | getpid i =>
    obtain ⟨hi, hstep⟩ := task_of_next hstep
    split at hstep
    case h_1 p hph =>
      cases hstep
      have howns := h.owns i hi
      rw [hph] at howns
      exact ⟨h.owns, h.pids, h.tab, log_tell h.log howns.2.2.1.symm⟩
    · simp at hstep
  | mmap i pages =>
    obtain ⟨hi, hstep⟩ := task_of_next hstep
    split at hstep
    case h_1 p hph =>
      dsimp only at hstep
      split_ifs at hstep
      · cases hstep
        have howns := h.owns i hi
        rw [hph] at howns
        obtain ⟨hout, hcursor, hpid, hrsp⟩ := howns
        exact h.goes hlen hi hph { slots := fun k hk => update_of_ne hk _ _ } (update_self _ _ _)
          ⟨hout, congrArg (· + pages * 4096) hcursor, hpid, hrsp⟩ rfl rfl rfl
            (log_tell h.log hcursor.symm)
      · cases hstep
        exact h
    · simp at hstep
  | exit i code =>
    obtain ⟨hi, hstep⟩ := task_of_next hstep
    split at hstep
    case h_1 p hph =>
      split_ifs at hstep
      · cases hstep
        exact h.do_exit hlen hi hph
      · cases hstep
        exact h
    · simp at hstep

theorem len_go (hgo : s.go i = some t) : t.len = s.len := by
  unfold State.go at hgo
  cases hph : s.tasks i with (rw [hph] at hgo)
  | dead | kernel | loading | ring3 | lost =>
    simp at hgo
  | start =>
    dsimp only at hgo
    split at hgo
    all_goals
      cases hgo
      rfl
  | closed p result =>
    cases hgo
    cases result with
    | ok code | error e => rfl
  | popped | cleared | numbered | named | entering | returned | ran | told | exiting =>
    cases hgo
    rfl

/-- The table of tasks never shrinks. -/
theorem len_le_of_next {a : Label} (hstep : Next s a t) : s.len ≤ t.len := by
  cases a with
  | launch i job =>
    have hlen : s.len ≤ (exec_async s job).len := by
      unfold exec_async State.spawn
      dsimp only
      split_ifs
      · exact le_rfl
      · split
        · exact le_rfl
        · exact Nat.le_succ _
    obtain ⟨-, hstep⟩ := task_of_next hstep
    split at hstep
    case h_1 | h_2 =>
      cases hstep
      exact hlen
    · simp at hstep
  | go i => exact (len_go (task_of_next hstep).2).ge
  | load i error =>
    obtain ⟨-, hstep⟩ := task_of_next hstep
    split at hstep
    · cases error with
      | some e | none =>
        cases hstep
        exact le_rfl
    · simp at hstep
  | write i bytes | getpid i =>
    obtain ⟨-, hstep⟩ := task_of_next hstep
    split at hstep
    · cases hstep
      exact le_rfl
    · simp at hstep
  | mmap i pages =>
    obtain ⟨-, hstep⟩ := task_of_next hstep
    split at hstep
    · dsimp only at hstep
      split_ifs at hstep
      all_goals
        cases hstep
        exact le_rfl
    · simp at hstep
  | exit i code =>
    obtain ⟨-, hstep⟩ := task_of_next hstep
    split at hstep
    · split_ifs at hstep
      all_goals
        cases hstep
        exact le_rfl
    · simp at hstep

end

/-- **Control state is not shared**, as long as there have never been more than 32 tasks at once and
no pid is given out twice. The table of tasks never shrinks, so the bound on the last state is one
on the whole run. -/
theorem unmixed_of_few {l : List Label} {s : State}
    (h : Steps (fun s a t => Next s a t ∧ Fresh s a) State.start l s) (hlen : s.len ≤ MAX_TASKS) :
    Unmixed s := by
  have hinv : s.len ≤ MAX_TASKS → Inv s := by
    refine h.keeps (P := fun s => s.len ≤ MAX_TASKS → Inv s) (fun _ => inv_start) ?_
    intro v a w hv hstep hw
    have hv' : v.len ≤ MAX_TASKS := Nat.le_trans (len_le_of_next hstep.1) hw
    exact (hv hv').step hv' hstep.1 hstep.2
  exact (hinv hlen).unmixed hlen

def hello : AsyncJob := ⟨2, "hello", [0x7F], 0⟩

/-- A task takes a job and brings it to ring 3. -/
def start_job (i : ℕ) : List Label := [.go i, .go i, .go i, .go i, .go i, .load i none, .go i]

def exit_three : List Label :=
  [.write 3 [1], .write 4 [2], .mmap 3 1, .getpid 4, .exit 3 7, .go 3, .go 3, .go 3]

/-- Two processes at the same time; the first one exits with code 7. -/
def two_processes : List Label :=
  List.replicate 2 (Label.launch 0 hello) ++ start_job 3 ++ start_job 4 ++ exit_three

theorem unmixed_of_few_two :
    ∃ s, Steps (fun s a t => Next s a t ∧ Fresh s a) State.start two_processes s
    ∧ s.len = 5 ∧ s.log.length = 6 ∧ Unmixed s := by
  have hrun : (run (fun s a => if Fresh s a then State.next s a
    else none) State.start two_processes).map
      (fun s => (s.len, s.log.length)) = some (5, 6) := by decide +kernel
  obtain ⟨s, hs, hlens⟩ := map_eq_some_iff.mp hrun
  obtain ⟨hlen, hlog⟩ := Prod.mk.inj hlens
  have h := Steps.of_run_if _ hs
  exact ⟨s, h, hlen, hlog, unmixed_of_few h (by rw [hlen]; decide)⟩

/-- Thirty processes are launched, and the last two are brought to ring 3. -/
def thirty_processes : List Label :=
  List.replicate 30 (Label.launch 0 hello) ++ start_job 31 ++ start_job 32

/-- The tasks 31 and 32 have one slot, and the exit of the first goes on in the frame of the
second. -/
theorem last_tasks_share_slot :
    ∃ s, Steps Next State.start (thirty_processes ++ [Label.exit 31 7]) s
    ∧ s.log = [.frame 31 32] ∧ ¬ Unmixed s := by
  have hrun : (run State.next State.start (thirty_processes ++ [Label.exit 31 7])).map State.log
      = some [.frame 31 32] := by decide +kernel
  obtain ⟨s, hs, hlog⟩ := map_eq_some_iff.mp hrun
  refine ⟨s, .of_run _ hs, hlog, fun h => ?_⟩
  have hsame : (31 : ℕ) = 32 := h.log (.frame 31 32) (by rw [hlog]; exact mem_singleton_self _)
  exact absurd hsame (by decide)

end HepOS.Process.Slots
