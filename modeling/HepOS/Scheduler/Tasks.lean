/-
The scheduler (`scheduler.rs`) on the machine it runs on.

A switch has two halves. Under the lock `next` picks the task that goes on and makes it the current
one; after the lock is released `context_switch` stores the stack pointer of the task that leaves
and loads that of the task that comes. The machine takes them as separate steps, since in `sleep_ms`
and `exit_current` interrupts may be on in between.

What a task will do is the list of its frames, the innermost first: where it has been interrupted,
what it returns to, and its own code at the bottom. The frames of a task that does not run are on
its stack (`conts`). A stack pointer is named by the stack it points into and by the number of the
switch that stored it; the two stacks of a task, `_stack` and `_kstack`, are named by one number,
which `Task::new` has never given out before. A system call or an interrupt in ring 3 goes on at the
top of the `_kstack` that `use_kstack` was last called with. `kmain` goes on as task 0, so the boot
stack and the one `syscall::init` allocates count as task 0's.

The lock is held with interrupts as they are. A timer interrupt that comes then waits for the lock
for ever, since its holder does not run: nothing follows, and a critical section is one step here.
-/
import HepOS.Lib.Trace

set_option autoImplicit false

namespace HepOS.Sched

open Function

/-! ## Tasks and `next` -/

inductive TaskState
  | Running | Ready | Blocked | Dead
deriving DecidableEq, Repr

/-- A stack pointer: the stack, and which of the pointers into it that were ever stored. -/
structure Sp where
  stack : ℕ
  stamp : ℕ
deriving DecidableEq, Repr

structure Task where
  state : TaskState
  wake_at : UInt64
  waiting_irq : Option UInt8
  cr3 : UInt64
  /-- `_stack` and `_kstack`. -/
  stack : ℕ
  rsp : Sp
  /-- The name of `_kstack`. -/
  kstack_top : ℕ

/-- `Task::new` has allocated the stacks and read `cr3`. -/
def Task.new (stack : ℕ) (cr3 : UInt64) : Task := ⟨.Ready, 0, none, cr3, stack, ⟨stack, 0⟩, stack⟩

/-- The vector of tasks is its length and its entries. -/
structure Scheduler where
  len : ℕ
  tasks : ℕ → Task
  current : ℕ

def Scheduler.set (s : Scheduler) (i : ℕ) (t : Task) : Scheduler :=
  { s with tasks := update s.tasks i t }

/-- What `next` returns. `old_rsp` is a pointer to the `rsp` field of that task. -/
structure Switch where
  old_rsp : ℕ
  new_rsp : Sp
  new_cr3 : UInt64
  new_kstack_top : ℕ

/-- A task whose time has come. -/
def wake (now : UInt64) (t : Task) : Task :=
  if t.state = .Blocked ∧ t.waiting_irq = none ∧ t.wake_at ≤ now
    then { t with state := .Ready } else t

/-- The loop that looks for a task that is ready. -/
def pick (tasks : ℕ → Task) (n : ℕ) : ℕ → ℕ → ℕ
  | 0, next => next
  | k + 1, next => if (tasks next).state = .Ready then next else pick tasks n k ((next + 1) % n)

def Scheduler.next (s : Scheduler) (now : UInt64) : Option Switch × Scheduler :=
  if s.len < 2 then (none, s)
  else
    let tasks := fun i => wake now (s.tasks i)
    let next := pick tasks s.len s.len ((s.current + 1) % s.len)
    if (tasks next).state ≠ .Ready then (none, { s with tasks := tasks })
    else if next = s.current then (none, { s with tasks := tasks })
    else
      let left := if (tasks s.current).state = .Running then
          update tasks s.current { tasks s.current with state := .Ready }
        else tasks
      let tasks := update left next { left next with state := .Running }
      (some ⟨s.current, (tasks next).rsp, (tasks next).cr3, (tasks next).kstack_top⟩,
        ⟨s.len, tasks, next⟩)

def wake_irq_waiters (s : Scheduler) (vector : UInt8) : Scheduler :=
  { s with tasks := fun i =>
      if (s.tasks i).state = .Blocked ∧ (s.tasks i).waiting_irq = some vector then
        { s.tasks i with waiting_irq := none, state := .Ready }
      else s.tasks i }

/-! ## The machine -/

inductive Frame
  /-- The task's own code. -/
  | code
  /-- Ring 3. -/
  | user
  /-- The lock has been released and `context_switch` comes. -/
  | window (sw : Switch)
  /-- In `context_switch`, with the old pointer stored and the new one not loaded. -/
  | stored (sw : Switch)
  /-- There is nobody to switch to: `sleep_ms`, or `block_on_irq`, undoes what it has set. -/
  | fall (irq : Bool)
  /-- `context_switch` has returned in `sleep_ms` or `block_on_irq`; the flag is the one they were
  called with. -/
  | back (ifl : Bool)
  /-- `timer_stub` after `tick`; the flag is the one on the interrupt frame. -/
  | isr (ifl : Bool)
  /-- `task_trampoline`. -/
  | boot
  /-- The loop at the end of `exit_current`. -/
  | halt

/-- A store of `context_switch`: the stack of the task that the field belongs to, and what is
stored. -/
structure Store where
  task : ℕ
  rsp : Sp
deriving DecidableEq, Repr

/-- A load: the stack of the task that is now the current one, what is loaded, and the number of the
last pointer that was stored for the task. -/
structure Load where
  task : ℕ
  rsp : Sp
  last : ℕ
deriving DecidableEq, Repr

/-- A task goes on with what it did: the interrupt flag, the flag when it was switched out, and
whether the timer interrupt has not been acknowledged. -/
structure Resumed where
  ifl : Bool
  before : Bool
  in_service : Bool
deriving DecidableEq, Repr

structure Machine where
  sched : Scheduler
  /-- `TICK_COUNT` -/
  ticks : UInt64
  /-- The stack that the stack pointer is in. -/
  flow : ℕ
  frames : List Frame
  /-- `RFLAGS.IF` -/
  ifl : Bool
  /-- The local APIC waits for an EOI of the timer. -/
  in_service : Bool
  cr3 : UInt64
  /-- `PERCPU.kernel_stack` and `RSP0`. -/
  kstack : ℕ
  /-- What is on the stacks of tasks that do not run. -/
  conts : ℕ → List Frame
  /-- How many pointers into a stack have been stored or have become worthless. -/
  stamps : ℕ → ℕ
  /-- How many stacks there have been. -/
  next_stack : ℕ
  stores : List Store
  loads : List Load
  resumes : List Resumed

def TIMER_VECTOR : UInt8 := 0x20

section

variable (m : Machine)

/-- `next` under the lock, and where the code goes on. -/
def Machine.yield (s : Scheduler) (after otherwise : List Frame) : Machine :=
  match s.next m.ticks with
  | (some sw, s) => { m with sched := s, frames := .window sw :: after }
  | (none, s) => { m with sched := s, frames := otherwise }

def Machine.sleep_ms (ms : UInt64) : Machine :=
  let ticks := max (ms / 10) 1
  let cur := m.sched.current
  let task := { m.sched.tasks cur with wake_at := m.ticks + ticks, state := .Blocked }
  m.yield (m.sched.set cur task) (.back m.ifl :: m.frames) (.fall false :: m.frames)

def Machine.block_on_irq (vector : UInt8) : Machine :=
  let cur := m.sched.current
  let task := { m.sched.tasks cur with
    waiting_irq := some vector, wake_at := 0xFFFFFFFFFFFFFFFF, state := .Blocked }
  m.yield (m.sched.set cur task) (.back m.ifl :: m.frames) (.fall true :: m.frames)

def Machine.exit_current : Machine :=
  let cur := m.sched.current
  m.yield (m.sched.set cur { m.sched.tasks cur with state := .Dead }) [.halt] [.halt]

/-- The timer interrupt and `tick`. -/
def Machine.tick : Machine :=
  { m with ticks := m.ticks + 1, ifl := false, in_service := true }.yield
    (wake_irq_waiters m.sched TIMER_VECTOR) (.isr m.ifl :: m.frames) (.isr m.ifl :: m.frames)

/-- A new task with stacks of its own, in the place of a dead one or behind the last. -/
def Machine.spawn : Machine :=
  let task := Task.new m.next_stack m.cr3
  let m := { m with
    next_stack := m.next_stack + 1,
    conts := update m.conts m.next_stack [.boot, .code],
    stamps := update m.stamps m.next_stack 0 }
  match (List.range m.sched.len).find? fun i => (m.sched.tasks i).state = .Dead with
  | some slot => { m with sched := m.sched.set slot task }
  | none => { m with sched := { m.sched.set m.sched.len task with len := m.sched.len + 1 } }

/-- The first half of `context_switch`, and what its callers do before it. -/
def Machine.store (sw : Switch) (rest : List Frame) : Machine :=
  let task := m.sched.tasks sw.old_rsp
  let rsp : Sp := ⟨m.flow, m.stamps m.flow + 1⟩
  { m with
    kstack := sw.new_kstack_top,
    cr3 := sw.new_cr3,
    sched := m.sched.set sw.old_rsp { task with rsp := rsp },
    conts := update m.conts m.flow rest,
    stamps := update m.stamps m.flow (m.stamps m.flow + 1),
    frames := .stored sw :: rest,
    stores := ⟨task.stack, rsp⟩ :: m.stores }

/-- The second half. What is found at an old pointer is not known, so nothing follows. -/
def Machine.load (sw : Switch) : Machine :=
  let task := (m.sched.tasks m.sched.current).stack
  { m with
    flow := sw.new_rsp.stack,
    frames := if sw.new_rsp.stamp = m.stamps sw.new_rsp.stack then m.conts sw.new_rsp.stack else [],
    loads := ⟨task, sw.new_rsp, m.stamps task⟩ :: m.loads }

/-- The next step of the innermost frame. -/
def Machine.go : Option Machine :=
  match m.frames with
  | .window sw :: rest => some (m.store sw rest)
  | .stored sw :: _ => some (m.load sw)
  | .fall irq :: rest =>
    let task := m.sched.tasks m.sched.current
    let task := { task with
      state := .Running, waiting_irq := if irq then none else task.waiting_irq }
    some { m with sched := m.sched.set m.sched.current task, frames := rest }
  | .back ifl :: rest =>
    some { m with frames := rest, resumes := ⟨m.ifl, ifl, m.in_service⟩ :: m.resumes }
  -- `call eoi`, `iretq`
  | .isr ifl :: rest =>
    some { m with
      frames := rest, ifl := ifl, in_service := false,
      resumes := ⟨ifl, ifl, false⟩ :: m.resumes }
  -- `call eoi`, `sti`, `jmp rbx`
  | .boot :: rest =>
    some { m with
      frames := rest, ifl := true, in_service := false,
      resumes := ⟨true, true, false⟩ :: m.resumes }
  | _ => none

/-- The way into the kernel from ring 3: the stack pointer is set to the top of the stack that
`PERCPU.kernel_stack` or `RSP0` names, whatever was there. -/
def Machine.enter : Machine :=
  { m with flow := m.kstack, stamps := update m.stamps m.kstack (m.stamps m.kstack + 1) }

/-- An interrupt in the kernel stays on the stack it finds. -/
def Machine.interrupted : Machine :=
  match m.frames with
  | .user :: _ => m.enter
  | _ => m

inductive Label
  /-- The task's own code in the kernel leaves the interrupt flag as it wants it. -/
  | code (ifl : Bool)
  | write_cr3 (cr3 : UInt64)
  | set_current_cr3 (cr3 : UInt64)
  /-- `enter_ring3`, or the `sysretq` at the end of a system call. -/
  | enter_ring3
  | syscall
  | spawn
  | sleep_ms (ms : UInt64)
  | block_on_irq (vector : UInt8)
  | exit_current
  | timer
  | go
deriving DecidableEq, Repr

/-- The task's own code runs. -/
def Machine.in_code : Bool :=
  match m.frames with
  | .code :: _ => true
  | _ => false

def Machine.next : Label → Option Machine
  | .code ifl => if m.in_code then some { m with ifl := ifl } else none
  | .write_cr3 cr3 => if m.in_code then some { m with cr3 := cr3 } else none
  | .set_current_cr3 cr3 =>
    let task := m.sched.tasks m.sched.current
    if m.in_code then some { m with sched := m.sched.set m.sched.current { task with cr3 := cr3 } }
      else none
  | .enter_ring3 =>
    if m.in_code then some { m with frames := .user :: m.frames, ifl := true } else none
  | .syscall =>
    match m.frames with
    | .user :: rest => some { m.enter with frames := rest, ifl := false }
    | _ => none
  | .spawn => if m.in_code then some m.spawn else none
  | .sleep_ms ms => if m.in_code then some (m.sleep_ms ms) else none
  | .block_on_irq vector => if m.in_code then some (m.block_on_irq vector) else none
  | .exit_current => if m.in_code then some m.exit_current else none
  | .timer => if m.ifl ∧ ¬ m.in_service ∧ m.frames ≠ [] then some m.interrupted.tick else none
  | .go => m.go

def Next (a : Label) (m' : Machine) : Prop := m.next a = some m'

end

/-- The end of `kmain`: three tasks, the first of which is `kmain` itself. -/
def Machine.start (cr3 : UInt64) : Machine where
  sched := ⟨3, update (fun i => Task.new i cr3) 0 { Task.new 0 cr3 with state := .Running }, 0⟩
  ticks := 0
  flow := 0
  frames := [.code]
  ifl := false
  in_service := false
  cr3 := cr3
  kstack := 0
  conts := fun _ => [.boot, .code]
  stamps := fun _ => 0
  next_stack := 3
  stores := []
  loads := []
  resumes := []

/-! ## What `next` does -/

/-- The stacks of a task and its pointer are as before. -/
structure Task.Fixed (t t' : Task) : Prop where
  stack : t'.stack = t.stack
  rsp : t'.rsp = t.rsp
  kstack_top : t'.kstack_top = t.kstack_top

/-- The same task, dead or alive as before. -/
structure Task.Same (t t' : Task) : Prop extends Task.Fixed t t' where
  dead : t'.state = .Dead ↔ t.state = .Dead

theorem Task.Same.refl (t : Task) : Task.Same t t := ⟨⟨rfl, rfl, rfl⟩, Iff.rfl⟩

theorem Task.Fixed.trans {t t' t'' : Task} (h : Task.Fixed t t') (h' : Task.Fixed t' t'') :
    Task.Fixed t t'' :=
  ⟨h'.stack.trans h.stack, h'.rsp.trans h.rsp, h'.kstack_top.trans h.kstack_top⟩

theorem Task.Same.trans {t t' t'' : Task} (h : Task.Same t t') (h' : Task.Same t' t'') :
    Task.Same t t'' :=
  ⟨h.toFixed.trans h'.toFixed, h'.dead.trans h.dead⟩

theorem wake_same (now : UInt64) (t : Task) : Task.Same t (wake now t) := by
  unfold wake
  split_ifs with hwake
  · exact ⟨⟨rfl, rfl, rfl⟩, by simp [hwake.1]⟩
  · exact .refl t

theorem wake_irq_waiters_same (s : Scheduler) (vector : UInt8) (i : ℕ) :
    Task.Same (s.tasks i) ((wake_irq_waiters s vector).tasks i) := by
  unfold wake_irq_waiters
  dsimp only
  split_ifs with hwake
  · exact ⟨⟨rfl, rfl, rfl⟩, by simp [hwake.1]⟩
  · exact .refl _

theorem pick_lt (tasks : ℕ → Task) (n : ℕ) (k : ℕ) : ∀ {next : ℕ}, next < n →
    pick tasks n k next < n := by
  induction k with
  | zero => exact fun h => h
  | succ k ih =>
    intro next h
    unfold pick
    split_ifs
    · exact h
    · exact ih (Nat.mod_lt _ (by omega))

/-- What `next` can do: nothing but wake tasks, or make another task that is not dead the current
one. -/
inductive Picks (s : Scheduler) : Option Switch → Scheduler → Prop
  | stay {tasks : ℕ → Task} (hsame : ∀ i, Task.Same (s.tasks i) (tasks i)) :
      Picks s none { s with tasks := tasks }
  | leave {tasks : ℕ → Task} {n : ℕ} {cr3 : UInt64} (hsame : ∀ i, Task.Same (s.tasks i) (tasks i))
      (hlt : n < s.len) (hne : n ≠ s.current) (halive : (tasks n).state ≠ .Dead) :
      Picks s (some ⟨s.current, (tasks n).rsp, cr3, (tasks n).kstack_top⟩) ⟨s.len, tasks, n⟩

theorem next_spec (s : Scheduler) (now : UInt64) : Picks s (s.next now).1 (s.next now).2 := by
  unfold Scheduler.next
  by_cases hfew : s.len < 2
  · rw [if_pos hfew]
    exact .stay fun i => .refl _
  rw [if_neg hfew]
  dsimp only
  have hwake : ∀ i, Task.Same (s.tasks i) (wake now (s.tasks i)) := fun i => wake_same now _
  have hlt : pick (fun i => wake now (s.tasks i)) s.len s.len ((s.current + 1) % s.len) < s.len :=
    pick_lt _ _ _ (Nat.mod_lt _ (by omega))
  generalize pick (fun i => wake now (s.tasks i)) s.len s.len ((s.current + 1) % s.len) = n at hlt
  by_cases hready : (wake now (s.tasks n)).state ≠ .Ready
  · rw [if_pos hready]
    exact .stay hwake
  rw [if_neg hready]
  have hready : (wake now (s.tasks n)).state = .Ready := not_not.mp hready
  by_cases hcur : n = s.current
  · rw [if_pos hcur]
    exact .stay hwake
  rw [if_neg hcur]
  -- the task that leaves keeps its state unless it was running
  have hleft : ∀ i, Task.Same (s.tasks i) ((if (wake now (s.tasks s.current)).state = .Running then
      update (fun i => wake now (s.tasks i)) s.current
        { wake now (s.tasks s.current) with state := .Ready }
      else fun i => wake now (s.tasks i)) i) := by
    intro i
    split_ifs with hrun
    · by_cases hi : i = s.current
      · subst hi
        rw [update_self]
        refine (hwake _).trans ⟨⟨rfl, rfl, rfl⟩, ?_⟩
        simp [hrun]
      · rw [update_of_ne hi]
        exact hwake i
    · exact hwake i
  have hstate : ((if (wake now (s.tasks s.current)).state = .Running then
      update (fun i => wake now (s.tasks i)) s.current
        { wake now (s.tasks s.current) with state := .Ready }
      else fun i => wake now (s.tasks i)) n).state = .Ready := by
    split_ifs
    · rw [update_of_ne hcur]
      exact hready
    · exact hready
  refine .leave (fun i => ?_) hlt hcur ?_
  · by_cases hi : i = n
    · subst hi
      rw [update_self]
      exact (hleft i).trans ⟨⟨rfl, rfl, rfl⟩, by simp [hstate]⟩
    · rw [update_of_ne hi]
      exact hleft i
  · rw [update_self]
    simp

end HepOS.Sched
