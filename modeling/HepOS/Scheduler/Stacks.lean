/-
Saved stack pointers belong to their tasks.

Between the two halves of a switch the current task is the one that comes, while the stack pointer
is still in the stacks of the one that leaves. In `tick` and in system calls interrupts are off
there. In `sleep_ms` and `exit_current` they may be on, and a timer interrupt there runs `next` a
second time: it takes the task that comes for the one to be switched out, and stores a pointer into
the stacks of the other one for it.

Without such an interrupt the invariant is simple. One task is active, and the stack pointer is in
its stacks; of every other task that is not dead the field `rsp` is the last pointer that was stored
for it. Ring 3 comes back on the stack of the last `use_kstack`, so that has to be the active task's
as well, up to the moment when `context_switch` is called.
-/
import HepOS.Scheduler.Tasks

set_option autoImplicit false

namespace HepOS.Sched

open Trace Function List Nat

/-! ## The property and the condition -/

/-- Every pointer went into the field of the task whose stacks it points into, and every task was
resumed from the pointer stored at its own last switch. -/
structure Own (m : Machine) : Prop where
  stores : ∀ st ∈ m.stores, st.rsp.stack = st.task
  loads : ∀ ld ∈ m.loads, ld.rsp = ⟨ld.task, ld.last⟩

/-- The lock has been released and the new stack pointer not loaded yet. -/
def Machine.in_window (m : Machine) : Bool :=
  match m.frames with
  | .window _ :: _ => true
  | .stored _ :: _ => true
  | _ => false

/-- No timer interrupt comes in the middle of a switch. -/
def Quiet (m : Machine) (a : Label) : Prop := a = .timer → m.in_window = false

instance (m : Machine) (a : Label) : Decidable (Quiet m a) := inferInstanceAs (Decidable (_ → _))

/-! ## The invariant -/

/-- The frames of a task outside a switch; the flag says that it has called `exit_current`. -/
inductive Settled : Bool → List Frame → Prop
  | code : Settled false [.code]
  | user : Settled false [.user, .code]
  | halt : Settled true [.halt]
  | fall (irq : Bool) : Settled false [.fall irq, .code]
  | back (ifl : Bool) : Settled false [.back ifl, .code]
  | boot : Settled false [.boot, .code]
  | isr {dead : Bool} {l : List Frame} (ifl : Bool)
    (h : Settled dead l) : Settled dead (.isr ifl :: l)

def Task.dead (t : Task) : Bool := decide (t.state = .Dead)

theorem Task.dead_eq_false {t : Task} : t.dead = false ↔ t.state ≠ .Dead := decide_eq_false_iff_not

theorem Task.Same.dead_eq {t t' : Task} (h : Task.Same t t') : t'.dead = t.dead :=
  decide_eq_decide.mpr h.dead

/-- How far the machine is with a switch. The last argument is the task that is active. -/
inductive Phase (s : Scheduler) (frames : List Frame) (flow kstack : ℕ) (stamps : ℕ → ℕ)
    (conts : ℕ → List Frame) : ℕ → Prop
  | settled (h : Settled (s.tasks s.current).dead frames)
    (hkstack : kstack = (s.tasks s.current).kstack_top) :
      Phase s frames flow kstack stamps conts s.current
  | window {sw : Switch} {rest : List Frame} (hframes : frames = .window sw :: rest)
      (hne : sw.old_rsp ≠ s.current) (hnew : sw.new_rsp = (s.tasks s.current).rsp)
      (halive : (s.tasks s.current).state ≠ .Dead) (hrest : Settled (s.tasks sw.old_rsp).dead rest)
      (hkstack : kstack = (s.tasks sw.old_rsp).kstack_top)
      (htop : sw.new_kstack_top = (s.tasks s.current).kstack_top) :
      Phase s frames flow kstack stamps conts sw.old_rsp
  -- `use_kstack` has been called for the task that comes
  | stored {sw : Switch} {rest : List Frame} (hframes : frames = .stored sw :: rest)
      (hne : sw.old_rsp ≠ s.current) (hnew : sw.new_rsp = (s.tasks s.current).rsp)
      (halive : (s.tasks s.current).state ≠ .Dead) (hrest : Settled (s.tasks sw.old_rsp).dead rest)
      (hkstack : kstack = (s.tasks s.current).kstack_top)
      (hrsp : (s.tasks sw.old_rsp).rsp = ⟨flow, stamps flow⟩) (hcont : conts flow = rest) :
      Phase s frames flow kstack stamps conts sw.old_rsp

structure Inv (m : Machine) (active : ℕ) : Prop where
  current : m.sched.current < m.sched.len
  active_lt : active < m.sched.len
  flow : m.flow = (m.sched.tasks active).stack
  tops : ∀ i < m.sched.len, (m.sched.tasks i).kstack_top = (m.sched.tasks i).stack
  fresh : ∀ i < m.sched.len, (m.sched.tasks i).stack < m.next_stack
  distinct : ∀ i < m.sched.len, ∀ j < m.sched.len,
    (m.sched.tasks i).stack = (m.sched.tasks j).stack → i = j
  suspended : ∀ i < m.sched.len, i ≠ active → (m.sched.tasks i).state ≠ .Dead →
    (m.sched.tasks i).rsp = ⟨(m.sched.tasks i).stack, m.stamps (m.sched.tasks i).stack⟩
      ∧ Settled false (m.conts (m.sched.tasks i).stack)
  phase : Phase m.sched m.frames m.flow m.kstack m.stamps m.conts active
  own : Own m

/-- The active task is the current one, and outside a switch. -/
structure Calm (m : Machine) : Prop where
  inv : Inv m m.sched.current
  settled : Settled (m.sched.tasks m.sched.current).dead m.frames
  kstack : m.kstack = (m.sched.tasks m.sched.current).kstack_top

section

variable {m : Machine} {active : ℕ}

theorem Inv.calm (h : Inv m active) (hno : m.in_window = false) :
    active = m.sched.current ∧ Calm m := by
  have hphase := h.phase
  cases hphase with
  | settled hs hkstack => exact ⟨rfl, h, hs, hkstack⟩
  | window hframes | stored hframes =>
    unfold Machine.in_window at hno
    rw [hframes] at hno
    simp at hno

/-- A task that runs its own code is not dead. -/
theorem Inv.of_in_code (h : Inv m active) (hcode : m.in_code = true) :
    m.frames = [.code] ∧ (m.sched.tasks m.sched.current).dead = false ∧ Calm m := by
  have hno : m.in_window = false := by
    unfold Machine.in_code at hcode
    unfold Machine.in_window
    split at hcode
    · rename_i hframes
      rw [hframes]
    · simp at hcode
  obtain ⟨-, hcalm⟩ := h.calm hno
  have hs := hcalm.settled
  unfold Machine.in_code at hcode
  generalize (m.sched.tasks m.sched.current).dead = dead at hs ⊢
  generalize m.frames = frames at hs hcode ⊢
  cases hs with
  | code => exact ⟨rfl, rfl, hcalm⟩
  | user | halt | fall irq | back ifl | boot | isr ifl hs => simp at hcode

/-! ## One step -/

theorem inv_start (cr3 : UInt64) : Inv (Machine.start cr3) 0 where
  current := zero_lt_succ 2
  active_lt := zero_lt_succ 2
  flow := rfl
  tops i hi := by
    show (update (fun i => Task.new i cr3) 0 _ i).kstack_top
      = (update (fun i => Task.new i cr3) 0 _ i).stack
    by_cases hzero : i = 0
    · rw [hzero, update_self]
      rfl
    · rw [update_of_ne hzero]
      rfl
  fresh i hi := by
    show (update (fun i => Task.new i cr3) 0 _ i).stack < 3
    by_cases hzero : i = 0
    · rw [hzero, update_self]
      exact zero_lt_succ 2
    · rw [update_of_ne hzero]
      exact hi
  distinct i hi j hj hsame := by
    have hstack : ∀ k, ((Machine.start cr3).sched.tasks k).stack = k := by
      intro k
      show (update (fun i => Task.new i cr3) 0 _ k).stack = k
      by_cases hzero : k = 0
      · rw [hzero, update_self]
        rfl
      · rw [update_of_ne hzero]
        rfl
    rwa [hstack, hstack] at hsame
  suspended i hi hne halive := by
    show (update (fun i => Task.new i cr3) 0 _ i).rsp = _ ∧ _
    rw [update_of_ne hne]
    refine ⟨?_, .boot⟩
    show (⟨i, 0⟩ : Sp) = ⟨(update (fun i => Task.new i cr3) 0 _ i).stack, 0⟩
    rw [update_of_ne hne]
    rfl
  phase := .settled .code rfl
  own := ⟨fun _ hst => absurd hst not_mem_nil, fun _ hld => absurd hld not_mem_nil⟩

section

variable (h : Calm m)

include h

/-- `next`, called when the active task is the current one. The caller may have changed the state of
the current task; what it goes on with is settled either way. -/
theorem Calm.yield {s : Scheduler} (hlen : s.len = m.sched.len)
    (hcur : s.current = m.sched.current) (hfixed : ∀ i, Task.Fixed (m.sched.tasks i) (s.tasks i))
    (hdead : ∀ i, i ≠ m.sched.current → (s.tasks i).dead = (m.sched.tasks i).dead)
    {after otherwise : List Frame} (hafter : Settled (s.tasks s.current).dead after)
    (hother : Settled (s.tasks s.current).dead otherwise) :
    ∃ a, Inv (m.yield s after otherwise) a := by
  have hinv := h.inv
  have hpicks := next_spec s m.ticks
  unfold Machine.yield
  generalize s.next m.ticks = r at hpicks
  obtain ⟨sw, s'⟩ := r
  -- whatever `next` does, stacks and pointers stay where they are
  have hkept : ∀ {tasks : ℕ → Task}, (∀ i, Task.Same (s.tasks i) (tasks i)) →
      (∀ i, Task.Fixed (m.sched.tasks i) (tasks i))
      ∧ (∀ i < m.sched.len, (tasks i).kstack_top = (tasks i).stack)
      ∧ (∀ i < m.sched.len, (tasks i).stack < m.next_stack)
      ∧ (∀ i < m.sched.len, ∀ j < m.sched.len, (tasks i).stack = (tasks j).stack → i = j)
      ∧ ∀ i < m.sched.len, i ≠ m.sched.current → (tasks i).state ≠ .Dead →
        (tasks i).rsp = ⟨(tasks i).stack, m.stamps (tasks i).stack⟩
          ∧ Settled false (m.conts (tasks i).stack) := by
    intro tasks hsame
    have hfix : ∀ i, Task.Fixed (m.sched.tasks i) (tasks i) :=
      fun i => (hfixed i).trans (hsame i).toFixed
    refine ⟨hfix, fun i hi => ?_, fun i hi => ?_, fun i hi j hj heq => ?_,
      fun i hi hne halive => ?_⟩
    · rw [(hfix i).stack, (hfix i).kstack_top]
      exact hinv.tops i hi
    · rw [(hfix i).stack]
      exact hinv.fresh i hi
    · rw [(hfix i).stack, (hfix j).stack] at heq
      exact hinv.distinct i hi j hj heq
    · rw [(hfix i).stack, (hfix i).rsp]
      refine hinv.suspended i hi hne ?_
      rw [← Task.dead_eq_false, ← hdead i hne, Task.dead_eq_false]
      exact fun hd => halive ((hsame i).dead.mpr hd)
  cases hpicks with
  | @stay tasks hsame =>
    obtain ⟨hfix, htops, hfresh, hdistinct, hsuspended⟩ := hkept hsame
    refine ⟨m.sched.current, ⟨?_, ?_, ?_, ?_, ?_, ?_, ?_, ?_, ⟨hinv.own.stores, hinv.own.loads⟩⟩⟩
    · show s.current < s.len
      rw [hcur, hlen]
      exact hinv.current
    · show m.sched.current < s.len
      rw [hlen]
      exact hinv.current
    · show m.flow = (tasks m.sched.current).stack
      rw [(hfix _).stack]
      exact hinv.flow
    · exact fun i hi => htops i (hlen ▸ hi)
    · exact fun i hi => hfresh i (hlen ▸ hi)
    · exact fun i hi j hj => hdistinct i (hlen ▸ hi) j (hlen ▸ hj)
    · exact fun i hi => hsuspended i (hlen ▸ hi)
    · rw [← hcur]
      refine .settled ?_ ?_
      · rw [(hsame _).dead_eq]
        exact hother
      · show m.kstack = (tasks s.current).kstack_top
        rw [(hfix _).kstack_top, hcur]
        exact h.kstack
  | @leave tasks n cr3 hsame hlt hne halive =>
    obtain ⟨hfix, htops, hfresh, hdistinct, hsuspended⟩ := hkept hsame
    refine ⟨s.current, ⟨hlt, ?_, ?_, ?_, ?_, ?_, ?_, ?_, ⟨hinv.own.stores, hinv.own.loads⟩⟩⟩
    · show s.current < s.len
      rw [hcur, hlen]
      exact hinv.current
    · show m.flow = (tasks s.current).stack
      rw [(hfix _).stack, hcur]
      exact hinv.flow
    · exact fun i hi => htops i (hlen ▸ hi)
    · exact fun i hi => hfresh i (hlen ▸ hi)
    · exact fun i hi j hj => hdistinct i (hlen ▸ hi) j (hlen ▸ hj)
    · intro i hi hi'
      exact hsuspended i (hlen ▸ hi) (hcur ▸ hi')
    · have hwindow : Frame.window ⟨s.current, (tasks n).rsp, cr3, (tasks n).kstack_top⟩ :: after
          = .window ⟨s.current, (tasks n).rsp, cr3, (tasks n).kstack_top⟩ :: after := rfl
      refine .window hwindow hne.symm rfl halive ?_ ?_ rfl
      · rw [(hsame _).dead_eq]
        exact hafter
      · show m.kstack = (tasks s.current).kstack_top
        rw [(hfix _).kstack_top, hcur]
        exact h.kstack

omit h in
/-- The current task after a change, and the others. -/
theorem set_tasks {task : Task} (hfixed : Task.Fixed (m.sched.tasks m.sched.current) task) :
    (m.sched.set m.sched.current task).tasks m.sched.current = task
    ∧ (∀ i, i ≠ m.sched.current → (m.sched.set m.sched.current task).tasks i = m.sched.tasks i)
    ∧ ∀ i, Task.Fixed (m.sched.tasks i) ((m.sched.set m.sched.current task).tasks i) := by
  have hself : (m.sched.set m.sched.current task).tasks m.sched.current = task := update_self _ _ _
  have hother : ∀ i, i ≠ m.sched.current → (m.sched.set m.sched.current task).tasks i
      = m.sched.tasks i :=
    fun i hi => update_of_ne hi _ _
  refine ⟨hself, hother, fun i => ?_⟩
  by_cases hi : i = m.sched.current
  · rw [hi, hself]
    exact hfixed
  · rw [hother i hi]
    exact ⟨rfl, rfl, rfl⟩

/-- A call that sets the state of the current task and then gives up the processor. -/
theorem Calm.yield_set (task : Task) (hfixed : Task.Fixed (m.sched.tasks m.sched.current) task)
    {after otherwise : List Frame} (hafter : Settled task.dead after)
    (hother : Settled task.dead otherwise) :
    ∃ a, Inv (m.yield (m.sched.set m.sched.current task) after otherwise) a := by
  obtain ⟨hself, hrest, hall⟩ := set_tasks hfixed
  have hself' : (m.sched.set m.sched.current task).tasks (m.sched.set m.sched.current task).current
      = task :=
    hself
  exact h.yield (s := m.sched.set m.sched.current task) rfl rfl hall
    (fun i hi => by rw [hrest i hi])
    (by rwa [hself']) (by rwa [hself'])

/-- A call that changes the current task and goes on. -/
theorem Calm.set {task : Task} (hfixed : Task.Fixed (m.sched.tasks m.sched.current) task)
    {frames : List Frame} (hsettled : Settled task.dead frames) :
    Inv { m with sched := m.sched.set m.sched.current task, frames := frames } m.sched.current := by
  obtain ⟨hself, hother, hall⟩ := set_tasks hfixed
  refine ⟨h.inv.current, h.inv.active_lt, ?_, fun i hi => ?_, fun i hi => ?_,
    fun i hi j hj heq => ?_, fun i hi hi' hal => ?_, ?_, h.inv.own.stores, h.inv.own.loads⟩
  · dsimp only
    rw [(hall _).stack]
    exact h.inv.flow
  · dsimp only
    rw [(hall i).kstack_top, (hall i).stack]
    exact h.inv.tops i hi
  · dsimp only
    rw [(hall i).stack]
    exact h.inv.fresh i hi
  · dsimp only at heq
    rw [(hall i).stack, (hall j).stack] at heq
    exact h.inv.distinct i hi j hj heq
  · dsimp only at hal ⊢
    rw [hother i hi'] at hal ⊢
    exact h.inv.suspended i hi hi' hal
  · refine .settled ?_ ?_
    · show Settled ((m.sched.set m.sched.current task).tasks m.sched.current).dead frames
      rw [hself]
      exact hsettled
    · show m.kstack = ((m.sched.set m.sched.current task).tasks m.sched.current).kstack_top
      rw [(hall _).kstack_top]
      exact h.kstack

/-- The frames, the flags and `cr3` of a task that goes on. -/
theorem Calm.proceed {frames : List Frame} {ifl in_service : Bool} {cr3 : UInt64}
    {resumes : List Resumed} (hsettled : Settled (m.sched.tasks m.sched.current).dead frames) :
    Inv { m with
      frames := frames, ifl := ifl, in_service := in_service, cr3 := cr3, resumes := resumes }
      m.sched.current :=
  ⟨h.inv.current, h.inv.active_lt, h.inv.flow, h.inv.tops, h.inv.fresh, h.inv.distinct,
    h.inv.suspended, .settled hsettled h.kstack, h.inv.own.stores, h.inv.own.loads⟩

/-- **Ring 3 comes back on the stack of the active task.** -/
theorem Calm.enter : Calm m.enter := by
  have hflow : m.kstack = (m.sched.tasks m.sched.current).stack :=
    h.kstack.trans (h.inv.tops _ h.inv.current)
  refine ⟨⟨h.inv.current, h.inv.active_lt, hflow, h.inv.tops, h.inv.fresh, h.inv.distinct,
    fun i hi hi' hal => ?_, .settled h.settled h.kstack, h.inv.own.stores, h.inv.own.loads⟩,
      h.settled, h.kstack⟩
  -- nothing of the other tasks is on that stack
  have hne : (m.sched.tasks i).stack ≠ m.kstack := by
    rw [hflow]
    exact fun heq => hi' (h.inv.distinct i hi _ h.inv.current heq)
  have hstamps : m.enter.stamps (m.sched.tasks i).stack = m.stamps (m.sched.tasks i).stack :=
    update_of_ne hne _ _
  show (m.sched.tasks i).rsp = ⟨(m.sched.tasks i).stack, m.enter.stamps (m.sched.tasks i).stack⟩ ∧ _
  rw [hstamps]
  exact h.inv.suspended i hi hi' hal

theorem Calm.interrupted : Calm m.interrupted := by
  unfold Machine.interrupted
  split
  · exact h.enter
  · exact h

theorem Calm.place {slot len : ℕ} {cr3 : UInt64}
    (hslot : slot ≠ m.sched.current) (hlen : m.sched.len ≤ len)
    (hbelow : ∀ i < len, i ≠ slot → i < m.sched.len) :
    Inv { m with
      next_stack := m.next_stack + 1,
      conts := update m.conts m.next_stack [.boot, .code],
      stamps := update m.stamps m.next_stack 0,
      sched := ⟨len, update m.sched.tasks slot (Task.new m.next_stack cr3), m.sched.current⟩ }
          m.sched.current := by
  have hnew : update m.sched.tasks slot (Task.new m.next_stack cr3) slot
      = Task.new m.next_stack cr3 := update_self _ _ _
  have hold : ∀ i, i ≠ slot →
      update m.sched.tasks slot (Task.new m.next_stack cr3) i = m.sched.tasks i :=
    fun i hi => update_of_ne hi _ _
  -- the slot taken is not that of the running task: its fields are as before
  refine ⟨?_, ?_, ?_, fun i hi => ?_, fun i hi => ?_, fun i hi j hj heq => ?_,
    fun i hi hne halive => ?_, ?_, ?_⟩
  · exact Nat.lt_of_lt_of_le h.inv.current hlen
  · exact Nat.lt_of_lt_of_le h.inv.current hlen
  · dsimp only
    rw [hold _ hslot.symm]
    exact h.inv.flow
  · dsimp only at hi ⊢
    by_cases his : i = slot
    · rw [his, hnew]
      rfl
    · rw [hold i his]
      exact h.inv.tops i (hbelow i hi his)
  · dsimp only at hi ⊢
    by_cases his : i = slot
    · rw [his, hnew]
      exact lt_succ_self _
    · rw [hold i his]
      exact lt_succ_of_lt (h.inv.fresh i (hbelow i hi his))
  · dsimp only at hi hj heq
    by_cases his : i = slot
    · by_cases hjs : j = slot
      · rw [his, hjs]
      · -- the new stack is none of the old ones
        rw [his, hnew, hold j hjs] at heq
        have := h.inv.fresh j (hbelow j hj hjs)
        exact absurd this (by rw [← heq]; exact Nat.lt_irrefl _)
    · by_cases hjs : j = slot
      · rw [hjs, hnew, hold i his] at heq
        have := h.inv.fresh i (hbelow i hi his)
        exact absurd this (by rw [heq]; exact Nat.lt_irrefl _)
      · rw [hold i his, hold j hjs] at heq
        exact h.inv.distinct i (hbelow i hi his) j (hbelow j hj hjs) heq
  · dsimp only at hi halive ⊢
    by_cases his : i = slot
    · rw [his, hnew]
      refine ⟨?_, ?_⟩
      · show (⟨m.next_stack, 0⟩ : Sp) = ⟨m.next_stack, update m.stamps m.next_stack 0 m.next_stack⟩
        rw [update_self]
      · show Settled false (update m.conts m.next_stack [.boot, .code] m.next_stack)
        rw [update_self]
        exact .boot
    · have hi' := hbelow i hi his
      have hstack := Nat.ne_of_lt (h.inv.fresh i hi')
      rw [hold i his] at halive ⊢
      rw [update_of_ne hstack, update_of_ne hstack]
      exact h.inv.suspended i hi' hne halive
  · -- the running task goes on where it was
    refine .settled ?_ ?_
    · dsimp only
      rw [hold _ hslot.symm]
      exact h.settled
    · dsimp only
      rw [hold _ hslot.symm]
      exact h.kstack
  · exact ⟨h.inv.own.stores, h.inv.own.loads⟩

theorem Calm.spawn (hcode : (m.sched.tasks m.sched.current).dead = false) :
    Inv m.spawn m.sched.current := by
  unfold Machine.spawn
  dsimp only
  cases hfind : (List.range m.sched.len).find? fun i =>
      decide ((m.sched.tasks i).state = .Dead) with
  | none =>
    have hne : m.sched.len ≠ m.sched.current := (Nat.ne_of_lt h.inv.current).symm
    exact h.place hne (le_succ _)
      fun i hi his => Nat.lt_of_le_of_ne (le_of_lt_succ hi) his
  | some slot =>
    have hdead := List.find?_some hfind
    have hne : slot ≠ m.sched.current := by
      rintro rfl
      exact absurd (hcode.symm.trans hdead) (by decide)
    exact h.place hne (le_rfl) fun i hi _ => hi

end

/-- The first half of `context_switch`. -/
theorem Inv.store {sw : Switch} {rest : List Frame} (h : Inv m sw.old_rsp)
    (hne : sw.old_rsp ≠ m.sched.current) (hnew : sw.new_rsp = (m.sched.tasks m.sched.current).rsp)
    (halive : (m.sched.tasks m.sched.current).state ≠ .Dead)
    (hrest : Settled (m.sched.tasks sw.old_rsp).dead rest)
    (htop : sw.new_kstack_top = (m.sched.tasks m.sched.current).kstack_top) :
    Inv (m.store sw rest) sw.old_rsp := by
  have hself : (m.store sw rest).sched.tasks sw.old_rsp
      = { m.sched.tasks sw.old_rsp with rsp := ⟨m.flow, m.stamps m.flow + 1⟩ } := update_self _ _ _
  have hother : ∀ i, i ≠ sw.old_rsp → (m.store sw rest).sched.tasks i = m.sched.tasks i :=
    fun i hi => update_of_ne hi _ _
  -- a store writes `rsp` of the task that leaves, never the stack it has
  have hstack : ∀ i, ((m.store sw rest).sched.tasks i).stack = (m.sched.tasks i).stack := by
    intro i
    by_cases hi : i = sw.old_rsp
    · rw [hi, hself]
    · rw [hother i hi]
  refine ⟨h.current, h.active_lt, ?_, fun i hi => ?_, fun i hi => ?_, fun i hi j hj heq => ?_,
    fun i hi hi' hal => ?_, ?_, ?_⟩
  · rw [hstack]
    exact h.flow
  · rw [hstack]
    by_cases hi' : i = sw.old_rsp
    · rw [hi', hself]
      exact h.tops _ h.active_lt
    · rw [hother i hi']
      exact h.tops i hi
  · rw [hstack]
    exact h.fresh i hi
  · rw [hstack, hstack] at heq
    exact h.distinct i hi j hj heq
  · -- the other tasks have other stacks
    have hflow : (m.sched.tasks i).stack ≠ m.flow := by
      rw [h.flow]
      exact fun heq => hi' (h.distinct i hi _ h.active_lt heq)
    rw [hother i hi'] at hal ⊢
    have hstamps : (m.store sw rest).stamps (m.sched.tasks i).stack
        = m.stamps (m.sched.tasks i).stack :=
      update_of_ne hflow _ _
    have hconts : (m.store sw rest).conts (m.sched.tasks i).stack
        = m.conts (m.sched.tasks i).stack :=
      update_of_ne hflow _ _
    rw [hstamps, hconts]
    exact h.suspended i hi hi' hal
  · have hstored : (m.store sw rest).frames = .stored sw :: rest := rfl
    refine .stored hstored hne ?_ ?_ ?_ ?_ ?_ ?_
    · show sw.new_rsp = ((m.store sw rest).sched.tasks m.sched.current).rsp
      rw [hother _ hne.symm]
      exact hnew
    · show ((m.store sw rest).sched.tasks m.sched.current).state ≠ .Dead
      rw [hother _ hne.symm]
      exact halive
    · rw [hself]
      exact hrest
    · show sw.new_kstack_top = ((m.store sw rest).sched.tasks m.sched.current).kstack_top
      rw [hother _ hne.symm]
      exact htop
    · rw [hself]
      show (⟨m.flow, m.stamps m.flow + 1⟩ : Sp)
        = ⟨m.flow, update m.stamps m.flow (m.stamps m.flow + 1) m.flow⟩
      rw [update_self]
    · exact update_self _ _ _
  · refine ⟨fun st hst => ?_, h.own.loads⟩
    rcases mem_cons.mp hst with rfl | hst
    · exact h.flow
    · exact h.own.stores st hst

/-- The second half. -/
theorem Inv.load {sw : Switch} {rest : List Frame} (h : Inv m sw.old_rsp)
    (hne : sw.old_rsp ≠ m.sched.current) (hnew : sw.new_rsp = (m.sched.tasks m.sched.current).rsp)
    (halive : (m.sched.tasks m.sched.current).state ≠ .Dead)
    (hrest : Settled (m.sched.tasks sw.old_rsp).dead rest)
    (hkstack : m.kstack = (m.sched.tasks m.sched.current).kstack_top)
    (hrsp : (m.sched.tasks sw.old_rsp).rsp = ⟨m.flow, m.stamps m.flow⟩)
    (hcont : m.conts m.flow = rest) :
    Inv (m.load sw) m.sched.current ∧ (m.load sw).frames
        = m.conts (m.sched.tasks m.sched.current).stack := by
  -- the task that enters was suspended with its last stored pointer
  obtain ⟨hlast, hsettled⟩ := h.suspended _ h.current hne.symm halive
  have hptr : sw.new_rsp = ⟨(m.sched.tasks m.sched.current).stack,
      m.stamps (m.sched.tasks m.sched.current).stack⟩ := hnew.trans hlast
  have hframes : (m.load sw).frames = m.conts (m.sched.tasks m.sched.current).stack := by
    unfold Machine.load
    rw [hptr, if_pos rfl]
  refine ⟨⟨h.current, h.current, ?_, h.tops, h.fresh, h.distinct, fun i hi hi' hal => ?_, ?_,
    h.own.stores, fun ld hld => ?_⟩, hframes⟩
  · show sw.new_rsp.stack = _
    rw [hptr]
    rfl
  · by_cases hold : i = sw.old_rsp
    · -- the task that has left
      have hdead : (m.sched.tasks sw.old_rsp).dead = false := Task.dead_eq_false.mpr (hold ▸ hal)
      rw [hdead] at hrest
      subst hold
      have hflow := h.flow
      show (m.sched.tasks sw.old_rsp).rsp
          = ⟨(m.sched.tasks sw.old_rsp).stack, m.stamps (m.sched.tasks sw.old_rsp).stack⟩
        ∧ Settled false (m.conts (m.sched.tasks sw.old_rsp).stack)
      rw [← hflow, hcont]
      exact ⟨hrsp, hrest⟩
    · exact h.suspended i hi hold hal
  · refine .settled ?_ hkstack
    rw [hframes]
    show Settled (m.sched.tasks m.sched.current).dead _
    rw [Task.dead_eq_false.mpr halive]
    exact hsettled
  · rcases mem_cons.mp hld with rfl | hld
    · exact hptr
    · exact h.own.loads ld hld

/-- A settled task takes up what it did. -/
theorem Calm.resume (h : Calm m) {m' : Machine} (hgo : m.go = some m') :
    Inv m' m.sched.current := by
  have hsettled := h.settled
  unfold Machine.go at hgo
  generalize hdead : (m.sched.tasks m.sched.current).dead = dead at hsettled
  generalize hframes : m.frames = frames at hsettled hgo
  cases hsettled with
  | code | user | halt => simp at hgo
  | fall irq =>
    cases hgo
    refine h.set ?_ .code
    exact ⟨rfl, rfl, rfl⟩
  | back ifl | boot =>
    cases hgo
    exact h.proceed (hdead ▸ .code)
  | isr ifl hs =>
    cases hgo
    exact h.proceed (hdead ▸ hs)

theorem Inv.go (h : Inv m active) {m' : Machine} (hgo : m.go = some m') : ∃ a, Inv m' a := by
  have hphase := h.phase
  cases hphase with
  | settled hs hkstack => exact ⟨_, Calm.resume ⟨h, hs, hkstack⟩ hgo⟩
  | window hframes hne hnew halive hrest _ htop =>
    unfold Machine.go at hgo
    rw [hframes] at hgo
    cases hgo
    exact ⟨_, h.store hne hnew halive hrest htop⟩
  | stored hframes hne hnew halive hrest hkstack hrsp hcont =>
    unfold Machine.go at hgo
    rw [hframes] at hgo
    cases hgo
    exact ⟨_, (h.load hne hnew halive hrest hkstack hrsp hcont).1⟩

/-- The timer interrupt, outside a switch. -/
theorem Calm.tick (h : Calm m) : ∃ a, Inv m.tick a := by
  have hm : Calm { m with ticks := m.ticks + 1, ifl := false, in_service := true } :=
    ⟨⟨h.inv.current, h.inv.active_lt, h.inv.flow, h.inv.tops, h.inv.fresh, h.inv.distinct,
      h.inv.suspended, h.inv.phase, h.inv.own.stores, h.inv.own.loads⟩, h.settled, h.kstack⟩
  have hsame := wake_irq_waiters_same m.sched TIMER_VECTOR
  have hdead : ((wake_irq_waiters m.sched TIMER_VECTOR).tasks m.sched.current).dead
      = (m.sched.tasks m.sched.current).dead := (hsame _).dead_eq
  refine hm.yield (s := wake_irq_waiters m.sched TIMER_VECTOR) rfl rfl (fun i => (hsame i).toFixed)
    (fun i _ => (hsame i).dead_eq) ?_ ?_
  all_goals exact .isr _ (hdead ▸ h.settled)

/-- A system call is made from ring 3. -/
theorem Inv.syscall (h : Inv m active) {rest : List Frame} (hframes : m.frames = .user :: rest) :
    rest = [.code] ∧ (m.sched.tasks m.sched.current).dead = false ∧ Calm m := by
  have hno : m.in_window = false := by
    unfold Machine.in_window
    rw [hframes]
  obtain ⟨-, hcalm⟩ := h.calm hno
  have hs := hcalm.settled
  rw [hframes] at hs
  generalize (m.sched.tasks m.sched.current).dead = dead at hs ⊢
  cases hs with
  | user => exact ⟨rfl, rfl, hcalm⟩

/-- **One step** keeps the invariant. -/
theorem Inv.step (h : Inv m active) {a : Label} {m' : Machine} (hstep : Next m a m')
    (hquiet : Quiet m a) :
    ∃ active', Inv m' active' := by
  unfold Next Machine.next at hstep
  -- the calls are made by the task's own code
  have hcall : ∀ {r : Machine}, (if m.in_code then some r else none) = some m' →
      (Calm m → m.frames = [.code] → (m.sched.tasks m.sched.current).dead = false → ∃ active',
        Inv r active') →
      ∃ active', Inv m' active' := by
    intro r hr hcont
    by_cases hcode : m.in_code = true
    · rw [if_pos hcode] at hr
      cases hr
      obtain ⟨hframes, hdead, hcalm⟩ := h.of_in_code hcode
      exact hcont hcalm hframes hdead
    · rw [if_neg hcode] at hr
      simp at hr
  cases a with
  | code ifl | write_cr3 cr3 => exact hcall hstep fun hm _ _ => ⟨_, hm.proceed hm.settled⟩
  | set_current_cr3 cr3 =>
    refine hcall hstep fun hm _ _ => ⟨_, hm.set ?_ hm.settled⟩
    exact ⟨rfl, rfl, rfl⟩
  | enter_ring3 =>
    refine hcall hstep fun hm hframes hdead => ⟨_, hm.proceed ?_⟩
    rw [hframes, hdead]
    exact .user
  | syscall =>
    dsimp only at hstep
    split at hstep
    · rename_i rest hframes
      cases hstep
      obtain ⟨rfl, hdead, hcalm⟩ := h.syscall hframes
      exact ⟨_, hcalm.enter.proceed
        (by show Settled (m.sched.tasks m.sched.current).dead _; rw [hdead]; exact .code)⟩
    · simp at hstep
  | spawn => exact hcall hstep fun hm _ hdead => ⟨_, hm.spawn hdead⟩
  | sleep_ms ms =>
    refine hcall hstep fun hm hframes _ => ?_
    unfold Machine.sleep_ms
    rw [hframes]
    refine hm.yield_set _ ?_ (.back _) (.fall _)
    exact ⟨rfl, rfl, rfl⟩
  | block_on_irq vector =>
    refine hcall hstep fun hm hframes _ => ?_
    unfold Machine.block_on_irq
    rw [hframes]
    refine hm.yield_set _ ?_ (.back _) (.fall _)
    exact ⟨rfl, rfl, rfl⟩
  | exit_current =>
    refine hcall hstep fun hm _ _ => hm.yield_set _ ?_ .halt .halt
    exact ⟨rfl, rfl, rfl⟩
  | timer =>
    dsimp only at hstep
    split_ifs at hstep
    cases hstep
    obtain ⟨-, hcalm⟩ := h.calm (hquiet rfl)
    exact hcalm.interrupted.tick
  | go => exact h.go hstep

end

/-- **Saved stack pointers.** In a run in which no timer interrupt comes between the release of the
lock and the load of the new stack pointer. -/
theorem own_of_quiet {cr3 : UInt64} {l : List Label} {m : Machine}
    (h : Steps (fun m a m' => Next m a m' ∧ Quiet m a) (Machine.start cr3) l m) : Own m := by
  obtain ⟨_, hinv⟩ := h.keeps (P := fun m => ∃ active, Inv m active) ⟨0, inv_start cr3⟩
    fun _ _ _ ⟨_, hv⟩ hstep => hv.step hstep.1 hstep.2
  exact hinv.own

/-- `kmain` turns interrupts on, and the timer starts task 1 and then task 2. -/
def two_started : List Label :=
  [.code true, .timer, .go, .go, .go, .timer, .go, .go, .go]

/-- Task 2 runs a process that waits for an interrupt in a system call; the process that task 1 runs
is then interrupted by the timer. -/
def two_in_ring3 : List Label :=
  two_started ++ [.enter_ring3, .syscall, .block_on_irq 0x21, .go, .go, .go, .timer, .go, .go,
    .go, .enter_ring3, .timer, .go]

theorem own_of_quiet_ring3 : ∃ m, Steps (fun m a m' => Next m a m' ∧ Quiet m a)
    (Machine.start 0) two_in_ring3 m
    ∧ m.stores = [⟨1, 1, 3⟩, ⟨0, 0, 2⟩, ⟨2, 2, 2⟩, ⟨1, 1, 1⟩, ⟨0, 0, 1⟩] ∧ Own m := by
  have hrun : (run (fun m a => if Quiet m a then Machine.next m a else none)
    (Machine.start 0) two_in_ring3).map
      (fun m => m.stores) = some [⟨1, 1, 3⟩, ⟨0, 0, 2⟩, ⟨2, 2, 2⟩, ⟨1, 1, 1⟩,
        ⟨0, 0, 1⟩] := by decide +kernel
  obtain ⟨m, hm, hstores⟩ := Option.map_eq_some_iff.mp hrun
  have h := Steps.of_run_if _ hm
  exact ⟨m, h, hstores, own_of_quiet h⟩

/-- The timer comes when `sleep_ms` of task 2 has released the lock: a pointer into the stacks of
task 2 is stored for task 0. -/
theorem timer_in_sleep_stores_foreign : ∃ m, Steps Next (Machine.start 0)
      (two_started ++ [.sleep_ms 10, .timer, .go]) m ∧ ⟨0, 2, 1⟩ ∈ m.stores ∧ ¬ Own m := by
  have hrun : (run Machine.next (Machine.start 0)
      (two_started ++ [.sleep_ms 10, .timer, .go])).map (fun m => m.stores)
        = some [⟨0, 2, 1⟩, ⟨1, 1, 1⟩, ⟨0, 0, 1⟩] := by decide +kernel
  obtain ⟨m, hm, hstores⟩ := Option.map_eq_some_iff.mp hrun
  have hmem : (⟨0, 2, 1⟩ : Store) ∈ m.stores := by rw [hstores]; decide
  refine ⟨m, .of_run _ hm, hmem, fun hown => ?_⟩
  exact absurd (hown.stores _ hmem) (by decide)

end HepOS.Sched
