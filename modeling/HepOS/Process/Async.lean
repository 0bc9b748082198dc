/-
Background processes (`exec_async_with_arg`, `async_task_entry` and `poll_async` in `process.rs`).

A call counts the job in `ACTIVE_JOBS`, pushes it onto `PENDING_QUEUE` and spawns a task. The task
is not told which job is its own: it pops one, whichever is on top then, runs it, pushes the message
onto `DONE_QUEUE` and counts itself out. Any task can be preempted between any two of these steps,
and calls are made by several tasks.

Why every task finds a job and every job a task is a matter of counting:

  * each push is followed by one spawn, so the jobs in the queue are as many as the calls between
    push and spawn and the tasks that have not popped yet, together;
  * a job is at one place at a time: with a call that has counted it, in the queue, or popped by a
    task. What is at these places together is always the bag of all the jobs there were.

`ACTIVE_JOBS` is ahead of the queue by the calls that have counted and not pushed, and behind by
nothing; a task is counted until its last step.
-/
import HepOS.Lib.Trace

set_option autoImplicit false

namespace HepOS.Process.Async

open Trace List

/-! ## The code -/

structure AsyncJob where
  issuer : UInt64
  name : String
  data : List UInt8
  arg : UInt64
deriving DecidableEq, Repr

/-- A job with the number of its call. -/
structure Entry where
  id : ℕ
  job : AsyncJob
deriving DecidableEq, Repr

/-- An element of `DONE_QUEUE`, with the number of the job. -/
structure Report where
  id : ℕ
  issuer : UInt64
  msg : String
deriving DecidableEq, Repr

/-- The message of a job: its output and its exit code, or the error. -/
def message (name : String) (result : Except String UInt64) (output : String) : String :=
  match result with
  | .ok code =>
    (if output.isEmpty then "" else if output.endsWith "\n" then output else output ++ "\n")
      ++ (name ++ " exited: " ++ toString code)
  | .error e => name ++ ": " ++ e

/-- A job that has been run by a task, and what came of it. -/
structure Finished where
  task : ℕ
  entry : Entry
  result : Except String UInt64
  output : String

def Finished.report (f : Finished) : Report :=
  ⟨f.entry.id, f.entry.job.issuer, message f.entry.job.name f.result f.output⟩

structure State where
  active_jobs : ℕ
  /-- the last one is on top -/
  pending_queue : List Entry
  done_queue : List Report
  /-- calls between `fetch_add` and `push` -/
  counted : Multiset Entry
  /-- calls between `push` and `spawn` -/
  pushed : ℕ
  /-- tasks that have not popped yet -/
  ready : Multiset ℕ
  /-- tasks that run a job -/
  running : Multiset (ℕ × Entry)
  /-- tasks in front of `fetch_sub` -/
  leaving : Multiset ℕ
  /-- the record: all jobs that were counted, the number of tasks, who ran what, tasks that found no
  job, what came of the jobs, and what was polled -/
  calls : List Entry
  tasks : ℕ
  executed : List (ℕ × Entry)
  empty_handed : List ℕ
  finished : List Finished
  returned : List Report

def State.start : State := ⟨0, [], [], 0, 0, 0, 0, 0, [], 0, [], [], [], []⟩

inductive Label where
  /-- `exec_async_with_arg` up to `fetch_add` -/
  | call (job : AsyncJob)
  | push (e : Entry)
  | spawn
  /-- the beginning of `async_task_entry` -/
  | pop (task : ℕ)
  /-- `exec_blocking` has returned; the message is pushed -/
  | report (task : ℕ) (e : Entry) (result : Except String UInt64) (output : String)
  | leave (task : ℕ)
  | poll_async

def State.next (s : State) : Label → Option State
  | .call job =>
    -- `Err("nothing to run")`
    if job.data.isEmpty then some s
    else some { s with
      active_jobs := s.active_jobs + 1
      counted := ⟨s.calls.length, job⟩ ::ₘ s.counted
      calls := s.calls ++ [⟨s.calls.length, job⟩] }
  | .push e =>
    if e ∈ s.counted then
      some { s with
        counted := s.counted.erase e, pending_queue := s.pending_queue ++ [e],
        pushed := s.pushed + 1 }
    else none
  | .spawn =>
    if s.pushed = 0 then none
    else some { s with pushed := s.pushed - 1, ready := s.tasks ::ₘ s.ready, tasks := s.tasks + 1 }
  | .pop task =>
    if task ∈ s.ready then
      match s.pending_queue.getLast? with
      | none => some { s with
          ready := s.ready.erase task, leaving := task ::ₘ s.leaving,
          empty_handed := s.empty_handed ++ [task] }
      | some e => some { s with
          ready := s.ready.erase task
          pending_queue := s.pending_queue.dropLast
          running := (task, e) ::ₘ s.running
          executed := s.executed ++ [(task, e)] }
    else none
  | .report task e result output =>
    if (task, e) ∈ s.running then
      some { s with
        running := s.running.erase (task, e)
        leaving := task ::ₘ s.leaving
        done_queue := s.done_queue ++ [Finished.report ⟨task, e, result, output⟩]
        finished := s.finished ++ [⟨task, e, result, output⟩] }
    else none
  | .leave task =>
    if task ∈ s.leaving then
      some { s with leaving := s.leaving.erase task, active_jobs := s.active_jobs - 1 }
    else none
  | .poll_async =>
    match s.done_queue.getLast? with
    | none => some s
    | some r => some { s with done_queue := s.done_queue.dropLast, returned := s.returned ++ [r] }

def Next (s : State) (a : Label) (t : State) : Prop := s.next a = some t

/-! ## The invariant -/

/-- Where the jobs, the tasks and the reports are. Sums are sums of bags. -/
structure Inv (s : State) : Prop where
  ids : s.calls.map Entry.id = List.range s.calls.length
  jobs : s.counted + (s.pending_queue : Multiset Entry) + (s.executed.map Prod.snd : Multiset Entry)
    = (s.calls : Multiset Entry)
  waiting : s.pending_queue.length = s.pushed + s.ready.card
  served : s.empty_handed = []
  tasks : s.ready + (s.executed.map Prod.fst : Multiset ℕ) = Multiset.range s.tasks
  running : s.running + (s.finished.map fun f => (f.task, f.entry) : Multiset (ℕ × Entry))
    = (s.executed : Multiset (ℕ × Entry))
  reports : (s.done_queue : Multiset Report) + (s.returned : Multiset Report)
    = (s.finished.map Finished.report : Multiset Report)
  active : s.active_jobs = s.counted.card + s.pending_queue.length + s.running.card + s.leaving.card

theorem inv_start : Inv State.start := ⟨rfl, rfl, rfl, rfl, rfl, rfl, rfl, rfl⟩

section

variable {α : Type}

theorem coe_snoc (l : List α) (a : α) : ((l ++ [a] : List α) : Multiset α) = a ::ₘ
    (l : Multiset α) := by
  rw [← Multiset.coe_add, add_comm]
  rfl

theorem coe_dropLast {l : List α} {a : α} (h : l.getLast? = some a) :
    a ::ₘ (l.dropLast : Multiset α) = (l : Multiset α) := by
  rw [← coe_snoc, dropLast_append_getLast? a h]

end

variable {task : ℕ} {s : State}

section

variable {s t : State}

section

variable (h : Inv s)

include h

theorem Inv.call {job : AsyncJob} (hstep : s.next (.call job) = some t) : Inv t := by
  unfold State.next at hstep
  dsimp only at hstep
  split_ifs at hstep
  · cases hstep
    exact h
  · cases hstep
    refine ⟨?_, ?_, h.waiting, h.served, h.tasks, h.running, h.reports, ?_⟩
    · show (s.calls ++ [_]).map Entry.id = List.range (s.calls ++ [_]).length
      rw [map_append, h.ids, length_append, length_singleton, range_succ]
      rfl
    · show _ ::ₘ s.counted + _ + _ = ((s.calls ++ [_] : List Entry) : Multiset Entry)
      rw [coe_snoc, ← h.jobs, Multiset.cons_add, Multiset.cons_add]
    · show s.active_jobs + 1 = (_ ::ₘ s.counted).card + s.pending_queue.length + s.running.card
        + s.leaving.card
      rw [Multiset.card_cons, h.active]
      omega

theorem Inv.push {e : Entry} (hstep : s.next (.push e) = some t) : Inv t := by
  unfold State.next at hstep
  dsimp only at hstep
  split_ifs at hstep with he
  cases hstep
  have hcounted : e ::ₘ s.counted.erase e = s.counted := Multiset.cons_erase he
  refine ⟨h.ids, ?_, ?_, h.served, h.tasks, h.running, h.reports, ?_⟩
  · show s.counted.erase e + ((s.pending_queue ++ [e] : List Entry) : Multiset Entry) + _ = _
    rw [coe_snoc, Multiset.add_cons, ← Multiset.cons_add, hcounted]
    exact h.jobs
  · show (s.pending_queue ++ [e]).length = s.pushed + 1 + s.ready.card
    rw [length_append, h.waiting, length_singleton]
    omega
  · show s.active_jobs = (s.counted.erase e).card + (s.pending_queue ++ [e]).length + s.running.card
      + s.leaving.card
    have hcard : (s.counted.erase e).card + 1
      = s.counted.card := by rw [← Multiset.card_cons, hcounted]
    rw [h.active, length_append, length_singleton]
    omega

theorem Inv.spawn (hstep : s.next .spawn = some t) : Inv t := by
  unfold State.next at hstep
  split_ifs at hstep with hpushed
  cases hstep
  refine ⟨h.ids, h.jobs, ?_, h.served, ?_, h.running, h.reports, h.active⟩
  · show s.pending_queue.length = s.pushed - 1 + (s.tasks ::ₘ s.ready).card
    rw [h.waiting, Multiset.card_cons]
    omega
  · show s.tasks ::ₘ s.ready + _ = Multiset.range (s.tasks + 1)
    rw [Multiset.range_succ, Multiset.cons_add, h.tasks]

/-- There is a job for every task that has not popped yet. -/
theorem Inv.pending_ne_nil (hready : task ∈ s.ready) : s.pending_queue ≠ [] := by
  have hpos : 0 < s.ready.card := Multiset.card_pos_iff_exists_mem.mpr ⟨task, hready⟩
  have hwaiting := h.waiting
  intro hnil
  rw [hnil, length_nil] at hwaiting
  omega

theorem Inv.pop (hstep : s.next (.pop task) = some t) : Inv t := by
  unfold State.next at hstep
  dsimp only at hstep
  split_ifs at hstep with hready
  have hne := h.pending_ne_nil hready
  have hlast : s.pending_queue.getLast? = some (s.pending_queue.getLast hne) :=
    List.getLast?_eq_getLast_of_ne_nil hne
  rw [hlast] at hstep
  cases hstep
  have htop := coe_dropLast hlast
  have hready' : task ::ₘ s.ready.erase task = s.ready := Multiset.cons_erase hready
  have hcard : (s.ready.erase task).card + 1 = s.ready.card := by rw [← Multiset.card_cons, hready']
  have hlen : s.pending_queue.dropLast.length + 1 = s.pending_queue.length := by
    have hpos := length_pos_of_ne_nil hne
    rw [length_dropLast]
    omega
  have hwaiting := h.waiting
  refine ⟨h.ids, ?_, ?_, h.served, ?_, ?_, h.reports, ?_⟩
  · show s.counted + (s.pending_queue.dropLast : Multiset Entry)
      + ((s.executed ++ [_]).map Prod.snd : List Entry) = _
    rw [map_append, map_singleton, coe_snoc, Multiset.add_cons, ← Multiset.cons_add,
      ← Multiset.add_cons, htop]
    exact h.jobs
  · show s.pending_queue.dropLast.length = s.pushed + (s.ready.erase task).card
    omega
  · show s.ready.erase task + ((s.executed ++ [_]).map Prod.fst : List ℕ) = _
    rw [map_append, map_singleton, coe_snoc, Multiset.add_cons, ← Multiset.cons_add, hready']
    exact h.tasks
  · show _ ::ₘ s.running + _ = ((s.executed ++ [_] : List (ℕ × Entry)) : Multiset (ℕ × Entry))
    rw [coe_snoc, Multiset.cons_add, h.running]
  · show s.active_jobs = s.counted.card + s.pending_queue.dropLast.length + (_ ::ₘ s.running).card
      + s.leaving.card
    rw [Multiset.card_cons, h.active]
    omega

theorem Inv.report {e : Entry} {result : Except String UInt64} {output : String}
    (hstep : s.next (.report task e result output) = some t) : Inv t := by
  unfold State.next at hstep
  dsimp only at hstep
  split_ifs at hstep with hmem
  cases hstep
  have hrunning : (task, e) ::ₘ s.running.erase (task, e) = s.running := Multiset.cons_erase hmem
  refine ⟨h.ids, h.jobs, h.waiting, h.served, h.tasks, ?_, ?_, ?_⟩
  · show s.running.erase (task, e) + ((s.finished ++ [_]).map _ : List (ℕ × Entry)) = _
    rw [map_append, map_singleton, coe_snoc, Multiset.add_cons, ← Multiset.cons_add, hrunning]
    exact h.running
  · show ((s.done_queue ++ [_] : List Report) : Multiset Report) + _
      = ((s.finished ++ [_]).map Finished.report : List Report)
    rw [map_append, map_singleton, coe_snoc, coe_snoc, Multiset.cons_add, h.reports]
  · show s.active_jobs = s.counted.card + s.pending_queue.length + (s.running.erase (task, e)).card
      + (task ::ₘ s.leaving).card
    have hcard : (s.running.erase (task, e)).card + 1
      = s.running.card := by rw [← Multiset.card_cons, hrunning]
    rw [Multiset.card_cons, h.active]
    omega

theorem Inv.leave (hstep : s.next (.leave task) = some t) : Inv t := by
  unfold State.next at hstep
  dsimp only at hstep
  split_ifs at hstep with hmem
  cases hstep
  refine ⟨h.ids, h.jobs, h.waiting, h.served, h.tasks, h.running, h.reports, ?_⟩
  have hcard : (s.leaving.erase task).card + 1 = s.leaving.card := by
    rw [← Multiset.card_cons, Multiset.cons_erase hmem]
  show s.active_jobs - 1 = s.counted.card + s.pending_queue.length + s.running.card
    + (s.leaving.erase task).card
  rw [h.active]
  omega

theorem Inv.poll_async (hstep : s.next .poll_async = some t) : Inv t := by
  unfold State.next at hstep
  cases hlast : s.done_queue.getLast? with
  | none =>
    rw [hlast] at hstep
    cases hstep
    exact h
  | some r =>
    rw [hlast] at hstep
    cases hstep
    refine ⟨h.ids, h.jobs, h.waiting, h.served, h.tasks, h.running, ?_, h.active⟩
    rw [coe_snoc, Multiset.add_cons, ← Multiset.cons_add, coe_dropLast hlast]
    exact h.reports

/-- **One step** keeps the invariant. -/
theorem Inv.next {a : Label} (hstep : Next s a t) : Inv t := by
  cases a with
  | call job => exact h.call hstep
  | push e => exact h.push hstep
  | spawn => exact h.spawn hstep
  | pop task => exact h.pop hstep
  | report task e result output => exact h.report hstep
  | leave task => exact h.leave hstep
  | poll_async => exact h.poll_async hstep

end

end

/-! ## Exactly once -/

/-- Every job is run by one task and reported once, and every task finds a job. -/
structure Exact (s : State) : Prop where
  /-- a job that has been queued is in the queue or was run by exactly one task -/
  somewhere : ∀ e ∈ s.calls, e ∈ s.counted ∨ e ∈ s.pending_queue ∨ ∃ task, (task, e) ∈ s.executed
  not_both : ∀ e ∈ s.pending_queue, ∀ task, (task, e) ∉ s.executed
  one_task : (s.executed.map fun x => x.2.id).Nodup
  one_job : (s.executed.map Prod.fst).Nodup
  /-- no task has found the queue empty, or will find it empty -/
  served : s.empty_handed = []
  will_serve : s.ready ≠ 0 → s.pending_queue ≠ []
  /-- when all calls have returned and all tasks have started nothing is left in the queue -/
  drained : s.pushed = 0 → s.ready = 0 → s.pending_queue = []
  /-- a finished job has been run, and has one report, with its issuer and its name, queued or
  polled -/
  ran : ∀ f ∈ s.finished, (f.task, f.entry) ∈ s.executed
  finished_once : (s.finished.map fun f => f.entry.id).Nodup
  reported : (s.done_queue ++ s.returned).Perm (s.finished.map Finished.report)
  polled_once : ((s.done_queue ++ s.returned).map Report.id).Nodup
  /-- the counter -/
  active : s.active_jobs = s.counted.card + s.pending_queue.length + s.running.card + s.leaving.card

theorem Inv.nodup_ids (h : Inv s) : (s.calls.map Entry.id).Nodup := by
  rw [h.ids]
  exact nodup_range

/-- The numbers of queued and of executed jobs are all different. -/
theorem Inv.nodup_jobs (h : Inv s) :
    (s.pending_queue.map Entry.id ++ s.executed.map fun x => x.2.id).Nodup := by
  have hall : (s.counted + (s.pending_queue : Multiset Entry)
    + (s.executed.map Prod.snd : List Entry)).map Entry.id
      = (s.calls.map Entry.id : List ℕ) := by
    rw [h.jobs]
    rfl
  have hnodup : ((s.counted + (s.pending_queue : Multiset Entry)
      + (s.executed.map Prod.snd : List Entry)).map Entry.id).Nodup := by
    rw [hall]
    exact Multiset.coe_nodup.mpr h.nodup_ids
  have hle :
    ((s.pending_queue.map Entry.id ++ s.executed.map fun x => x.2.id : List ℕ) : Multiset ℕ)
      ≤ (s.counted + (s.pending_queue : Multiset Entry)
        + (s.executed.map Prod.snd : List Entry)).map Entry.id := by
    rw [add_assoc, Multiset.map_add, Multiset.map_add, Multiset.map_coe, Multiset.map_coe, map_map,
      ← Multiset.coe_add]
    exact Multiset.le_add_left _ _
  exact Multiset.coe_nodup.mp (Multiset.nodup_of_le hle hnodup)

theorem Inv.nodup_finished (h : Inv s) : (s.finished.map fun f => f.entry.id).Nodup := by
  have hexecuted := (nodup_append.mp h.nodup_jobs).2.1
  have hle : ((s.finished.map fun f => (f.task, f.entry) : List (ℕ × Entry)) : Multiset (ℕ × Entry))
      ≤ (s.executed : Multiset _) := by
    rw [← h.running]
    exact Multiset.le_add_left _ _
  have hmap := Multiset.map_le_map (f := fun x : ℕ × Entry => x.2.id) hle
  rw [Multiset.map_coe, Multiset.map_coe, map_map] at hmap
  exact Multiset.coe_nodup.mp (Multiset.nodup_of_le hmap (Multiset.coe_nodup.mpr hexecuted))

theorem Inv.exact (h : Inv s) : Exact s := by
  obtain ⟨-, hexecuted, hdisjoint⟩ := nodup_append.mp h.nodup_jobs
  have hwaiting := h.waiting
  have hreports : (s.done_queue ++ s.returned).Perm (s.finished.map Finished.report) := by
    rw [← Multiset.coe_eq_coe, ← Multiset.coe_add]
    exact h.reports
  refine ⟨fun e he => ?_, fun e he task hmem => ?_, hexecuted, ?_, h.served, fun hready => ?_,
    fun hpushed hready => ?_, fun f hf => ?_, h.nodup_finished, hreports, ?_, h.active⟩
  · have hmem : e ∈ s.counted + (s.pending_queue : Multiset Entry)
        + (s.executed.map Prod.snd : List Entry) := by
      rw [h.jobs]
      exact he
    rw [Multiset.mem_add, Multiset.mem_add, Multiset.mem_coe, Multiset.mem_coe, or_assoc] at hmem
    refine hmem.imp_right (Or.imp_right fun hrun => ?_)
    obtain ⟨⟨task, e'⟩, hx, rfl⟩ := mem_map.mp hrun
    exact ⟨task, hx⟩
  · exact hdisjoint e.id (mem_map_of_mem he) e.id (mem_map_of_mem hmem) rfl
  · have hle : ((s.executed.map Prod.fst : List ℕ) : Multiset ℕ) ≤ Multiset.range s.tasks := by
      rw [← h.tasks]
      exact Multiset.le_add_left _ _
    exact Multiset.coe_nodup.mp (Multiset.nodup_of_le hle (Multiset.nodup_range _))
  · obtain ⟨task, htask⟩ := Multiset.exists_mem_of_ne_zero hready
    exact h.pending_ne_nil htask
  · rw [hpushed, hready, Multiset.card_zero] at hwaiting
    exact eq_nil_of_length_eq_zero hwaiting
  · have hmem : (f.task, f.entry) ∈ s.running
        + (s.finished.map fun f => (f.task, f.entry) : List (ℕ × Entry)) :=
      Multiset.mem_add.mpr (.inr (mem_map_of_mem (f := fun f : Finished => (f.task, f.entry)) hf))
    rw [h.running] at hmem
    exact hmem
  · have hids : ((s.finished.map Finished.report).map Report.id).Nodup := by
      rw [map_map]
      exact h.nodup_finished
    exact (hreports.map Report.id).nodup_iff.mpr hids

/-- **Background jobs.** In every interleaving of calls, tasks and polls each job is run by exactly
one task and reported once, and no task finds the queue empty. The counter is the number of jobs
that are queued, run or about to be queued, and of tasks about to count themselves out. -/
theorem exact_of_steps {l : List Label} {s : State} (h : Steps Next State.start l s) : Exact s :=
  (h.keeps inv_start fun _ _ _ hv hstep => hv.next hstep).exact

def hello : AsyncJob := ⟨1, "hello", [1], 0⟩

def memtest : AsyncJob := ⟨2, "memtest", [2], 0⟩

/-- Two calls at the same time. The task of the first call gets the job of the second. -/
theorem exact_of_steps_crossed : ∃ s, Steps Next State.start
      [.call hello, .call memtest, .push ⟨0, hello⟩, .spawn, .push ⟨1, memtest⟩, .pop 0,
        .report 0 ⟨1, memtest⟩ (.ok 0) "", .poll_async] s
    ∧ s.executed = [(0, ⟨1, memtest⟩)] ∧ s.returned = [⟨1, 2, "memtest exited: 0"⟩] ∧ Exact s := by
  have hrun : (run State.next State.start
      [.call hello, .call memtest, .push ⟨0, hello⟩, .spawn, .push ⟨1, memtest⟩, .pop 0,
        .report 0 ⟨1, memtest⟩ (.ok 0) "",
        .poll_async]).map (fun s => (s.executed, s.returned))
          = some ([(0, ⟨1, memtest⟩)], [⟨1, 2, "memtest exited: 0"⟩]) := by
    decide +kernel
  obtain ⟨s, hs, heq⟩ := Option.map_eq_some_iff.mp hrun
  obtain ⟨hexecuted, hreturned⟩ := Prod.mk.inj heq
  have h : Steps Next State.start _ s := .of_run _ hs
  exact ⟨s, h, hexecuted, hreturned, exact_of_steps h⟩

/-- A call has counted its job and is preempted: the counter is 1, and no job is queued or run. -/
theorem counted_before_queued : ∃ s, Steps Next State.start [.call hello] s
    ∧ s.active_jobs ≠ s.pending_queue.length + s.running.card := by
  refine ⟨_, .one rfl, ?_⟩
  decide

end HepOS.Process.Async
