/-
The states of the tasks (`scheduler.rs`), with every call as one step.

`next` wakes the sleepers whose time has come, looks for the first task that is ready, starting
behind the current one, and makes it the current one. The callers differ in what they do to their
own task before: nothing in `tick`, `Blocked` in `sleep_ms` and `block_on_irq`, `Dead` in
`exit_current`; and the middle two take it back when there is nobody to switch to.

Between two calls the current task is running, or it is dead and the processor halts in
`exit_current` until the timer finds another task; no other task is running. This is all that has to
be kept along a run. The rest is about one call.

A sleeper's time is `TICK_COUNT + ticks`, a sum that can wrap around. The sleeper is woken in the
same call then, and leaves as a task that is ready.
-/
import HepOS.Scheduler.Tasks

set_option autoImplicit false

namespace HepOS.Sched.Atomic

open Trace Function Option UInt64 Nat

/-! ## The calls -/

structure State where
  sched : Scheduler
  /-- `TICK_COUNT` -/
  ticks : UInt64

inductive Label
  /-- `TICK_COUNT.fetch_add(1)` -/
  | advance
  | next
  | wake_irq_waiters (vector : UInt8)
  | spawn (stack : ℕ) (cr3 : UInt64)
  | sleep_ms (ms : UInt64)
  | block_on_irq (vector : UInt8)
  | exit_current
deriving DecidableEq, Repr

section

variable (s : State)

def State.current (s : State) : Task := s.sched.tasks s.sched.current

/-- The calls other than `next` and `wake_irq_waiters` are made by the task that runs. -/
def State.caller_runs : Bool := decide (s.current.state = .Running)

/-- The time at which a task that calls `sleep_ms` is to be woken. -/
def State.wake_at (ms : UInt64) : UInt64 := s.ticks + max (ms / 10) 1

/-- `u64::MAX` -/
def U64_MAX : UInt64 := 0xFFFFFFFFFFFFFFFF

/-- The tasks when a call comes to `next`. -/
def State.entered : Label → Option Scheduler
  | .next => some s.sched
  | .sleep_ms ms =>
    if s.caller_runs then
      some (s.sched.set s.sched.current
        { s.current with wake_at := s.wake_at ms, state := .Blocked })
    else none
  | .block_on_irq vector =>
    if s.caller_runs then
      some (s.sched.set s.sched.current
        { s.current with waiting_irq := some vector, wake_at := U64_MAX, state := .Blocked })
    else none
  | .exit_current =>
    if s.caller_runs then some (s.sched.set s.sched.current { s.current with state := .Dead })
      else none
  | _ => none

/-- What a call does to its task when `next` has found nobody. -/
def undo : Label → Task → Task
  | .sleep_ms _, t => { t with state := .Running }
  | .block_on_irq _, t => { t with state := .Running, waiting_irq := none }
  | _, t => t

/-- The rest of a call from `next` on. -/
def finish (a : Label) (p : Scheduler) (now : UInt64) : Scheduler :=
  match p.next now with
  | (some _, t) => t
  | (none, t) => t.set t.current (undo a (t.tasks t.current))

/-- The place of a new task: that of a dead one, or behind the last. -/
def place (s : Scheduler) (task : Task) : Scheduler :=
  match (List.range s.len).find? fun i => (s.tasks i).state = .Dead with
  | some slot => s.set slot task
  | none => { s.set s.len task with len := s.len + 1 }

def State.step : Label → Option State
  | .advance => some { s with ticks := s.ticks + 1 }
  | .wake_irq_waiters vector => some { s with sched := Sched.wake_irq_waiters s.sched vector }
  | .spawn stack cr3 =>
    if s.caller_runs then some { s with sched := place s.sched (Task.new stack cr3) } else none
  | a => (s.entered a).map fun p => { s with sched := finish a p s.ticks }

def Next (a : Label) (t : State) : Prop := s.step a = some t

/-- The end of `kmain`. -/
def State.start (cr3 : UInt64) : State := ⟨(Machine.start cr3).sched, 0⟩

/-! ## What is claimed of a call -/

/-- The first task that is ready, in the order from the one behind the current task on, is `n`. -/
def FirstReady (p : Scheduler) (now : UInt64) (n : ℕ) : Prop :=
  ∃ k, 1 ≤ k ∧ k < p.len ∧ n = (p.current + k) % p.len ∧ (wake now (p.tasks n)).state = .Ready
    ∧ ∀ j, 1 ≤ j → j < k → (wake now (p.tasks ((p.current + j) % p.len))).state ≠ .Ready

/-- What becomes of the task that leaves. -/
def Leaves (old new : Task) : Prop :=
  (old.state = .Running ∧ new.state = .Ready) ∨ (old.state = .Blocked ∧ new.state = .Blocked)
    ∨ (old.state = .Dead ∧ new.state = .Dead)

/-- A switch from `p` to `t`. -/
structure Switches (p : Scheduler) (now : UInt64) (t : Scheduler) : Prop where
  len : t.len = p.len
  current : t.current < t.len
  one_running : ∀ i < t.len, (t.tasks i).state = .Running ↔ i = t.current
  first : FirstReady p now t.current
  old : Leaves (p.tasks p.current) (t.tasks p.current)
  alive : (p.tasks t.current).state ≠ .Dead

/-- How a task can stop being blocked or dead in a call. -/
structure Wakes (a : Label) (t : State) (i : ℕ) : Prop where
  irq : ∀ vector, (s.sched.tasks i).state = .Blocked → (s.sched.tasks i).waiting_irq = some vector →
    ((t.sched.tasks i).state ≠ .Blocked ↔ a = .wake_irq_waiters vector)
      ∧ (a = .wake_irq_waiters vector → (t.sched.tasks i).state = .Ready)
  sleep : (s.sched.tasks i).state = .Blocked → (s.sched.tasks i).waiting_irq = none →
    (t.sched.tasks i).state ≠ .Blocked →
    (s.sched.tasks i).wake_at ≤ s.ticks
  dead : (s.sched.tasks i).state = .Dead → (t.sched.tasks i).state ≠ .Dead → ∃ stack cr3,
    a = .spawn stack cr3

/-- The time of the sleeper does not wrap around. -/
def NoWrap : Label → Prop
  | .sleep_ms ms => s.ticks.toNat + (max (ms / 10) 1 : UInt64).toNat < 2 ^ 64
  | _ => True

end

/-! ## `next` -/

section

variable {p t : Scheduler} {now : UInt64} {task : Task}

/-- The loop stops at the first task that is ready, if there is one. -/
theorem pick_spec (tasks : ℕ → Task) (n : ℕ) (k : ℕ) : ∀ start, start < n → ∃ j ≤ k,
    pick tasks n k start = (start + j) % n
    ∧ (∀ i < j, (tasks ((start + i) % n)).state ≠ .Ready)
    ∧ (j < k → (tasks (pick tasks n k start)).state = .Ready) := by
  induction k with
  | zero =>
    intro start hlt
    refine ⟨0, le_rfl, ?_, fun i hi => absurd hi (Nat.not_lt_zero i),
      fun h => absurd h (Nat.lt_irrefl 0)⟩
    rw [Nat.add_zero, mod_eq_of_lt hlt]
    rfl
  | succ k ih =>
    intro start hlt
    unfold pick
    split_ifs with hready
    · refine ⟨0, Nat.zero_le _, ?_, fun i hi => absurd hi (Nat.not_lt_zero i), fun _ => hready⟩
      rw [Nat.add_zero, mod_eq_of_lt hlt]
    · obtain ⟨j, hj, heq, hnot, hyes⟩ := ih ((start + 1) % n) (mod_lt _ (by omega))
      refine ⟨j + 1, by omega, ?_, fun i hi => ?_, fun hlt' => hyes (by omega)⟩
      · rw [heq, mod_add_mod]
        congr 1
        omega
      · cases i with
        | zero =>
          rw [Nat.add_zero, mod_eq_of_lt hlt]
          exact hready
        | succ i =>
          have hi' := hnot i (by omega)
          rw [mod_add_mod] at hi'
          rw [← Nat.add_assoc, Nat.add_right_comm]
          exact hi'

/-- `next` that finds a task. -/
structure Found (p : Scheduler) (now : UInt64) (n : ℕ) (t : Scheduler) : Prop where
  lt : n < p.len
  ne : n ≠ p.current
  first : FirstReady p now n
  len : t.len = p.len
  current : t.current = n
  new : (t.tasks n).state = .Running
  old : (t.tasks p.current).state
    = if (wake now (p.tasks p.current)).state = .Running then .Ready
      else (wake now (p.tasks p.current)).state
  rest : ∀ i, i ≠ n → i ≠ p.current → t.tasks i = wake now (p.tasks i)

theorem next_cases (hlen : 2 ≤ p.len) (hcur : p.current < p.len) (now : UInt64) :
    p.next now = (none, { p with tasks := fun i => wake now (p.tasks i) })
      ∨ ∃ sw t n, p.next now = (some sw, t) ∧ Found p now n t := by
  unfold Scheduler.next
  rw [if_neg (by omega)]
  dsimp only
  obtain ⟨j, hj, heq, hnot, hyes⟩ :=
    pick_spec (fun i => wake now (p.tasks i)) p.len p.len ((p.current + 1) % p.len)
    (mod_lt _ (by omega))
  generalize pick (fun i => wake now (p.tasks i)) p.len p.len ((p.current + 1) % p.len)
    = n at heq hyes ⊢
  by_cases hready : (wake now (p.tasks n)).state ≠ .Ready
  · rw [if_pos hready]
    exact .inl rfl
  rw [if_neg hready]
  have hready : (wake now (p.tasks n)).state = .Ready := not_not.mp hready
  by_cases hself : n = p.current
  · rw [if_pos hself]
    exact .inl rfl
  rw [if_neg hself]
  have hlt : n < p.len := by
    rw [heq]
    exact mod_lt _ (by omega)
  have hindex : n = (p.current + (j + 1)) % p.len := by
    rw [heq, mod_add_mod]
    congr 1
    omega
  -- all the way round is the current task itself
  have hround : j + 1 < p.len := by
    by_contra hge
    rcases Nat.lt_or_ge p.len (j + 1) with hgt | hle
    · -- past the end of the loop the first task it saw was ready after all
      obtain rfl : j = p.len := by omega
      refine hnot 0 (by omega) ?_
      rw [Nat.add_zero, mod_mod, ← add_mod_right, Nat.add_assoc, Nat.add_comm 1 p.len, ← hindex]
      exact hready
    · refine hself ?_
      have hfull : j + 1 = p.len := by omega
      rw [hindex, hfull, add_mod_right, mod_eq_of_lt hcur]
  have hfirst : FirstReady p now n := by
    refine ⟨j + 1, by omega, hround, hindex, hready, fun i hone hi => ?_⟩
    have hi' := hnot (i - 1) (by omega)
    rw [mod_add_mod, Nat.add_assoc, Nat.add_sub_cancel' hone] at hi'
    exact hi'
  refine .inr ⟨_, _, n, rfl, hlt, hself, hfirst, rfl, rfl, ?_, ?_, fun i hn hc => ?_⟩
  · dsimp only
    rw [update_self]
  · dsimp only
    rw [update_of_ne (Ne.symm hself)]
    split_ifs
    · rw [update_self]
    · rfl
  · dsimp only
    rw [update_of_ne hn]
    split_ifs
    · rw [update_of_ne hc]
    · rfl

theorem wake_state_running : (wake now task).state = .Running ↔ task.state = .Running := by
  unfold wake
  split_ifs with h
  · exact iff_of_false (by simp) (by rw [h.1]; simp)
  · exact Iff.rfl

theorem wake_of_not_blocked (h : task.state ≠ .Blocked) : wake now task = task :=
  if_neg fun hw => h hw.1

/-- A task that waits for an interrupt is not woken by the clock. -/
theorem wake_of_irq {vector : UInt8} (h : task.waiting_irq = some vector) :
    wake now task = task := by
  refine if_neg fun hw => ?_
  rw [h] at hw
  exact absurd hw.2.1 (by simp)

theorem wake_of_early (h : ¬ task.wake_at ≤ now) : wake now task = task := if_neg fun hw => h hw.2.2

end

/-! ## Between two calls -/

/-- The current task is running or dead, and no other one is running. -/
structure Inv (s : Scheduler) : Prop where
  len : 2 ≤ s.len
  current : s.current < s.len
  running : ∀ i < s.len, (s.tasks i).state = .Running → i = s.current
  active : (s.tasks s.current).state = .Running ∨ (s.tasks s.current).state = .Dead

/-- The tasks at the entry of `next`: the current one may be anything but ready. -/
structure Entered (p : Scheduler) : Prop where
  len : 2 ≤ p.len
  current : p.current < p.len
  running : ∀ i < p.len, (p.tasks i).state = .Running → i = p.current
  active : (p.tasks p.current).state ≠ .Ready

theorem Inv.entered {s : Scheduler} (h : Inv s) : Entered s := by
  refine ⟨h.len, h.current, h.running, fun hready => ?_⟩
  rcases h.active with hrun | hdead
  · exact absurd (hrun.symm.trans hready) (by simp)
  · exact absurd (hdead.symm.trans hready) (by simp)

theorem Inv.entered_set {s : Scheduler} (h : Inv s) {task : Task} (hready : task.state ≠ .Ready) :
    Entered (s.set s.current task) := by
  refine ⟨h.len, h.current, fun i hi hrun => ?_, ?_⟩
  · by_cases heq : i = s.current
    · exact heq
    · have hrun : (update s.tasks s.current task i).state = .Running := hrun
      rw [update_of_ne heq] at hrun
      exact h.running i hi hrun
  · show (update s.tasks s.current task s.current).state ≠ .Ready
    rw [update_self]
    exact hready

/-- The ways into `next`. -/
inductive Enters (s : State) : Label → Scheduler → Prop
  | next : Enters s .next s.sched
  | sleep_ms {ms : UInt64} (h : s.caller_runs = true) : Enters s (.sleep_ms ms)
      (s.sched.set s.sched.current { s.current with wake_at := s.wake_at ms, state := .Blocked })
  | block_on_irq {vector : UInt8} (h : s.caller_runs = true) : Enters s (.block_on_irq vector)
      (s.sched.set s.sched.current
        { s.current with waiting_irq := some vector, wake_at := U64_MAX, state := .Blocked })
  | exit_current (h : s.caller_runs = true) : Enters s .exit_current
      (s.sched.set s.sched.current { s.current with state := .Dead })

section

variable {s : State} {a : Label} {p : Scheduler}

theorem State.enters (hp : s.entered a = some p) : Enters s a p := by
  cases a with
  | next =>
    cases hp
    exact .next
  | sleep_ms ms =>
    unfold State.entered at hp
    split_ifs at hp with hruns
    cases hp
    exact .sleep_ms hruns
  | block_on_irq vector =>
    unfold State.entered at hp
    split_ifs at hp with hruns
    cases hp
    exact .block_on_irq hruns
  | exit_current =>
    unfold State.entered at hp
    split_ifs at hp with hruns
    cases hp
    exact .exit_current hruns
  | advance | wake_irq_waiters vector | spawn stack cr3 => exact absurd hp (some_ne_none p).symm

theorem Enters.entered (hp : Enters s a p) (h : Inv s.sched) : Entered p := by
  cases hp with
  | next => exact h.entered
  | sleep_ms _ | block_on_irq _ | exit_current _ => exact h.entered_set (by simp)

theorem Enters.rest (hp : Enters s a p) :
    p.current = s.sched.current ∧ ∀ i, i ≠ s.sched.current → p.tasks i = s.sched.tasks i := by
  cases hp with
  | next => exact ⟨rfl, fun _ _ => rfl⟩
  | sleep_ms _ | block_on_irq _ | exit_current _ => exact ⟨rfl, fun i hi => update_of_ne hi _ _⟩

/-- A time that does not wrap around is still to come. -/
theorem State.not_wake_at_le {ms : UInt64} (hwrap : NoWrap s (.sleep_ms ms)) :
    ¬ s.wake_at ms ≤ s.ticks := by
  have hone : 1 ≤ (max (ms / 10) 1 : UInt64).toNat := by
    show 1 ≤ (if ms / 10 ≤ 1 then 1 else ms / 10 : UInt64).toNat
    split_ifs with hle
    · exact le_rfl
    · rw [le_iff_toNat_le] at hle
      exact Nat.le_of_not_le hle
  unfold State.wake_at
  rw [le_iff_toNat_le, UInt64.toNat_add, mod_eq_of_lt hwrap]
  omega

/-- The task that leaves is not woken on the way out. -/
theorem Enters.old (hp : Enters s a p) (h : Inv s.sched) (hwrap : NoWrap s a) :
    wake s.ticks (p.tasks p.current) = p.tasks p.current := by
  cases hp with
  | next =>
    refine wake_of_not_blocked fun hblocked => ?_
    rcases h.active with hrun | hdead
    · exact absurd (hrun.symm.trans hblocked) (by simp)
    · exact absurd (hdead.symm.trans hblocked) (by simp)
  | sleep_ms _ =>
    refine wake_of_early ?_
    show ¬ (update s.sched.tasks s.sched.current _ s.sched.current).wake_at ≤ s.ticks
    rw [update_self]
    exact State.not_wake_at_le hwrap
  | @block_on_irq vector _ =>
    have hirq : (update s.sched.tasks s.sched.current
        { s.current with waiting_irq := some vector, wake_at := U64_MAX, state := .Blocked }
        s.sched.current).waiting_irq = some vector := by
      rw [update_self]
    exact wake_of_irq hirq
  | exit_current _ =>
    refine wake_of_not_blocked ?_
    show (update s.sched.tasks s.sched.current _ s.sched.current).state ≠ _
    simp

end

section

variable {p t : Scheduler} {now : UInt64} {n : ℕ}

/-- After a switch the new task is the only one that runs. -/
theorem Entered.one_running (h : Entered p) (hfound : Found p now n t) :
    ∀ i < t.len, (t.tasks i).state = .Running ↔ i = t.current := by
  intro i hi
  rw [hfound.len] at hi
  rw [hfound.current]
  constructor
  · intro hrun
    by_contra hne
    by_cases hcur : i = p.current
    · rw [hcur, hfound.old] at hrun
      split_ifs at hrun with hold
      exact hold hrun
    · rw [hfound.rest i hne hcur, wake_state_running] at hrun
      exact hcur (h.running i hi hrun)
  · rintro rfl
    exact hfound.new

theorem Entered.switches (h : Entered p) (hfound : Found p now n t)
    (hold : wake now (p.tasks p.current) = p.tasks p.current) :
    Switches p now t := by
  have hcurrent := hfound.current
  refine ⟨hfound.len, ?_, h.one_running hfound, hcurrent ▸ hfound.first, ?_, ?_⟩
  · rw [hcurrent, hfound.len]
    exact hfound.lt
  · have hnew := hfound.old
    rw [hold] at hnew
    unfold Leaves
    rw [hnew]
    cases hstate : (p.tasks p.current).state with
    | Running => exact .inl ⟨rfl, rfl⟩
    | Ready => exact absurd hstate h.active
    | Blocked => exact .inr (.inl ⟨rfl, rfl⟩)
    | Dead => exact .inr (.inr ⟨rfl, rfl⟩)
  · obtain ⟨k, -, -, -, hready, -⟩ := hfound.first
    rw [hcurrent]
    intro hdead
    rw [wake_of_not_blocked (by rw [hdead]; simp), hdead] at hready
    simp at hready

theorem Found.inv (hfound : Found p now n t) (h : Entered p) : Inv t := by
  refine ⟨hfound.len ▸ h.len, ?_, fun i hi => (h.one_running hfound i hi).mp, .inl ?_⟩
  · rw [hfound.current, hfound.len]
    exact hfound.lt
  · rw [hfound.current]
    exact hfound.new

end

variable {s : State} {p : Scheduler} {a : Label}

/-- A call that finds nobody leaves its task running, or it was `exit_current`. -/
theorem inv_of_stay (h : Inv s.sched) (hp : Enters s a p) :
    Inv (Scheduler.set { p with tasks := fun i => wake s.ticks (p.tasks i) } p.current
      (undo a (wake s.ticks (p.tasks p.current)))) := by
  have hentered := hp.entered h
  refine ⟨hentered.len, hentered.current, fun i hi hrun => ?_, ?_⟩
  · by_contra hother
    have hne : i ≠ p.current := hother
    have hrun : (update (fun i => wake s.ticks (p.tasks i)) p.current _ i).state = .Running := hrun
    rw [update_of_ne hne, wake_state_running] at hrun
    exact hne (hentered.running i hi hrun)
  · show (update (fun i => wake s.ticks (p.tasks i)) p.current _ p.current).state = .Running
      ∨ (update (fun i => wake s.ticks (p.tasks i)) p.current _ p.current).state = .Dead
    rw [update_self]
    have hwake : NoWrap s a → wake s.ticks (p.tasks p.current) = p.tasks p.current := hp.old h
    cases hp with
    | sleep_ms _ | block_on_irq _ => exact .inl rfl
    | next =>
      rw [hwake trivial]
      exact h.active
    | exit_current _ =>
      rw [hwake trivial]
      refine .inr ?_
      show (update s.sched.tasks s.sched.current _ s.sched.current).state = _
      rw [update_self]

/-! ## One call -/

/-- What a call with `next` in it comes to. -/
theorem finish_cases (h : Inv s.sched) (hp : Enters s a p) :
    (∃ n, Found p s.ticks n (finish a p s.ticks))
      ∨ finish a p s.ticks
        = Scheduler.set { p with tasks := fun i => wake s.ticks (p.tasks i) } p.current
        (undo a (wake s.ticks (p.tasks p.current))) := by
  have hentered := hp.entered h
  unfold finish
  rcases next_cases hentered.len hentered.current s.ticks with hnone | ⟨sw, t, n, hsome, hfound⟩
  · rw [hnone]
    exact .inr rfl
  · rw [hsome]
    exact .inl ⟨n, hfound⟩

theorem inv_finish (h : Inv s.sched) (hp : Enters s a p) : Inv (finish a p s.ticks) := by
  rcases finish_cases h hp with ⟨n, hfound⟩ | hstay
  · exact hfound.inv (hp.entered h)
  · rw [hstay]
    exact inv_of_stay h hp

/-- A task that is neither the caller nor chosen is only looked at by the clock. -/
theorem finish_rest (h : Inv s.sched) (hp : Enters s a p) {i : ℕ} (hi : i ≠ s.sched.current)
    (hready : (wake s.ticks (s.sched.tasks i)).state ≠ .Ready) :
    (finish a p s.ticks).tasks i = wake s.ticks (s.sched.tasks i) := by
  obtain ⟨hcur, hrest⟩ := hp.rest
  rcases finish_cases h hp with ⟨n, hfound⟩ | hstay
  · have hn : i ≠ n := by
      rintro rfl
      obtain ⟨k, -, -, -, hyes, -⟩ := hfound.first
      rw [hrest i hi] at hyes
      exact hready hyes
    rw [hfound.rest i hn (hcur ▸ hi), hrest i hi]
  · rw [hstay]
    show update _ p.current _ i = _
    rw [update_of_ne (hcur ▸ hi)]
    show wake s.ticks (p.tasks i) = _
    rw [hrest i hi]

/-- Where a new task is put nobody lives. -/
theorem place_spec (s : Scheduler) (task : Task) : ∃ slot,
    (slot < s.len → (s.tasks slot).state = .Dead) ∧ slot ≤ s.len
    ∧ (place s task).tasks = update s.tasks slot task ∧ (place s task).current = s.current
    ∧ s.len ≤ (place s task).len ∧ (∀ i < (place s task).len, i < s.len ∨ i = slot) := by
  unfold place
  cases hfind : (List.range s.len).find? fun i => (s.tasks i).state = .Dead with
  | some slot =>
    have hdead := List.find?_some hfind
    have hmem := List.mem_range.mp (List.mem_of_find?_eq_some hfind)
    exact ⟨slot, fun _ => of_decide_eq_true hdead, Nat.le_of_lt hmem, rfl, rfl, le_rfl,
      fun i hi => .inl hi⟩
  | none =>
    refine ⟨s.len, fun hlt => absurd hlt (Nat.lt_irrefl _), le_rfl, rfl, rfl, le_succ _,
      fun i hi => ?_⟩
    have hi : i < s.len + 1 := hi
    omega

theorem inv_place (h : Inv s.sched) (hrun : s.current.state = .Running) {task : Task}
    (hready : task.state = .Ready) :
    Inv (place s.sched task) := by
  obtain ⟨slot, hdead, -, htasks, hcur, hlen, hin⟩ := place_spec s.sched task
  -- the current task is not dead, so its place is not taken
  have hslot : s.sched.current ≠ slot := by
    intro heq
    have hstate := hdead (heq ▸ h.current)
    rw [← heq] at hstate
    exact absurd (hrun.symm.trans hstate) (by simp)
  refine ⟨h.len.trans hlen, hcur ▸ h.current.trans_le hlen, fun i hi hrunning => ?_, .inl ?_⟩
  · rw [htasks] at hrunning
    rw [hcur]
    by_cases hnew : i = slot
    · rw [hnew, update_self, hready] at hrunning
      simp at hrunning
    · rw [update_of_ne hnew] at hrunning
      exact h.running i ((hin i hi).resolve_right hnew) hrunning
  · rw [htasks, hcur, update_of_ne hslot]
    exact hrun

theorem wake_irq_waiters_running (s : Scheduler) (vector : UInt8) (i : ℕ) :
    ((wake_irq_waiters s vector).tasks i).state = .Running ↔ (s.tasks i).state = .Running := by
  unfold wake_irq_waiters
  dsimp only
  split_ifs with hw
  · exact iff_of_false (by simp) (by rw [hw.1]; simp)
  · exact Iff.rfl

theorem inv_wake_irq_waiters {s : Scheduler} (h : Inv s) (vector : UInt8) :
    Inv (Sched.wake_irq_waiters s vector) := by
  refine ⟨h.len, h.current, fun i hi hrun => h.running i hi
    ((wake_irq_waiters_running s vector i).mp hrun), ?_⟩
  refine h.active.imp (wake_irq_waiters_running s vector _).mpr fun hdead => ?_
  exact (wake_irq_waiters_same s vector _).dead.mpr hdead

/-- **One call** keeps the invariant. -/
theorem Inv.step (h : Inv s.sched) {t : State} (hstep : Next s a t) : Inv t.sched := by
  unfold Next State.step at hstep
  split at hstep
  case h_1 =>
    cases hstep
    exact h
  case h_2 vector =>
    cases hstep
    exact inv_wake_irq_waiters h vector
  case h_3 =>
    split_ifs at hstep with hrun
    cases hstep
    exact inv_place h (of_decide_eq_true hrun) rfl
  case h_4 =>
    obtain ⟨p, hp, rfl⟩ := map_eq_some_iff.mp hstep
    exact inv_finish h (State.enters hp)

section

variable {t : State} {i : ℕ}

/-- In a call with `next` in it the clock wakes sleepers, and nobody else is woken. -/
theorem Inv.wakes_finish (h : Inv s.sched) (hp : Enters s a p)
    (ht : t.sched = finish a p s.ticks) : Wakes s a t i := by
  -- a task that is blocked is not the caller
  have hother : (s.sched.tasks i).state = .Blocked → i ≠ s.sched.current := by
    rintro hblocked rfl
    rcases h.active with hrun | hdead
    · exact absurd (hrun.symm.trans hblocked) (by simp)
    · exact absurd (hdead.symm.trans hblocked) (by simp)
  have hnot : ∀ vector, a ≠ .wake_irq_waiters vector := by
    rintro vector rfl
    exact nomatch hp
  refine ⟨fun vector hblocked hirq => ?_, fun hblocked _ hstate => ?_, fun hdead hstate => ?_⟩
  · have hwake : wake s.ticks (s.sched.tasks i) = s.sched.tasks i := wake_of_irq hirq
    have hsame := finish_rest h hp (hother hblocked) (by rw [hwake, hblocked]; simp)
    rw [ht, hsame, hwake]
    exact ⟨iff_of_false (not_not.mpr hblocked) (hnot vector), fun heq => absurd heq (hnot vector)⟩
  · by_contra hearly
    have hwake : wake s.ticks (s.sched.tasks i) = s.sched.tasks i := wake_of_early hearly
    have hsame := finish_rest h hp (hother hblocked) (by rw [hwake, hblocked]; simp)
    rw [ht, hsame, hwake] at hstate
    exact hstate hblocked
  · -- a dead task is not woken; if it is the current one there is no caller but `next`
    exfalso
    have hwake : wake s.ticks (s.sched.tasks i) = s.sched.tasks i :=
      wake_of_not_blocked (by rw [hdead]; simp)
    by_cases hcur : i = s.sched.current
    · have hcaller : s.caller_runs ≠ true := by
        intro hruns
        have hrun : (s.sched.tasks s.sched.current).state = .Running := of_decide_eq_true hruns
        rw [← hcur, hdead] at hrun
        simp at hrun
      have hcases := finish_cases h hp
      cases hp with
      | sleep_ms hruns | block_on_irq hruns | exit_current hruns => exact hcaller hruns
      | next =>
        rcases hcases with ⟨n, hfound⟩ | hstay
        · have hold := hfound.old
          rw [← hcur, hwake, hdead] at hold
          rw [ht, hold] at hstate
          exact hstate rfl
        · rw [ht, hstay] at hstate
          refine hstate ?_
          have hset : (update (fun i => wake s.ticks (s.sched.tasks i)) s.sched.current
              (wake s.ticks (s.sched.tasks s.sched.current)) i).state = .Dead := by
            rw [← hcur, update_self, hwake, hdead]
          exact hset
    · have hsame := finish_rest h hp hcur (by rw [hwake, hdead]; simp)
      rw [ht, hsame, hwake] at hstate
      exact hstate hdead

/-- **One call and one task.** -/
theorem Inv.wakes (h : Inv s.sched) (hlt : i < s.sched.len) (hstep : Next s a t) :
    Wakes s a t i := by
  unfold Next State.step at hstep
  split at hstep
  case h_1 =>
    cases hstep
    refine ⟨fun vector hblocked _ => ⟨iff_of_false (not_not.mpr hblocked) (by simp),
      fun heq => absurd heq (by simp)⟩,
      fun hblocked _ hstate => absurd hblocked hstate, fun hdead hstate => absurd hdead hstate⟩
  -- the interrupt wakes the blocked tasks that wait for its vector
  case h_2 vector =>
    cases hstep
    refine ⟨fun vector' hblocked hirq => ?_, fun hblocked hnone hstate => ?_,
      fun hdead hstate => ?_⟩
    · by_cases hv : vector = vector'
      · subst hv
        have hready : ((Sched.wake_irq_waiters s.sched vector).tasks i).state = .Ready := by
          unfold Sched.wake_irq_waiters
          dsimp only
          rw [if_pos ⟨hblocked, hirq⟩]
        exact ⟨iff_of_true (by rw [hready]; simp) rfl, fun _ => hready⟩
      · have hne : Label.wake_irq_waiters vector ≠ .wake_irq_waiters vector' := by
          rw [Ne, Label.wake_irq_waiters.injEq]
          exact hv
        refine ⟨iff_of_false (not_not.mpr ?_) hne, fun heq => absurd heq hne⟩
        unfold Sched.wake_irq_waiters
        dsimp only
        rw [if_neg]
        · exact hblocked
        · rintro ⟨-, hother⟩
          exact hv (Option.some.inj (hother.symm.trans hirq))
    · refine absurd ?_ hstate
      unfold Sched.wake_irq_waiters
      dsimp only
      rw [if_neg]
      · exact hblocked
      · rintro ⟨-, hother⟩
        rw [hnone] at hother
        simp at hother
    · exact absurd ((wake_irq_waiters_same s.sched vector i).dead.mpr hdead) hstate
  -- a spawn writes one slot: a dead task's or a new one
  case h_3 stack cr3 =>
    split_ifs at hstep
    cases hstep
    obtain ⟨slot, hdead, -, htasks, -⟩ := place_spec s.sched (Task.new stack cr3)
    have hsame : (s.sched.tasks i).state = .Blocked →
        (place s.sched (Task.new stack cr3)).tasks i = s.sched.tasks i := by
      intro hblocked
      rw [htasks, update_of_ne]
      rintro rfl
      exact absurd ((hdead hlt).symm.trans hblocked) (by simp)
    refine ⟨fun vector hblocked _ => ⟨iff_of_false ?_ (by simp), fun heq => absurd heq (by simp)⟩,
      fun hblocked _ hstate => ?_, fun _ _ => ⟨stack, cr3, rfl⟩⟩
    · show ¬ ((place s.sched (Task.new stack cr3)).tasks i).state ≠ .Blocked
      rw [hsame hblocked]
      exact not_not.mpr hblocked
    · have hstate : ((place s.sched (Task.new stack cr3)).tasks i).state ≠ .Blocked := hstate
      rw [hsame hblocked] at hstate
      exact absurd hblocked hstate
  case h_4 =>
    obtain ⟨p, hp, rfl⟩ := map_eq_some_iff.mp hstep
    exact h.wakes_finish (State.enters hp) rfl

end

/-! ## Runs -/

theorem inv_start (cr3 : UInt64) : Inv (State.start cr3).sched := by
  have hlen : (State.start cr3).sched.len = 3 := rfl
  have hcurrent : (State.start cr3).sched.current = 0 := rfl
  refine ⟨by omega, by omega, fun i _ hrun => ?_, .inl rfl⟩
  · by_contra hother
    have hne : i ≠ 0 := hother
    have hrun : (update (fun i => Task.new i cr3) 0 _ i).state = .Running := hrun
    rw [update_of_ne hne] at hrun
    exact absurd hrun (by simp [Task.new])

/-- **The states of tasks.** In every run of the calls: a `next` that returns a switch makes the
first task that is ready behind the current one the only one that runs, and the task that leaves is
ready if it was running and blocked or dead if it was that, unless it called `sleep_ms` and its time
has wrapped around. A task that waits for an interrupt is woken by that interrupt, with all that
wait for it, and by nothing else, a sleeper when its time has come, and a dead task never. -/
theorem switches_of_steps {cr3 : UInt64} {l : List Label} {s : State}
    (h : Steps Next (State.start cr3) l s) :
    (∀ a p, s.entered a = some p → NoWrap s a → ∀ sw t, p.next s.ticks = (some sw, t) →
      Switches p s.ticks t)
    ∧ ∀ a t, Next s a t → ∀ i < s.sched.len, Wakes s a t i := by
  have hinv : Inv s.sched := h.keeps (P := fun s => Inv s.sched)
    (inv_start _) fun _ _ _ hv hstep => hv.step hstep
  refine ⟨fun a p hp hwrap sw t hnext => ?_, fun a t hstep i hi => hinv.wakes hi hstep⟩
  have henters := State.enters hp
  have hentered := henters.entered hinv
  rcases next_cases hentered.len hentered.current s.ticks with hnone | ⟨sw', t', n, hsome, hfound⟩
  · rw [hnone] at hnext
    exact absurd (Prod.mk.inj hnext).1 (by simp)
  · obtain ⟨-, rfl⟩ := Prod.mk.inj (hsome.symm.trans hnext)
    exact hentered.switches hfound (henters.old hinv hwrap)

/-- The first tick after boot. -/
theorem switches_of_steps_first_tick : ∃ s t sw,
    Steps Next (State.start 0) [.advance, .wake_irq_waiters TIMER_VECTOR] s
    ∧ s.sched.next s.ticks = (some sw, t) ∧ t.current = 1 ∧ Switches s.sched s.ticks t := by
  obtain ⟨s, hrun, sw, t, hnext, hcurrent⟩ : ∃ s,
    Steps Next (State.start 0) [.advance, .wake_irq_waiters TIMER_VECTOR] s
      ∧ ∃ sw t, s.sched.next s.ticks = (some sw, t) ∧ t.current = 1 :=
    ⟨_, .next rfl (.next rfl (.done _)), _, _, rfl, rfl⟩
  exact ⟨s, t, sw, hrun, hnext, hcurrent,
    (switches_of_steps hrun).1 .next s.sched rfl trivial sw t hnext⟩

theorem steps_advance (s : Scheduler) (n : ℕ) :
    Steps Next ⟨s, 0⟩ (List.replicate n .advance) ⟨s, UInt64.ofNat n⟩ := by
  induction n with
  | zero => exact .done _
  | succ n ih =>
    rw [List.replicate_succ']
    refine ih.snoc ?_
    rw [ofNat_add]
    rfl

/-- After `2^64 - 1` ticks task 0 goes to sleep for 10 ms. Its time is 0, it is woken at once and
leaves as a task that is ready. -/
theorem sleeper_leaves_ready : ∃ l s p sw t, Steps Next (State.start 0) l s
    ∧ s.entered (.sleep_ms 10) = some p
    ∧ p.next s.ticks = (some sw, t) ∧ ¬ Switches p s.ticks t := by
  obtain ⟨p, hp, sw, t, hnext, hbefore, hafter⟩ : ∃ p,
      State.entered ⟨(State.start 0).sched, 0xFFFFFFFFFFFFFFFF⟩ (.sleep_ms 10) = some p ∧ ∃ sw t,
        p.next 0xFFFFFFFFFFFFFFFF = (some sw, t) ∧ (p.tasks p.current).state = .Blocked
            ∧ (t.tasks p.current).state = .Ready :=
    ⟨_, rfl, _, _, rfl, rfl, rfl⟩
  refine ⟨_, _, p, sw, t, steps_advance _ 0xFFFFFFFFFFFFFFFF, hp, hnext, fun hswitches => ?_⟩
  have hold := hswitches.old
  unfold Leaves at hold
  rw [hbefore, hafter] at hold
  simp at hold

end HepOS.Sched.Atomic
