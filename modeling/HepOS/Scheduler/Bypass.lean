/-
How often `next` can pass over a task that is ready.

The search starts behind the current task and goes round, so it ends at a task that is not behind
the one that waits: with every switch the way from the current task to it gets shorter, whatever the
other tasks do between the calls. The way from a task to itself is the whole round: a task that is
both ready and current (it was about to sleep, there was no other task, and a later call woke it)
waits one switch longer than the others.
-/
import HepOS.Scheduler.Tasks

set_option autoImplicit false

namespace HepOS.Sched

open Trace List Option

/-! ## The search -/

/-- How far task `i` is from place `x` when the search goes round `n` tasks. -/
def ahead (n i x : ℕ) : ℕ := if x ≤ i then i - x else i + n - x

theorem ahead_succ {n i x : ℕ} (hi : i < n) (hx : x < n) (hne : x ≠ i) :
    (x + 1) % n < n ∧ ahead n i x = ahead n i ((x + 1) % n) + 1 := by
  have hlt : (x + 1) % n < n := Nat.mod_lt _ (by omega)
  rcases Nat.lt_or_eq_of_le (show x + 1 ≤ n from hx) with hx' | hx'
  · rw [Nat.mod_eq_of_lt hx'] at hlt ⊢
    unfold ahead
    split_ifs <;> omega
  · rw [hx', Nat.mod_self]
    unfold ahead
    split_ifs <;> omega

/-- The search does not go past a task that is ready. -/
theorem ahead_pick (tasks : ℕ → Task) {n i : ℕ} (hi : i < n)
    (hready : (tasks i).state = .Ready) (k : ℕ) :
    ∀ x, x < n → ahead n i x < k → ahead n i (pick tasks n k x) ≤ ahead n i x := by
  induction k with
  | zero => exact fun x _ h => absurd h (Nat.not_lt_zero _)
  | succ k ih =>
    intro x hx hk
    unfold pick
    split_ifs with hpick
    · exact le_rfl
    · -- not `i`, so the next place is one nearer
      have hne : x ≠ i := by
        rintro rfl
        exact hpick hready
      obtain ⟨hlt, hnear⟩ := ahead_succ hi hx hne
      have := ih _ hlt (by omega)
      omega

/-! ## Calls -/

/-- How many switches task `i` can have to wait for: it is the last of them that makes it run. -/
def Scheduler.wait (s : Scheduler) (i : ℕ) : ℕ := if i = s.current then s.len
    else ahead s.len i s.current

/-- A call of `next`, or a change to other tasks, while task `i` is ready. The label is the task
`next` switches to, if it does. -/
inductive Turn (i : ℕ) : Scheduler → Option ℕ → Scheduler → Prop
  | call {s : Scheduler} (now : UInt64) (hready : (s.tasks i).state = .Ready) :
      Turn i s ((s.next now).1.map fun _ => (s.next now).2.current) (s.next now).2
  | others {s t : Scheduler} (hlen : t.len = s.len) (hcur : t.current = s.current)
      (hready : (s.tasks i).state = .Ready) (hstays : (t.tasks i).state = .Ready) : Turn i s none t

/-- What one of them does to the wait. -/
structure Nearer (i : ℕ) (s : Scheduler) (a : Option ℕ) (t : Scheduler) : Prop where
  len : t.len = s.len
  current : t.current < s.len
  wait : a = some i ∨ t.wait i + (if a.isSome then 1 else 0) ≤ s.wait i

theorem Scheduler.next_nearer {s : Scheduler} {i : ℕ} (now : UInt64) (hi : i < s.len)
    (hcur : s.current < s.len) (hready : (s.tasks i).state = .Ready) :
    Nearer i s ((s.next now).1.map fun _ => (s.next now).2.current) (s.next now).2 := by
  have hstay : ∀ tasks, Nearer i s none { s with tasks := tasks } :=
    fun tasks => ⟨rfl, hcur, .inr (le_rfl)⟩
  have hwoken : (wake now (s.tasks i)).state = .Ready := by simp [wake, hready]
  unfold Scheduler.next
  by_cases hfew : s.len < 2
  · rw [if_pos hfew]
    exact hstay _
  dsimp only
  have hstart : (s.current + 1) % s.len < s.len := Nat.mod_lt _ (by omega)
  have hlt := pick_lt (fun j => wake now (s.tasks j)) s.len s.len hstart
  have hnear := ahead_pick (fun j => wake now (s.tasks j)) hi hwoken s.len _ hstart
    (by unfold ahead; split_ifs <;> omega)
  generalize pick (fun j => wake now (s.tasks j)) s.len s.len ((s.current + 1) % s.len)
    = p at hlt hnear
  split_ifs with hpick hself
  · exact hstay _
  · exact hstay _
  -- a switch to `p`
  all_goals
    refine ⟨rfl, hlt, ?_⟩
    by_cases hp : p = i
    · exact .inl (by simp [hp])
    · right
      have hback : ahead s.len i ((s.current + 1) % s.len) + 1 ≤ s.wait i := by
        unfold Scheduler.wait
        split_ifs with hown
        · unfold ahead
          split_ifs <;> omega
        · exact (ahead_succ hi hcur (Ne.symm hown)).2.ge
      have hwait : ∀ tasks, Scheduler.wait ⟨s.len, tasks, p⟩ i = ahead s.len i p := by
        intro tasks
        simp [Scheduler.wait, Ne.symm hp]
      simp only [map_some, isSome_some, if_true, hwait]
      omega

theorem Turn.nearer {i : ℕ} {s t : Scheduler} {a : Option ℕ} (h : Turn i s a t) (hi : i < s.len)
    (hcur : s.current < s.len) : Nearer i s a t := by
  cases h with
  | call now hready => exact s.next_nearer now hi hcur hready
  | others hlen hcur' _ _ =>
    refine ⟨hlen, hcur' ▸ hcur, .inr ?_⟩
    simp [Scheduler.wait, hlen, hcur']

/-- By induction on the run: the switches to other tasks are fewer than the wait at its start. -/
theorem Turn.switches_lt {i : ℕ} {s t : Scheduler} {l : List (Option ℕ)} (h : Steps (Turn i) s l t)
    (hi : i < s.len) (hcur : s.current < s.len) : some i ∈ l
      ∨ l.reduceOption.length < s.wait i := by
  induction h with
  | done s =>
    right
    unfold Scheduler.wait ahead
    simp only [reduceOption_nil, length_nil]
    split_ifs <;> omega
  | @next s t u a l ha _ ih =>
    obtain ⟨hlen, hcur', hwait⟩ := ha.nearer hi hcur
    rcases hwait with rfl | hwait
    · exact .inl mem_cons_self
    rcases ih (hlen ▸ hi) (hlen ▸ hcur') with hmem | hless
    · exact .inl (mem_cons_of_mem _ hmem)
    · right
      cases a with
      | none =>
        rw [reduceOption_cons_of_none]
        omega
      | some j =>
        rw [reduceOption_cons_of_some, length_cons]
        simp only [isSome_some, if_true] at hwait
        omega

/-- **A task that stays ready runs after at most `n - 1` switches, and after `n` when it was the
current one.** -/
theorem selected_of_switches {i : ℕ} {s t : Scheduler} {l : List (Option ℕ)}
    (h : Steps (Turn i) s l t) (hi : i < s.len) (hcur : s.current < s.len)
    (hmany : (if i = s.current then s.len else s.len - 1) ≤ l.reduceOption.length) :
    some i ∈ l := by
  rcases Turn.switches_lt h hi hcur with hmem | hless
  · exact hmem
  · have hbound : s.wait i ≤ if i = s.current then s.len else s.len - 1 := by
      unfold Scheduler.wait ahead
      split_ifs <;> omega
    omega

/-- Two tasks that are ready, of which the first is the current one. -/
def both_ready : Scheduler := ⟨2, fun i => Task.new i 0, 0⟩

theorem selected_of_switches_second : ∃ l t, Steps (Turn 1) both_ready l t ∧ some 1 ∈ l :=
  have hrun := Steps.one (Turn.call 0 rfl)
  ⟨_, _, hrun, selected_of_switches hrun (by decide) (by decide) (by decide)⟩

/-- The call switches to the second task: `n - 1` switches, and not to the first. -/
theorem current_ready_passed : ∃ t, Steps (Turn 0) both_ready [some 1] t
    ∧ both_ready.len - 1 ≤ [some 1].reduceOption.length
    ∧ some 0 ∉ [some 1] := ⟨_, Steps.one (Turn.call 0 rfl), by decide, by decide⟩

end HepOS.Sched
