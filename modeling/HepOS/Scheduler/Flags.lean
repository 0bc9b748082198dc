/-
The interrupt flag and the acknowledgement of the timer across a switch.

`context_switch` saves neither. A task that the timer has interrupted gets both on its way back
through `timer_stub`, and a new one from `task_trampoline`; a task that waits in `sleep_ms` or
`block_on_irq` returns to its caller with whatever the task that left has had. So `tick` must not
switch to such a task: nobody would acknowledge the interrupt, and the flag would stay clear. And a
task that leaves through `sleep_ms`, `block_on_irq` or `exit_current` must have the flag of the one
that comes.
-/
import HepOS.Scheduler.Stacks

set_option autoImplicit false

namespace HepOS.Sched

open Trace Function

/-! ## The property and the condition -/

/-- Every task went on with the interrupt flag it had, and with the timer interrupt acknowledged. -/
def Kept (m : Machine) : Prop := ∀ r ∈ m.resumes, r.ifl = r.before ∧ r.in_service = false

/-- What is on the stack of the task that leaves: it leaves in `tick`. -/
def from_timer : List Frame → Bool
  | .isr _ :: _ => true
  | _ => false

/-- The switch does not lead from `tick` to a task in `sleep_ms` or `block_on_irq`, nor to one that
was there with another interrupt flag. -/
def Machine.fits (m : Machine) : Bool :=
  match m.frames with
  | .stored sw :: rest =>
    match m.conts sw.new_rsp.stack with
    | .back ifl :: _ => !from_timer rest && m.ifl == ifl
    | _ => true
  | _ => true

def Matched (m : Machine) (a : Label) : Prop := Quiet m a ∧ (a = .go → m.fits = true)

instance (m : Machine) (a : Label) : Decidable (Matched m a) := instDecidableAnd

/-! ## The invariant -/

/-- With these flags, what is left of the frames restores the flag and acknowledges the
interrupt. -/
def Good (ifl in_service : Bool) : List Frame → Prop
  | [] => True
  | .code :: _ => in_service = false
  | .user :: _ => in_service = false
  | .halt :: _ => in_service = false
  | .fall _ :: l => Good ifl in_service l
  | .back v :: l => in_service = false ∧ ifl = v ∧ Good ifl in_service l
  | .boot :: l => Good true false l
  | .isr v :: l => Good v false l
  | .window _ :: _ => False
  | .stored _ :: _ => False

/-- The frames of a task that does not run. -/
def Parked : List Frame → Prop
  | .isr v :: l => Good v false l
  | .boot :: l => Good true false l
  | .back v :: l => Good v false l
  | .halt :: _ => True
  | _ => False

structure Flags (m : Machine) : Prop where
  good : m.in_window = false → Good m.ifl m.in_service m.frames
  leaving : ∀ sw rest, m.frames = .window sw :: rest ∨ m.frames = .stored sw :: rest →
    Parked rest ∧ (from_timer rest = false → m.in_service = false)
  parked : ∀ k, Parked (m.conts k)
  kept : Kept m

section

variable {m : Machine}

theorem Flags.of_good (hgood : Good m.ifl m.in_service m.frames) (hparked : ∀ k, Parked (m.conts k))
    (hkept : Kept m) : Flags m := by
  refine ⟨fun _ => hgood, fun sw rest hframes => ?_, hparked, hkept⟩
  rcases hframes with hframes | hframes
  · rw [hframes] at hgood
    exact absurd hgood id
  · rw [hframes] at hgood
    exact absurd hgood id

theorem Flags.of_window {sw : Switch} {rest : List Frame}
    (hframes : m.frames = .window sw :: rest ∨ m.frames = .stored sw :: rest) (hrest : Parked rest)
    (hsrv : from_timer rest = false → m.in_service = false) (hparked : ∀ k, Parked (m.conts k))
    (hkept : Kept m) : Flags m := by
  refine ⟨fun hno => ?_, fun sw' rest' hframes' => ?_, hparked, hkept⟩
  · unfold Machine.in_window at hno
    rcases hframes with hframes | hframes
    · rw [hframes] at hno
      simp at hno
    · rw [hframes] at hno
      simp at hno
  · have hsame : rest' = rest := by
      rcases hframes with hframes | hframes
      · rcases hframes' with hframes' | hframes'
        · exact (List.cons.inj (hframes'.symm.trans hframes)).2
        · exact (List.cons.inj (hframes'.symm.trans hframes)).2
      · rcases hframes' with hframes' | hframes'
        · exact (List.cons.inj (hframes'.symm.trans hframes)).2
        · exact (List.cons.inj (hframes'.symm.trans hframes)).2
    rw [hsame]
    exact ⟨hrest, hsrv⟩

theorem flags_start (cr3 : UInt64) : Flags (Machine.start cr3) :=
  .of_good rfl (fun _ => rfl) fun _ hr => absurd hr List.not_mem_nil

/-- `next`, with what the caller goes on with either way. -/
theorem flags_yield {s : Scheduler} {after otherwise : List Frame}
    (hparked : ∀ k, Parked (m.conts k)) (hkept : Kept m) (hafter : Parked after)
    (hsrv : from_timer after = false → m.in_service = false)
    (hother : Good m.ifl m.in_service otherwise) : Flags (m.yield s after otherwise) := by
  unfold Machine.yield
  generalize s.next m.ticks = r
  obtain ⟨sw, s'⟩ := r
  cases sw with
  | none => exact .of_good hother hparked hkept
  | some sw => exact .of_window (.inl rfl) hafter hsrv hparked hkept

/-- In a task's own code the timer has been acknowledged. -/
theorem Flags.code (h : Flags m) (hcode : m.in_code = true) :
    m.in_service = false ∧ Good m.ifl m.in_service m.frames := by
  have hgood := h.good
  unfold Machine.in_window at hgood
  unfold Machine.in_code at hcode
  generalize m.frames = frames at hcode hgood
  cases frames with
  | nil => simp at hcode
  | cons f l =>
    cases f with
    | code => exact ⟨hgood rfl, hgood rfl⟩
    | _ => simp at hcode

/-! ## One step -/

theorem Flags.spawn (h : Flags m) (hgood : Good m.ifl m.in_service m.frames) : Flags m.spawn := by
  have hparked : ∀ k, Parked (update m.conts m.next_stack [.boot, .code] k) := by
    intro k
    by_cases hk : k = m.next_stack
    · rw [hk, update_self]
      exact rfl
    · rw [update_of_ne hk]
      exact h.parked k
  unfold Machine.spawn
  dsimp only
  split
  all_goals exact .of_good hgood hparked h.kept

/-- The task that comes finds the flags as it wants them. -/
theorem Flags.load {active : ℕ} (h : Flags m) (hinv : Inv m active) {sw : Switch}
    {rest : List Frame} (hframes : m.frames = .stored sw :: rest) (hfits : m.fits = true) :
    Flags (m.load sw) := by
  have hphase := hinv.phase
  cases hphase with
  | settled hs =>
    generalize (m.sched.tasks m.sched.current).dead = dead at hs
    rw [hframes] at hs
    cases hs
  | window hframes' =>
    rw [hframes] at hframes'
    simp at hframes'
  | @stored sw' rest' hframes' hne hnew halive hrest hkstack hrsp hcont =>
    obtain ⟨hsw, rfl⟩ := List.cons.inj (hframes.symm.trans hframes')
    obtain rfl := Frame.stored.inj hsw
    obtain ⟨-, hload⟩ := hinv.load hne hnew halive hrest hkstack hrsp hcont
    obtain ⟨hlast, hsettled⟩ := hinv.suspended _ hinv.current hne.symm halive
    have hstack : sw.new_rsp.stack = (m.sched.tasks m.sched.current).stack := by rw [hnew, hlast]
    have hsrv := (h.leaving sw rest (.inr hframes)).2
    have hpark := h.parked (m.sched.tasks m.sched.current).stack
    unfold Machine.fits at hfits
    rw [hframes] at hfits
    dsimp only at hfits
    rw [hstack] at hfits
    refine .of_good ?_ h.parked h.kept
    rw [hload]
    generalize m.conts (m.sched.tasks m.sched.current).stack = l at hsettled hpark hfits
    cases hsettled with
    | code | user | fall irq => exact absurd hpark id
    | boot => exact hpark
    | isr v hs => exact hpark
    | back v =>
      -- the condition is about these
      rw [Bool.and_eq_true, Bool.not_eq_true', beq_iff_eq] at hfits
      have hno := hsrv hfits.1
      exact ⟨hno, hfits.2, hno⟩

theorem Flags.go {active : ℕ} (h : Flags m) (hinv : Inv m active) (hfits : m.fits = true)
    {m' : Machine} (hgo : m.go = some m') : Flags m' := by
  have hgood := h.good
  unfold Machine.go at hgo
  unfold Machine.in_window at hgood
  -- a task that goes on adds what it goes on with
  have hresume : ∀ {r : Resumed}, r.ifl = r.before ∧ r.in_service = false →
      ∀ r' ∈ r :: m.resumes, r'.ifl = r'.before ∧ r'.in_service = false := by
    intro r hr r' hr'
    rcases List.mem_cons.mp hr' with rfl | hr'
    · exact hr
    · exact h.kept r' hr'
  cases hframes : m.frames with
  | nil =>
    rw [hframes] at hgo
    simp at hgo
  | cons f rest =>
    rw [hframes] at hgo hgood
    cases f with
    | code | user | halt => simp at hgo
    | window sw =>
      cases hgo
      obtain ⟨hrest, hsrv⟩ := h.leaving sw rest (.inl hframes)
      have hstored : (m.store sw rest).frames = .stored sw :: rest := rfl
      refine .of_window (.inr hstored) hrest hsrv (fun k => ?_) h.kept
      show Parked (update m.conts m.flow rest k)
      by_cases hk : k = m.flow
      · rw [hk, update_self]
        exact hrest
      · rw [update_of_ne hk]
        exact h.parked k
    | stored sw =>
      cases hgo
      exact h.load hinv hframes hfits
    | fall irq =>
      cases hgo
      exact .of_good (hgood rfl) h.parked h.kept
    | back v =>
      cases hgo
      obtain ⟨hsrv, hifl, hrest⟩ := hgood rfl
      exact .of_good hrest h.parked (hresume ⟨hifl, hsrv⟩)
    | isr v | boot =>
      cases hgo
      exact .of_good (hgood rfl) h.parked (hresume ⟨rfl, rfl⟩)

/-- **One step** keeps the invariant. -/
theorem Flags.step {active : ℕ} (h : Flags m) (hinv : Inv m active) {a : Label} {m' : Machine}
    (hstep : Next m a m') (hmatched : Matched m a) : Flags m' := by
  unfold Next Machine.next at hstep
  -- the calls are made by the task's own code
  have hcall : ∀ {r : Machine}, (if m.in_code then some r else none) = some m' →
      (m.in_service = false → Good m.ifl m.in_service m.frames → Flags r) → Flags m' := by
    intro r hr hcont
    by_cases hcode : m.in_code = true
    · rw [if_pos hcode] at hr
      cases hr
      exact hcont (h.code hcode).1 (h.code hcode).2
    · rw [if_neg hcode] at hr
      simp at hr
  cases a with
  | code ifl =>
    dsimp only at hstep
    split_ifs at hstep with hcode
    cases hstep
    obtain ⟨hsrv, -⟩ := h.code hcode
    obtain ⟨hframes, -⟩ := hinv.of_in_code hcode
    refine .of_good ?_ h.parked h.kept
    rw [hframes]
    exact hsrv
  | write_cr3 cr3 | set_current_cr3 cr3 =>
    exact hcall hstep fun _ hgood => .of_good hgood h.parked h.kept
  | enter_ring3 => exact hcall hstep fun hsrv _ => .of_good hsrv h.parked h.kept
  | syscall =>
    dsimp only at hstep
    split at hstep
    · rename_i rest hframes
      cases hstep
      obtain ⟨rfl, -⟩ := hinv.syscall hframes
      have hgood := h.good (by unfold Machine.in_window; rw [hframes])
      rw [hframes] at hgood
      exact .of_good hgood h.parked h.kept
    · simp at hstep
  | spawn => exact hcall hstep fun _ hgood => h.spawn hgood
  | sleep_ms ms | block_on_irq vector =>
    refine hcall hstep fun hsrv hgood => flags_yield h.parked h.kept ?_ (fun _ => hsrv) hgood
    rwa [hsrv] at hgood
  | exit_current =>
    exact hcall hstep fun hsrv _ => flags_yield h.parked h.kept trivial (fun _ => hsrv) hsrv
  | timer =>
    dsimp only at hstep
    split_ifs at hstep with hon
    cases hstep
    have hgood := h.good (hmatched.1 rfl)
    have hsrv : m.in_service = false := by simpa using hon.2.1
    rw [hsrv] at hgood
    -- the stack the interrupt is taken on makes no difference
    have hsame : m.interrupted.ifl = m.ifl ∧ m.interrupted.frames = m.frames
      ∧ m.interrupted.conts = m.conts
        ∧ m.interrupted.resumes = m.resumes := by
      unfold Machine.interrupted
      split
      · exact ⟨rfl, rfl, rfl, rfl⟩
      · exact ⟨rfl, rfl, rfl, rfl⟩
    obtain ⟨hifl, hframes, hconts, hresumes⟩ := hsame
    rw [← hifl, ← hframes] at hgood
    refine flags_yield ?_ ?_ hgood (fun hno => absurd hno (by simp [from_timer])) hgood
    · show ∀ k, Parked (m.interrupted.conts k)
      rw [hconts]
      exact h.parked
    · show ∀ r ∈ m.interrupted.resumes, r.ifl = r.before ∧ r.in_service = false
      rw [hresumes]
      exact h.kept
  | go => exact h.go hinv (hmatched.2 rfl) hstep

end

/-- **The interrupt state survives a switch**, in a run in which every switch fits. -/
theorem kept_of_matched {cr3 : UInt64} {l : List Label} {m : Machine}
    (h : Steps (fun m a m' => Next m a m' ∧ Matched m a) (Machine.start cr3) l m) : Kept m := by
  have hinv : ∃ active, Inv m active ∧ Flags m := by
    refine h.keeps (P := fun m => ∃ active, Inv m active ∧ Flags m)
      ⟨0, inv_start cr3, flags_start cr3⟩ ?_
    rintro m a m' ⟨active, hinv, hflags⟩ ⟨hstep, hmatched⟩
    obtain ⟨active', hinv'⟩ := hinv.step hstep hmatched.1
    exact ⟨active', hinv', hflags.step hinv hstep hmatched⟩
  obtain ⟨_, -, hflags⟩ := hinv
  exact hflags.kept

/-- Task 2 sleeps, and `kmain` goes on. -/
def slept : List Label := two_started ++ [.sleep_ms 10, .go, .go, .go]

/-- Task 2 has slept. Task 1 goes to sleep when its time has come, and task 2 takes over from it. -/
def sleeper_to_sleeper : List Label := slept ++ [.timer, .go, .go, .go, .sleep_ms 10, .go, .go, .go]

theorem kept_of_matched_sleepers : ∃ m, Steps (fun m a m' => Next m a m' ∧ Matched m a)
      (Machine.start 0) sleeper_to_sleeper m
    ∧ m.flow = 2 ∧ m.resumes = List.replicate 5 ⟨true, true, false⟩ ∧ Kept m := by
  have hrun : (run (fun m a => if Matched m a then Machine.next m a else none)
      (Machine.start 0) sleeper_to_sleeper).map (fun m => (m.flow, m.resumes))
        = some (2, List.replicate 5 ⟨true, true, false⟩) := by decide +kernel
  obtain ⟨m, hm, hresumes⟩ := Option.map_eq_some_iff.mp hrun
  obtain ⟨hflow, hresumes⟩ := Prod.mk.inj hresumes
  have h := Steps.of_run_if _ hm
  exact ⟨m, h, hflow, hresumes, kept_of_matched h⟩

/-- Task 2 has slept, `kmain` and task 1 have had their turns, and the timer wakes task 2. -/
def woken : List Label := slept ++ [.timer, .go, .go, .go, .timer, .go, .go, .go]

/-- It goes on with interrupts off and the timer not acknowledged: no timer interrupt will come any
more. -/
theorem sleeper_wakes_masked : ∃ m, Steps Next (Machine.start 0) woken m
    ∧ ⟨false, true, true⟩ ∈ m.resumes ∧ m.ifl = false ∧ m.in_service = true ∧ ¬ Kept m := by
  have hrun : (run Machine.next (Machine.start 0) woken).map
      (fun m => (decide ((⟨false, true, true⟩ : Resumed) ∈ m.resumes), m.ifl, m.in_service))
        = some (true, false, true) := by decide +kernel
  obtain ⟨m, hm, hresumes⟩ := Option.map_eq_some_iff.mp hrun
  obtain ⟨hmem, hflags⟩ := Prod.mk.inj hresumes
  obtain ⟨hifl, hsrv⟩ := Prod.mk.inj hflags
  have hmem := of_decide_eq_true hmem
  refine ⟨m, .of_run _ hm, hmem, hifl, hsrv, fun hkept => ?_⟩
  exact absurd (hkept _ hmem).1 (by decide)

end HepOS.Sched
