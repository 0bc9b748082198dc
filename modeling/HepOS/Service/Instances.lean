/-
How many processes of a service there are, and whether a stopped one stays stopped.

`start_service` looks for a running process before it claims `STARTING`, and a launch that is
queued does not show in the process table. So a second launch can be made while the first one
is on its way, by `start_service` after the first launch of `task_blink`, after a start that
gave up, or by a call that looked before the other one claimed the flag. When no launch is
begun while another one is on its way, there is never more than one process.

A stopped `gopd` does not stay stopped: `stop_service` clears the pointer `spawn_gopd` takes
for the sign that `gopd` was launched, and `task_blink` calls `spawn_gopd` in every round.
-/
import HepOS.Service.Control

set_option autoImplicit false

namespace HepOS.Service

open Trace Function

variable {p : Place}

variable {cfg : Config} {s v : State} {t : Task}

/-! ## At most one process -/

/-- No two processes of the service run or wait to run. -/
def Single (s : State) : Prop := s.pending + s.running ≤ 1

instance (s : State) : Decidable (Single s) := inferInstanceAs (Decidable (_ ≤ _))

/-- The task is on its way to a launch, or waits for the process. -/
def Place.launches : Place → Prop
  | .start_running | .start_claim | .launch _ | .exec _ | .wait _ | .confirm _ | .take_over _ =>
    True
  | _ => False

instance : DecidablePred Place.launches
  | .start_running | .start_claim | .launch _ | .exec _ | .wait _ | .confirm _ | .take_over _ =>
    isTrue trivial
  | .idle | .release _ | .stop_mailbox | .stop_store | .stop_wait | .stop_finish =>
    isFalse not_false

/-- It has not launched yet. -/
def Place.starts : Place → Prop
  | .start_running | .start_claim | .launch _ | .exec _ => True
  | _ => False

/-- And has looked whether the process is running. -/
def Place.checked : Place → Prop
  | .start_claim | .launch _ | .exec _ => True
  | _ => False

/-- One task at a time is on its way to a launch, and nothing runs or waits to run when it gets
there. -/
structure Inv (pending running : ℕ) (place : Task → Place) : Prop where
  single : pending + running ≤ 1
  one : ∀ t t', (place t).launches → (place t').launches → t = t'
  starts : ∀ t, (place t).starts → pending = 0
  checked : ∀ t, (place t).checked → running = 0

theorem Place.checked.starts (h : p.checked) : p.starts := by
  cases p
  all_goals first | exact trivial | exact h.elim

theorem Place.starts.launches (h : p.starts) : p.launches := by
  cases p
  all_goals first | exact trivial | exact h.elim

theorem not_launches_finished (guarded ok : Bool) : ¬ (finished guarded ok).launches := by
  unfold finished
  split
  · exact id
  · exact id

section

variable {pending running : ℕ} {place : Task → Place}

theorem only_one {p : Place} (hothers : ∀ u, u ≠ t → ¬ (place u).launches) :
    ∀ u u', (update place t p u).launches → (update place t p u').launches → u = u' := by
  have hold : ∀ u, (update place t p u).launches → u = t := by
    intro u hu
    by_contra htu
    rw [update_of_ne htu] at hu
    exact hothers u htu hu
  exact fun u u' hu hu' => (hold u hu).trans (hold u' hu').symm

section

variable (h : Inv pending running place)

include h

/-- A task that moves on without launching. -/
theorem Inv.move {p q : Place} (hq : place t = q) (hl : p.launches → q.launches)
    (hs : p.starts → q.starts) (hc : p.checked → q.checked ∨ running = 0) :
    Inv pending running (update place t p) where
  single := h.single
  one := by
    have hold : ∀ u, (update place t p u).launches → (place u).launches :=
      (forall_update_iff place fun u x => x.launches → (place u).launches).mpr
        ⟨hq ▸ hl, fun _ _ => id⟩
    exact fun u u' hu hu' => h.one u u' (hold u hu) (hold u' hu')
  starts := by
    refine (forall_update_iff place fun _ x => x.starts → pending = 0).mpr
      ⟨fun hu => ?_, fun u _ => h.starts u⟩
    exact h.starts t (hq ▸ hs hu)
  checked := by
    refine (forall_update_iff place fun _ x => x.checked → running = 0).mpr
      ⟨fun hu => ?_, fun u _ => h.checked u⟩
    exact (hc hu).elim (fun hq' => h.checked t (hq ▸ hq')) id

/-- A task that is done, or goes on to stop the service. -/
theorem Inv.leave (hp : ¬ p.launches) :
    Inv pending running (update place t p) :=
  h.move rfl (fun hl => absurd hl hp) (fun hs => absurd hs.launches hp) fun hc =>
    absurd hc.starts.launches hp

theorem Inv.begin {p : Place} (hnone : ∀ u, ¬ (place u).launches)
    (hpending : pending = 0) (hrunning : p.checked → running = 0) :
    Inv pending running (update place t p) where
  single := h.single
  one := only_one fun u _ => hnone u
  starts _ _ := hpending
  checked := (forall_update_iff place fun _ x => x.checked → running = 0).mpr
    ⟨hrunning, fun u _ hu => absurd hu.starts.launches (hnone u)⟩

omit h in
/-- A launch, when nothing runs or waits to run and no other task is on its way to one. -/
theorem inv_queue {p : Place} (hpending : pending = 0)
    (hrunning : running = 0) (hp : ¬ p.starts) (hothers : ∀ u, u ≠ t → ¬ (place u).launches) :
    Inv (pending + 1) running (update place t p) where
  single := by omega
  one := only_one hothers
  starts := (forall_update_iff place fun _ x => x.starts → pending + 1 = 0).mpr
    ⟨fun hu => absurd hu hp, fun u htu hu => absurd hu.launches (hothers u htu)⟩
  checked _ _ := hrunning

end

theorem Inv.register (h : Inv (pending + 1) running place) : Inv pending (running + 1) place where
  single := by have := h.single; omega
  one := h.one
  starts u hu := absurd (h.starts u hu) (Nat.succ_ne_zero _)
  checked u hu := absurd (h.starts u hu.starts) (Nat.succ_ne_zero _)

theorem Inv.exit (h : Inv pending (running + 1) place) : Inv pending running place where
  single := by have := h.single; omega
  one := h.one
  starts := h.starts
  checked u hu := absurd (h.checked u hu) (Nat.succ_ne_zero _)

end

/-- `spawn_pending_driver` or `spawn_gopd` has something to do. -/
def State.spawns (cfg : Config) (s : State) : Prop :=
  match cfg.kind with
  | .gopd => s.mailbox = false
  | _ => s.first = true

instance (cfg : Config) (s : State) : Decidable (s.spawns cfg) := by
  unfold State.spawns
  split
  all_goals exact inferInstanceAs (Decidable (_ = _))

/-- A step that begins a launch does so when none is on its way: no task is in such a call and no
launch waits to run; and the first launch is made when no process is running. -/
def Apart (cfg : Config) (s : State) : Label → Prop
  | .call _ .start => s.pending = 0 ∧ ∀ u, ¬ (s.place u).launches
  | .call _ .spawn => s.spawns cfg → s.pending = 0 ∧ s.running = 0 ∧ ∀ u, ¬ (s.place u).launches
  | _ => True

instance (cfg : Config) (s : State) (a : Label) : Decidable (Apart cfg s a) := by
  unfold Apart
  split
  all_goals infer_instance

def NextApart (cfg : Config) (s : State) (a : Label) (v : State) : Prop :=
  Next cfg s a v ∧ Apart cfg s a

theorem Inv.others {pending running : ℕ} {place : Task → Place} (h : Inv pending running place)
    (ht : (place t).launches) : ∀ u, u ≠ t → ¬ (place u).launches :=
  fun u hne hu => hne (h.one u t hu ht)

theorem Inv.launch {pending running : ℕ} {place : Task → Place} (h : Inv pending running place)
    (ht : (place t).checked) (hp : ¬ p.starts) : Inv (pending + 1) running (update place t p) :=
  inv_queue (h.starts t ht.starts) (h.checked t ht) hp (h.others ht.starts.launches)

/-- Setting up the mailbox, and for `gopd` the launch. -/
theorem Inv.launch_step {guarded : Bool} (hp : s.place t = .launch guarded)
    (hi : Inv s.pending s.running s.place) : let v := launch_step cfg s t guarded
    Inv v.pending v.running v.place := by
  unfold Service.launch_step
  split
  · split
    · exact hi.launch (by rw [hp]; trivial) id
    · exact hi.leave (not_launches_finished _ _)
  · split
    · exact hi.move hp (fun _ => trivial) (fun _ => trivial) fun _ => .inl trivial
    · exact hi.leave (not_launches_finished _ _)

/-- **One access of a task.** -/
theorem Inv.go (h : go cfg s t = some v) (hi : Inv s.pending s.running s.place) :
    Inv v.pending v.running v.place := by
  -- by place: `launch` and `exec` queue an instance, the others leave the counts
  unfold Service.go at h
  split at h
  case h_1 => simp at h
  case h_2 hp =>
    cases h
    split
    · rename_i hrun
      exact hi.move hp (fun _ => trivial) (fun _ => trivial) fun _ => .inr hrun
    · exact hi.leave id
  case h_3 hp =>
    cases h
    split
    · exact hi.leave id
    · exact hi.move hp (fun _ => trivial) (fun _ => trivial) fun _ => .inl trivial
  case h_4 guarded hp =>
    cases h
    exact hi.launch_step hp
  case h_5 guarded hp =>
    cases h
    exact hi.launch (by rw [hp]; trivial) id
  case h_6 guarded hp =>
    split_ifs at h
    · cases h
      exact hi.move hp (fun _ => trivial) (fun hs => hs.elim) fun hc => hc.elim
    · cases h
      exact hi.leave (not_launches_finished _ _)
  case h_7 guarded hp =>
    cases h
    split
    · exact hi.leave (not_launches_finished _ _)
    · exact hi.move hp (fun _ => trivial) (fun hs => hs.elim) fun hc => hc.elim
  case h_8 guarded hp =>
    cases h
    exact hi.leave (not_launches_finished _ _)
  case h_9 ok hp | h_11 hp | h_13 hp =>
    cases h
    exact hi.leave id
  case h_10 hp =>
    cases h
    split
    · exact hi.leave id
    · exact hi.leave id
  case h_12 hp =>
    split_ifs at h
    all_goals
      cases h
      exact hi.leave id

theorem Inv.give_up (h : give_up cfg s t = some v) (hi : Inv s.pending s.running s.place) :
    Inv v.pending v.running v.place := by
  unfold Service.give_up at h
  split at h
  case h_1 guarded hp =>
    split_ifs at h
    · cases h
      exact hi.move hp (fun _ => trivial) (fun hs => hs.elim) fun hc => hc.elim
    · cases h
      exact hi.leave (not_launches_finished _ _)
  case h_2 hp =>
    split_ifs at h
    cases h
    exact hi.leave id
  case h_3 => simp at h

/-- The first launch, made when nothing is on its way. -/
theorem Inv.spawn_step (hi : Inv s.pending s.running s.place)
    (h : s.spawns cfg → s.pending = 0 ∧ s.running = 0 ∧ ∀ u, ¬ (s.place u).launches) :
    let v := spawn_step cfg s
    Inv v.pending v.running v.place := by
  unfold State.spawns at h
  unfold Service.spawn_step
  have hqueue : s.pending = 0 ∧ s.running = 0 ∧ (∀ u, ¬ (s.place u).launches) →
      Inv (s.pending + 1) s.running s.place := by
    rintro ⟨hpending, hrunning, hnone⟩
    have := inv_queue (t := .blink) (p := s.place .blink) hpending hrunning
      (fun hs => hnone _ hs.launches) (fun u _ => hnone u)
    rwa [update_eq_self] at this
  split
  all_goals rename_i hkind; rw [hkind] at h; dsimp only at h
  · split
    · rename_i hfirst
      exact hqueue (h hfirst)
    · exact hi
  · split
    · rename_i hfirst
      obtain ⟨hpending, hrunning, hnone⟩ := h hfirst
      exact hi.begin hnone hpending fun _ => hrunning
    · exact hi
  · split
    · rename_i hnull
      exact hqueue (h hnull.1)
    · exact hi

/-- **Step.** -/
theorem Inv.step {a : Label} (hi : Inv s.pending s.running s.place) (h : NextApart cfg s a v) :
    Inv v.pending v.running v.place := by
  obtain ⟨hnext, hapart⟩ := h
  unfold Next Service.step at hnext
  cases a with
  | call t c =>
    dsimp only at hnext
    unfold call_step at hnext
    split at hnext
    · cases hnext
      split
      · obtain ⟨hpending, hnone⟩ := hapart
        exact hi.begin hnone hpending fun hc => hc.elim
      · exact hi
    · cases hnext
      split
      · exact hi.leave id
      · exact hi
    · split at hnext
      · cases hnext
        exact hi.spawn_step hapart
      · simp at hnext
    · simp at hnext
  | go t => exact hi.go hnext
  | give_up t => exact hi.give_up hnext
  -- an instance that comes up was counted as pending
  | register =>
    dsimp only at hnext
    split at hnext
    · simp at hnext
    · rename_i hne
      cases hnext
      refine Inv.register ?_
      rw [Nat.sub_add_cancel (Nat.pos_of_ne_zero hne)]
      exact hi
  | exit =>
    dsimp only at hnext
    split at hnext
    · simp at hnext
    · rename_i hne
      cases hnext
      refine Inv.exit ?_
      rw [Nat.sub_add_cancel (Nat.pos_of_ne_zero hne)]
      exact hi
  | enable b =>
    cases hnext
    exact hi

theorem inv_start (cfg : Config) :
    Inv (State.start cfg).pending (State.start cfg).running (State.start cfg).place :=
  ⟨Nat.zero_le _, fun _ _ h => h.elim, fun _ h => h.elim, fun _ h => h.elim⟩

/-- **One process.** In every run in which no launch is begun while another one is on its way, no
two processes of the service run or wait to run. -/
theorem single_of_apart {l : List Label} (h : Steps (NextApart cfg) (State.start cfg) l s) :
    Single s :=
  (h.keeps (P := fun s => Inv s.pending s.running s.place) (inv_start cfg)
    fun _ _ _ hi ha => hi.step ha).single

/-- The witness: the first launch, a stop and a start, each when the one before is done. -/
theorem single_of_apart_restarted :
    ∃ l s, Steps (NextApart ⟨.plain, true⟩) (State.start ⟨.plain, true⟩) l s ∧ Single s
      ∧ s.log = [.launched false, .stop_ok, .launched true, .start_ok] := by
  have hrun : Steps (NextApart ⟨.plain, true⟩) (State.start ⟨.plain, true⟩)
      [.call .blink .spawn, .register, .call .blink .stop, .go .blink, .go .blink,
        .exit, .go .blink,
        .call .blink .start, .go .blink, .go .blink, .go .blink, .go .blink, .register, .go .blink,
        .go .blink] _ := .of_run_if _ rfl
  exact ⟨_, _, hrun, single_of_apart hrun, rfl⟩

/-- **Two processes.** `task_blink` makes the first launch, and before it is in the process table
`task_svc_worker` starts the service. -/
theorem start_service_launches_second :
    ∃ l s, Steps (Next ⟨.plain, true⟩) (State.start ⟨.plain, true⟩) l s ∧ ¬ Single s :=
  ⟨[.call .blink .spawn, .call .svc_worker .start, .go .svc_worker, .go .svc_worker,
    .go .svc_worker, .go .svc_worker], _, .of_run _ rfl, by decide⟩

/-! ## A stopped display service -/

/-- Once the service was stopped, it is launched again only by `start_service`, or after that has
succeeded. -/
def StaysStopped (log : List Event) : Prop :=
  ∀ before between after, log = before ++ .stop_ok :: (between ++ .launched false :: after) →
    .start_ok ∈ between

/-- The places that are reached for `gopd`; some only when there is something to launch. -/
def Place.displayed (built : Bool) : Place → Prop
  | .exec _ | .confirm _ | .take_over _ => False
  | .wait _ | .stop_mailbox | .stop_store | .stop_wait | .stop_finish => built = true
  | _ => True

structure Display (cfg : Config) (s : State) : Prop where
  places : ∀ t, (s.place t).displayed cfg.built
  barren : cfg.built = false → s.pending = 0 ∧ s.running = 0
  stopped : s.log.getLast? = some .stop_ok → s.mailbox = false ∧ cfg.built = true

theorem displayed_finished (built guarded ok : Bool) : (finished guarded ok).displayed built := by
  unfold finished
  split
  · exact trivial
  · exact trivial

/-- A task that moves on; nothing is launched and nothing is stopped. -/
theorem Display.at (h : Display cfg s) (hp : p.displayed cfg.built) : Display cfg (s.at t p) :=
  ⟨(Function.forall_update_iff s.place _).mpr ⟨hp, fun u _ => h.places u⟩, h.barren, h.stopped⟩

/-- A launch, when there is something to launch. -/
theorem Display.queue {guarded : Bool} (h : Display cfg s) (hbuilt : cfg.built = true) :
    Display cfg ({ s with mailbox := true, stop := false }.queue guarded) where
  places := h.places
  barren hno := absurd (hbuilt.symm.trans hno) (by decide)
  stopped hlast := by
    rw [State.queue, List.getLast?_concat] at hlast
    simp at hlast

theorem Display.go (hkind : cfg.kind = .gopd) (h : go cfg s t = some v) (hd : Display cfg s) :
    Display cfg v := by
  have hplace := hd.places t
  -- by place: with nothing to launch no task gets beyond the launch
  unfold Service.go at h
  split at h
  case h_1 => simp at h
  case h_2 hp =>
    cases h
    split
    · exact hd.at trivial
    · exact hd.at trivial
  case h_3 hp =>
    cases h
    split
    · exact hd.at trivial
    · exact Display.at ⟨hd.places, hd.barren, hd.stopped⟩ trivial
  case h_4 guarded hp =>
    cases h
    unfold Service.launch_step
    rw [hkind]
    dsimp only
    split
    · rename_i hnull
      exact (hd.queue hnull.2).at hnull.2
    · exact hd.at (displayed_finished _ _ _)
  case h_5 guarded hp | h_7 guarded hp | h_8 guarded hp => rw [hp] at hplace; exact hplace.elim
  case h_6 guarded hp =>
    rw [hkind] at h
    split_ifs at h with _ hno
    · exact absurd hno (by decide)
    · cases h
      exact hd.at (displayed_finished _ _ _)
  case h_9 ok hp =>
    cases h
    refine Display.at ⟨hd.places, hd.barren, ?_⟩ trivial
    split
    · intro hlast
      simp at hlast
    · exact hd.stopped
  case h_10 hp =>
    rw [hp] at hplace
    cases h
    split
    · exact hd.at hplace
    · exact hd.at trivial
  case h_11 hp =>
    rw [hp] at hplace
    cases h
    exact Display.at ⟨hd.places, hd.barren, hd.stopped⟩ hplace
  case h_12 hp =>
    rw [hp] at hplace
    rw [hkind] at h
    split_ifs at h with _ hno
    · exact absurd hno (by decide)
    · cases h
      exact hd.at hplace
  case h_13 hp =>
    rw [hp] at hplace
    cases h
    exact Display.at ⟨hd.places, hd.barren, fun _ => ⟨rfl, hplace⟩⟩ trivial

theorem Display.step {a : Label} (hkind : cfg.kind = .gopd) (h : Next cfg s a v)
    (hd : Display cfg s) : Display cfg v := by
  unfold Next Service.step at h
  cases a with
  | call t c =>
    dsimp only at h
    unfold call_step at h
    split at h
    · cases h
      split
      · exact hd.at trivial
      · exact hd
    · cases h
      split
      · rename_i hrun
        -- a process that runs was launched
        have hbuilt : cfg.built = true := by
          by_contra hno
          exact hrun (hd.barren (Bool.eq_false_of_not_eq_true hno)).2
        exact hd.at hbuilt
      · exact hd
    · split at h
      · cases h
        unfold spawn_step
        rw [hkind]
        dsimp only
        split
        · rename_i hnull
          exact hd.queue hnull.2
        · exact hd
      · simp at h
    · simp at h
  | go t => exact hd.go hkind h
  | give_up t =>
    dsimp only at h
    unfold give_up at h
    rw [hkind] at h
    split at h
    · split_ifs at h with _ hno
      · exact absurd hno (by decide)
      · cases h
        exact hd.at (displayed_finished _ _ _)
    · split_ifs at h
      cases h
      exact hd.at trivial
    · simp at h
  | register =>
    dsimp only at h
    split at h
    · simp at h
    · rename_i hne
      cases h
      exact ⟨hd.places, fun hno => absurd (hd.barren hno).1 hne, hd.stopped⟩
  | exit =>
    dsimp only at h
    split at h
    · simp at h
    · rename_i hne
      cases h
      exact ⟨hd.places, fun hno => absurd (hd.barren hno).2 hne, hd.stopped⟩
  | enable b =>
    cases h
    exact ⟨hd.places, hd.barren, hd.stopped⟩

/-- **Never.** Whenever `stop_service` was the last to do something and `task_blink` is at the head
of its loop, what it does next is to launch `gopd` again, whether it is enabled or not. -/
theorem stopped_display_relaunched {l : List Label} (hkind : cfg.kind = .gopd)
    (h : Steps (Next cfg) (State.start cfg) l s) (hstopped : s.log.getLast? = some .stop_ok)
    (hblink : s.place .blink = .idle) : ∃ v, Next cfg s (.call .blink .spawn) v
      ∧ v.pending = s.pending + 1
      ∧ ¬ StaysStopped v.log := by
  have hd : Display cfg s := h.keeps
    ⟨fun _ => trivial, fun _ => ⟨rfl, rfl⟩, fun hlast => absurd hlast (by simp [State.start])⟩
    fun _ _ _ hd hstep => hd.step hkind hstep
  have hnull : s.mailbox = false ∧ cfg.built = true := hd.stopped hstopped
  refine ⟨{ s with mailbox := true, stop := false }.queue false, ?_, rfl, ?_⟩
  · unfold Next Service.step call_step spawn_step
    dsimp only
    rw [hblink, hkind]
    rw [if_pos rfl, if_pos hnull]
  · obtain ⟨before, hbefore⟩ := List.getLast?_eq_some_iff.mp hstopped
    intro hstays
    have hmem := hstays before [] [] (by
      rw [State.queue, hbefore, List.append_assoc]
      rfl)
    simp at hmem

theorem steps_display_stopped : ∃ l s, Steps (Next ⟨.gopd, true⟩) (State.start ⟨.gopd, true⟩) l s
    ∧ s.log = [.launched false, .stop_ok] ∧ s.place .blink = .idle :=
  ⟨[.call .blink .spawn, .register, .call .blink .stop, .go .blink, .go .blink, .exit, .go .blink,
    .go .blink], _, .of_run _ rfl, rfl, rfl⟩

/-- The witness. -/
theorem stopped_display_relaunched_once : ∃ l s v,
    Steps (Next ⟨.gopd, true⟩) (State.start ⟨.gopd, true⟩) l s
      ∧ Next ⟨.gopd, true⟩ s (.call .blink .spawn) v ∧ v.pending = s.pending + 1
      ∧ ¬ StaysStopped v.log := by
  obtain ⟨l, s, hl, hlog, hblink⟩ := steps_display_stopped
  obtain ⟨v, hv⟩ := stopped_display_relaunched rfl hl (by rw [hlog]; rfl) hblink
  exact ⟨l, s, v, hl, hv⟩

/-- **A stopped `gopd` is launched again**, after it was disabled and stopped. -/
theorem spawn_gopd_relaunches :
    ∃ l s, Steps (Next ⟨.gopd, true⟩) (State.start ⟨.gopd, true⟩) l s ∧ s.enabled = false
      ∧ s.log = [.launched false, .stop_ok, .launched false] ∧ ¬ StaysStopped s.log := by
  refine ⟨[.call .blink .spawn, .register, .enable false, .call .blink .stop,
    .go .blink, .go .blink,
    .exit, .go .blink, .go .blink, .call .blink .spawn], _, .of_run _ rfl, rfl, rfl, ?_⟩
  intro hstays
  exact absurd (hstays [.launched false] [] [] rfl) List.not_mem_nil

end HepOS.Service
