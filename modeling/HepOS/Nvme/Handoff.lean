/-
The position in the I/O queue of the NVMe controller, and who has it.

The kernel (`ctrl.io`) and `nvmed` each keep a position of their own: the tail of the
submission queue, the head of the completion queue and its phase. The doorbells cannot be read
back, so a position that is behind cannot be put right. `handoff_to_nvmed` copies the kernel's
position into the mailbox and lets the lock go; only when `nvmed` is seen running does the
kernel stop using its own. `handoff_from_nvmed` copies the position back.

What goes wrong is in between. A transfer by another task after the position was copied leaves
`nvmed` with an old one. So does setting up the mailbox again while the kernel's own position
is old, after a stop that gave up; and taking the position back while another `nvmed` is
already running leaves the kernel with an old one. When none of this happens, whoever rings the
doorbell has the position of the controller.
-/
import HepOS.Service.Control

set_option autoImplicit false

namespace HepOS.Handoff

open Trace Function List Option
open Service (Task Place)

/-! ## Positions -/

def QD : ℕ := 64

structure Pos where
  sq_tail : ℕ
  cq_head : ℕ
  phase : Bool
deriving DecidableEq, Repr

/-- `q_submit`: the tail after one more command. -/
def Pos.submit (p : Pos) : Pos := { p with sq_tail := (p.sq_tail + 1) % QD }

/-- The end of `q_wait`: the completion was taken. -/
def Pos.reap (p : Pos) : Pos where
  sq_tail := p.sq_tail
  cq_head := (p.cq_head + 1) % QD
  phase := if (p.cq_head + 1) % QD = 0 then !p.phase else p.phase

/-- The controller takes a write to the doorbell of the submission queue. -/
def Pos.ring_sq (dev : Pos) (v : ℕ) : Pos := { dev with sq_tail := v }

/-- And one to that of the completion queue. -/
def Pos.ring_cq (dev : Pos) (v : ℕ) : Pos :=
  { dev with cq_head := v, phase := if v = 0 then !dev.phase else dev.phase }

theorem Pos.ring_sq_submit (p : Pos) : p.ring_sq p.submit.sq_tail = p.submit := rfl

theorem Pos.ring_cq_reap (p : Pos) : p.ring_cq p.reap.cq_head = p.reap := rfl

/-! ## The parties -/

/-- Where `nvmed` is. -/
inductive ProcPlace
  /-- before it has read its position from the mailbox -/
  | start
  | top
  | look
  | ring
  | reap
  | report
  | clear
  | save_tail
  | save_head
  | save_phase
deriving DecidableEq, Repr

structure Proc where
  place : ProcPlace
  q : Pos
deriving DecidableEq, Repr

/-- Where a transfer of the kernel is. It holds the lock of the controller. -/
inductive Transfer
  | ring
  | reap
  | request
  | answer
  /-- an assertion failed -/
  | panicked
deriving DecidableEq, Repr

/-- `ctl` is who starts and stops `nvmed`; its `mailbox` is `ctrl.mailbox.is_some()` and its
`stop` the field of the mailbox. `rings` records every write to the submission doorbell, with
the position of the writer and that of the controller; nothing reads it. -/
structure Queues where
  ctl : Service.State
  transfer : Option (Task × Transfer)
  /-- `ctrl.io` -/
  io : Pos
  /-- the controller -/
  dev : Pos
  /-- in the mailbox -/
  saved : Pos
  op : Bool
  answered : Bool
  procs : List Proc
  rings : List (Pos × Pos)

def nvmed : Service.Config := ⟨.nvme, true⟩

/-- After the queues were made. -/
def Queues.start : Queues where
  ctl := Service.State.start nvmed
  transfer := none
  io := ⟨0, 0, true⟩
  dev := ⟨0, 0, true⟩
  saved := ⟨0, 0, false⟩
  op := false
  answered := false
  procs := []
  rings := []

/-! ## Starting and stopping -/

/-- The place is one where the lock is taken. -/
def locks : Place → Bool
  | .launch _ | .take_over _ | .stop_mailbox | .stop_finish => true
  | _ => false

section

variable (s : Queues)

/-- What else an access of a task does: the first half of `handoff_to_nvmed` zeroes the mailbox and
copies the position into it, `handoff_from_nvmed` copies it back. -/
def Queues.handoff (t : Task) : Queues :=
  match s.ctl.place t with
  | .launch _ => { s with saved := s.io, op := false, answered := false }
  | .stop_finish => if s.ctl.mailbox then { s with io := s.saved } else s
  | _ => s

def control_step : Service.Label → Option Queues
  | .go t =>
    if (locks (s.ctl.place t) ∧ s.transfer ≠ none) ∨ s.transfer.map Prod.fst = some t then none
    else (Service.go nvmed s.ctl t).map fun c => { s.handoff t with ctl := c }
  | .call t c =>
    if s.transfer.map Prod.fst = some t then none
    else (Service.call_step nvmed s.ctl t c).map fun c => { s with ctl := c }
  | .register =>
    (Service.step nvmed s.ctl .register).map fun c =>
      { s with ctl := c, procs := s.procs ++ [⟨.start, s.saved⟩] }
  -- a process leaves by a step of its own
  | .exit => none
  | a => (Service.step nvmed s.ctl a).map fun c => { s with ctl := c }

/-! ## Transfers of the kernel -/

/-- `read_blocks` and `write_blocks`. -/
def transfer_begin (t : Task) : Option Queues :=
  if s.transfer = none ∧ s.ctl.place t = .idle then
    some { s with transfer := some (t, if s.ctl.mailbox then .request else .ring) }
  else none

def transfer_step (ok : Bool) : Option Queues :=
  match s.transfer with
  | none => none
  | some (t, .ring) =>
    some { s with
      rings := s.rings ++ [(s.io, s.dev)]
      io := s.io.submit
      dev := s.dev.ring_sq s.io.submit.sq_tail
      transfer := some (t, .reap) }
  | some (t, .reap) =>
    if ok then some { s with
      io := s.io.reap
      dev := s.dev.ring_cq s.io.reap.cq_head
      transfer := none }
    else some { s with transfer := some (t, .panicked) }
  | some (t, .request) =>
    some { s with op := true, answered := false, transfer := some (t, .answer) }
  | some (t, .answer) =>
    if s.answered ∧ ok then some { s with transfer := none }
    else if ok then none
    else some { s with transfer := some (t, .panicked) }
  | some (_, .panicked) => none

/-! ## Steps of `nvmed` -/

/-- What a process does next, with what it has read; `ok` says how the hardware does. -/
def proc_step (i : ℕ) (ok : Bool) : Option Queues :=
  match s.procs[i]? with
  | none => none
  | some p =>
    let goes (place : ProcPlace) : List Proc := s.procs.set i { p with place := place }
    let leaves : Queues :=
      { s with
        ctl := { s.ctl with running := s.ctl.running - 1 }
        procs := s.procs.eraseIdx i }
    match p.place with
    | .start =>
      -- a process that cannot map the queues leaves
      if ok then some { s with procs := s.procs.set i ⟨.top, s.saved⟩ } else some leaves
    | .top => if s.ctl.stop then some leaves else some { s with procs := goes .look }
    | .look => some { s with procs := if s.op then goes .ring else goes .save_tail }
    | .ring =>
      some { s with
        rings := s.rings ++ [(p.q, s.dev)]
        dev := s.dev.ring_sq p.q.submit.sq_tail
        procs := s.procs.set i ⟨.reap, p.q.submit⟩ }
    | .reap =>
      if ok then some { s with
        dev := s.dev.ring_cq p.q.reap.cq_head
        procs := s.procs.set i ⟨.report, p.q.reap⟩ }
      else some { s with procs := goes .report }
    | .report => some { s with answered := true, procs := goes .clear }
    | .clear => some { s with op := false, procs := goes .save_tail }
    | .save_tail =>
      some { s with
        saved := { s.saved with sq_tail := p.q.sq_tail }, procs := goes .save_head }
    | .save_head =>
      some { s with
        saved := { s.saved with cq_head := p.q.cq_head }, procs := goes .save_phase }
    | .save_phase =>
      some { s with saved := { s.saved with phase := p.q.phase }, procs := goes .top }

/-! ## The system -/

inductive QueueLabel
  | control (a : Service.Label)
  | transfer (t : Task)
  | transfer_step (ok : Bool)
  | proc (i : ℕ) (ok : Bool)

def queue_step : QueueLabel → Option Queues
  | .control a => control_step s a
  | .transfer t => transfer_begin s t
  | .transfer_step ok => transfer_step s ok
  | .proc i ok => proc_step s i ok

/-- Whoever rang the submission doorbell had the position of the controller. -/
def Agree : Prop := ∀ p ∈ s.rings, p.1 = p.2

end

/-! ## What an access does to the control of the service -/

/-- A task is between the two halves of `handoff_to_nvmed`. -/
def handing : Place → Prop
  | .exec _ | .wait _ | .confirm _ | .take_over _ => True
  | _ => False

instance : DecidablePred handing := fun p => by
  cases p
  all_goals first | exact isTrue trivial | exact isFalse id

theorem not_handing_finished (guarded ok : Bool) : ¬ handing (Service.finished guarded ok) := by
  unfold Service.finished
  split
  · exact id
  · exact id

/-- The task goes to `p`, and no process is launched. -/
structure Goes (c c' : Service.State) (t : Task) (p : Place) : Prop where
  place : c'.place = update c.place t p
  pending : c'.pending = c.pending
  running : c'.running = c.running

/-- What an access of a task can be, as far as the queues are concerned. -/
inductive Access (c : Service.State) (t : Task) : Service.State → Prop
  | move (c' : Service.State) (p : Place) (hgoes : Goes c c' t p)
    (hmailbox : c'.mailbox = c.mailbox)
      (hp : handing p → handing (c.place t)) (hexec : ∀ g, p ≠ .exec g)
      (hlaunch : ∀ g, c.place t ≠ .launch g) (hfinish : c.place t ≠ .stop_finish) : Access c t c'
  | hand_to (c' : Service.State) (g : Bool) (hk : c.place t = .launch g)
      (hgoes : Goes c c' t (.exec g)) (hmailbox : c'.mailbox = c.mailbox) : Access c t c'
  | exec (c' : Service.State) (g : Bool) (hk : c.place t = .exec g)
      (hplace : c'.place = update c.place t (.wait g)) (hpending : c'.pending = c.pending + 1)
      (hrunning : c'.running = c.running) (hmailbox : c'.mailbox = c.mailbox) : Access c t c'
  | take_over (c' : Service.State) (g : Bool) (hk : c.place t = .take_over g)
      (hgoes : Goes c c' t (Service.finished g true)) (hmailbox : c'.mailbox = true) : Access c t c'
  | hand_back (c' : Service.State) (hk : c.place t = .stop_finish) (hgoes : Goes c c' t .idle)
      (hmailbox : c'.mailbox = false) : Access c t c'

variable {c c' : Service.State} {t : Task} {g : Bool} {s s' : Queues}

/-- A task that goes to a place outside of the handoff. -/
theorem Access.leave {p : Place} (hp : ¬ handing p) (hgoes : Goes c c' t p)
    (hmailbox : c'.mailbox = c.mailbox) (hlaunch : ∀ g, c.place t ≠ .launch g)
    (hfinish : c.place t ≠ .stop_finish) : Access c t c' :=
  .move c' p hgoes hmailbox (fun h => absurd h hp)
    (fun g hg => hp (by rw [hg]; trivial)) hlaunch hfinish

theorem go_access (h : Service.go nvmed c t = some c') : Access c t c' := by
  unfold Service.go at h
  split at h
  case h_1 => simp at h
  case h_2 hp | h_3 hp | h_10 hp =>
    cases h
    split
    all_goals exact .leave id ⟨rfl, rfl, rfl⟩ rfl (by simp [hp]) (by simp [hp])
  case h_4 g hp =>
    cases h
    exact .hand_to _ g hp ⟨rfl, rfl, rfl⟩ rfl
  case h_5 g hp =>
    cases h
    exact .exec _ g hp rfl rfl rfl rfl
  case h_6 g hp =>
    split_ifs at h with _ hno
    · cases h
      exact .move _ (.confirm g) ⟨rfl, rfl, rfl⟩ rfl (by rw [hp]; exact id) nofun (by simp [hp])
        (by simp [hp])
    · exact absurd rfl hno
  case h_7 g hp =>
    cases h
    split
    · exact .leave (not_handing_finished g false) ⟨rfl, rfl, rfl⟩ rfl (by simp [hp]) (by simp [hp])
    · exact .move _ (.take_over g) ⟨rfl, rfl, rfl⟩ rfl (by rw [hp]; exact id) nofun (by simp [hp])
        (by simp [hp])
  case h_8 g hp =>
    cases h
    exact .take_over _ g hp ⟨rfl, rfl, rfl⟩ rfl
  case h_9 ok hp | h_11 hp =>
    cases h
    exact .leave id ⟨rfl, rfl, rfl⟩ rfl (by simp [hp]) (by simp [hp])
  case h_12 hp =>
    split_ifs at h with _ hno
    · exact absurd hno (by decide)
    · cases h
      exact .leave id ⟨rfl, rfl, rfl⟩ rfl (by simp [hp]) (by simp [hp])
  case h_13 hp =>
    cases h
    exact .hand_back _ hp ⟨rfl, rfl, rfl⟩ rfl

/-- A call, or a wait that is given up, launches nothing and leaves the mailbox as it is. -/
theorem call_goes {k : Service.Call} (h : Service.call_step nvmed c t k = some c') :
    ∃ p, Goes c c' t p ∧ c'.mailbox = c.mailbox ∧ (handing p → handing (c.place t))
      ∧ ∀ g, p = .exec g → c.place t = .exec g := by
  have hstay : Goes c c t (c.place t) := ⟨(update_eq_self t c.place).symm, rfl, rfl⟩
  unfold Service.call_step at h
  split at h
  · cases h
    split
    · exact ⟨.start_running, ⟨rfl, rfl, rfl⟩, rfl, fun h => h.elim, nofun⟩
    · exact ⟨_, hstay, rfl, id, fun _ => id⟩
  · cases h
    split
    · exact ⟨.stop_mailbox, ⟨rfl, rfl, rfl⟩, rfl, fun h => h.elim, nofun⟩
    · exact ⟨_, hstay, rfl, id, fun _ => id⟩
  · split at h
    · rename_i hblink
      cases h
      unfold Service.spawn_step
      dsimp only [nvmed]
      split
      · exact ⟨.launch false, ⟨by rw [hblink]; rfl, rfl, rfl⟩, rfl, fun h => h.elim, nofun⟩
      · exact ⟨_, hstay, rfl, id, fun _ => id⟩
    · simp at h
  · simp at h

theorem give_up_goes (h : Service.give_up nvmed c t = some c') :
    ∃ p, Goes c c' t p ∧ c'.mailbox = c.mailbox ∧ (handing p → handing (c.place t))
      ∧ ∀ g, p = .exec g → c.place t = .exec g := by
  unfold Service.give_up at h
  split at h
  case h_1 g hp =>
    split_ifs at h with _ hno
    · cases h
      exact ⟨.confirm g, ⟨rfl, rfl, rfl⟩, rfl, by rw [hp]; exact id, nofun⟩
    · exact absurd rfl hno
  case h_2 hp =>
    split_ifs at h
    cases h
    exact ⟨.idle, ⟨rfl, rfl, rfl⟩, rfl, fun h => h.elim, nofun⟩
  case h_3 => simp at h

/-! ## The invariant -/

/-- No `nvmed` runs or is on its way. -/
def Unused (s : Queues) : Prop :=
  s.ctl.pending = 0 ∧ s.procs = [] ∧ ∀ t, ¬ handing (s.ctl.place t)

/-- What a process has, and what it has put into the mailbox. -/
def Tracks (saved dev : Pos) (mailbox : Bool) (p : Proc) : Prop :=
  match p.place with
  | .start => saved = dev
  | .top => p.q = dev ∧ saved = dev
  | .look => p.q = dev ∧ saved = dev
  | .save_tail => p.q = dev
  | .save_head => p.q = dev ∧ saved.sq_tail = dev.sq_tail
  | .save_phase => p.q = dev ∧ saved.sq_tail = dev.sq_tail ∧ saved.cq_head = dev.cq_head
  -- it works for the kernel
  | _ => p.q = dev ∧ mailbox = true

/-- The kernel has the position of the controller as long as it has the queue, the mailbox as long
as `nvmed` has not read it, and then `nvmed`. -/
structure Sync (s : Queues) : Prop where
  running : s.procs.length = s.ctl.running
  single : s.ctl.pending + s.procs.length ≤ 1
  one : ∀ t t', handing (s.ctl.place t) → handing (s.ctl.place t') → t = t'
  exec : ∀ t g, s.ctl.place t = .exec g → s.ctl.pending = 0 ∧ s.procs = []
  kernel : s.ctl.mailbox = false → s.io = s.dev
  saved : (s.ctl.mailbox = false → ¬ Unused s) → s.procs = [] → s.saved = s.dev
  tracks : ∀ p ∈ s.procs, Tracks s.saved s.dev s.ctl.mailbox p
  clear : s.ctl.mailbox = false → ¬ Unused s → s.op = false
  direct : ∀ t, s.transfer = some (t, .ring) ∨ s.transfer = some (t, .reap) →
    s.ctl.mailbox = false ∧ Unused s
  request : ∀ t, s.transfer = some (t, .request) → s.ctl.mailbox = true
  rings : Agree s

section

variable {s : Queues} {c' : Service.State} {t : Task} {p : Place}

/-- A task that moves on outside of the handoff, or inside it. -/
theorem Sync.goes (h : Sync s) (hgoes : Goes s.ctl c' t p) (hmailbox : c'.mailbox = s.ctl.mailbox)
    (hp : handing p → handing (s.ctl.place t))
    (hexec : ∀ g, p = .exec g → s.ctl.place t = .exec g) : Sync { s with ctl := c' } := by
  have hold : ∀ u, handing (c'.place u) → handing (s.ctl.place u) := by
    intro u hu
    rw [hgoes.place] at hu
    by_cases htu : u = t
    · rw [htu, update_self] at hu
      rw [htu]
      exact hp hu
    · rwa [update_of_ne htu] at hu
  have hunused : Unused s → Unused { s with ctl := c' } := fun hu =>
    ⟨hgoes.pending.trans hu.1, hu.2.1, fun u hh => hu.2.2 u (hold u hh)⟩
  constructor
  case running => exact h.running.trans hgoes.running.symm
  case single => dsimp only; rw [hgoes.pending]; exact h.single
  case one => exact fun u u' hu hu' => h.one u u' (hold u hu) (hold u' hu')
  case exec =>
    intro u g hu
    rw [hgoes.pending]
    rw [hgoes.place] at hu
    by_cases htu : u = t
    · rw [htu, update_self] at hu
      exact h.exec t g (hexec g hu)
    · rw [update_of_ne htu] at hu
      exact h.exec u g hu
  case kernel => dsimp only; rw [hmailbox]; exact h.kernel
  case saved =>
    rw [hmailbox]
    exact fun hno => h.saved fun hm hu => hno hm (hunused hu)
  case tracks => dsimp only; rw [hmailbox]; exact h.tracks
  case clear =>
    rw [hmailbox]
    exact fun hm hno => h.clear hm fun hu => hno (hunused hu)
  case direct =>
    intro u hu
    rw [hmailbox]
    exact ⟨(h.direct u hu).1, hunused (h.direct u hu).2⟩
  case request => dsimp only; rw [hmailbox]; exact h.request
  case rings => exact h.rings

/-- A task that is inside the handoff after a step was so before. -/
theorem not_unused_of_handing (hh : handing (s.ctl.place t)) : ¬ Unused s :=
  fun hu => hu.2.2 t hh

/-- **The first half of `handoff_to_nvmed`**, when the kernel has the queue. -/
theorem Sync.hand_to (h : Sync s) (hunused : Unused s) (hkernel : s.ctl.mailbox = false)
    (hfree : s.transfer = none) (hgoes : Goes s.ctl c' t (.exec g)) :
    Sync { s with ctl := c', saved := s.io, op := false, answered := false } := by
  have honly : ∀ u, handing (c'.place u) → u = t := by
    intro u hu
    by_contra htu
    rw [hgoes.place, update_of_ne htu] at hu
    exact hunused.2.2 u hu
  constructor
  case running => exact h.running.trans hgoes.running.symm
  case single => dsimp only; rw [hgoes.pending]; exact h.single
  case one => exact fun u u' hu hu' => (honly u hu).trans (honly u' hu').symm
  case exec => exact fun _ _ _ => ⟨hgoes.pending.trans hunused.1, hunused.2.1⟩
  case kernel => exact fun _ => h.kernel hkernel
  case saved => exact fun _ _ => h.kernel hkernel
  case tracks => dsimp only; rw [hunused.2.1]; exact by simp
  case clear => exact fun _ _ => rfl
  case direct | request => dsimp only; rw [hfree]; exact by simp
  case rings => exact h.rings

/-- **The launch.** -/
theorem Sync.exec_async (h : Sync s) (hk : s.ctl.place t = .exec g)
    (hplace : c'.place = update s.ctl.place t (.wait g))
    (hpending : c'.pending = s.ctl.pending + 1) (hrunning : c'.running = s.ctl.running)
    (hmailbox : c'.mailbox = s.ctl.mailbox) : Sync { s with ctl := c' } := by
  have hhand : handing (s.ctl.place t) := by rw [hk]; trivial
  obtain ⟨hnone, hprocs⟩ := h.exec t g hk
  have honly : ∀ u, handing (c'.place u) → u = t := by
    intro u hu
    by_contra htu
    rw [hplace, update_of_ne htu] at hu
    exact htu (h.one u t hu hhand)
  constructor
  case running => exact h.running.trans hrunning.symm
  case single => dsimp only; rw [hpending, hnone, hprocs]; exact le_refl _
  case one => exact fun u u' hu hu' => (honly u hu).trans (honly u' hu').symm
  case exec =>
    intro u g' hu
    have hut := honly u (by dsimp only at hu; rw [hu]; trivial)
    rw [hut, hplace, update_self] at hu
    simp at hu
  case kernel => dsimp only; rw [hmailbox]; exact h.kernel
  case saved => exact fun _ => h.saved fun _ => not_unused_of_handing hhand
  case tracks => dsimp only; rw [hmailbox]; exact h.tracks
  case clear =>
    dsimp only
    rw [hmailbox]
    exact fun hm _ => h.clear hm (not_unused_of_handing hhand)
  case direct => exact fun u hu => absurd (h.direct u hu).2 (not_unused_of_handing hhand)
  case request => dsimp only; rw [hmailbox]; exact h.request
  case rings => exact h.rings

/-- **The second half.** -/
theorem Sync.take_over (h : Sync s) (hk : s.ctl.place t = .take_over g)
    (hfree : s.transfer = none) (hgoes : Goes s.ctl c' t (Service.finished g true))
    (hmailbox : c'.mailbox = true) : Sync { s with ctl := c' } := by
  have hhand : handing (s.ctl.place t) := by rw [hk]; trivial
  have hold : ∀ u, handing (c'.place u) → handing (s.ctl.place u) ∧ c'.place u = s.ctl.place u := by
    intro u hu
    rw [hgoes.place] at hu ⊢
    by_cases htu : u = t
    · rw [htu, update_self] at hu
      exact absurd hu (not_handing_finished _ _)
    · rw [update_of_ne htu] at hu ⊢
      exact ⟨hu, rfl⟩
  constructor
  case running => exact h.running.trans hgoes.running.symm
  case single => dsimp only; rw [hgoes.pending]; exact h.single
  case one => exact fun u u' hu hu' => h.one u u' (hold u hu).1 (hold u' hu').1
  case exec =>
    intro u g' hu
    have hsame := (hold u (by dsimp only at hu; rw [hu]; trivial)).2
    rw [hgoes.pending]
    exact h.exec u g' (hsame ▸ hu)
  case kernel | clear => dsimp only; rw [hmailbox]; exact fun hm => Bool.noConfusion hm
  case saved => exact fun _ => h.saved fun _ => not_unused_of_handing hhand
  case tracks =>
    intro p hp
    have ht := h.tracks p hp
    unfold Tracks at ht ⊢
    rw [hmailbox]
    split at ht
    all_goals first | exact ht | exact ⟨ht.1, rfl⟩
  case direct | request => dsimp only; rw [hfree]; exact by simp
  case rings => exact h.rings

/-- **`handoff_from_nvmed`**, when no `nvmed` runs or is on its way. -/
theorem Sync.hand_back (h : Sync s) (hunused : Unused s) (hfree : s.transfer = none)
    (hgoes : Goes s.ctl c' t .idle) (hmailbox : c'.mailbox = false) :
    Sync { s with ctl := c', io := if s.ctl.mailbox then s.saved else s.io } := by
  have hnone : ∀ u, ¬ handing (c'.place u) := by
    intro u hu
    rw [hgoes.place] at hu
    by_cases htu : u = t
    · rw [htu, update_self] at hu
      exact hu
    · rw [update_of_ne htu] at hu
      exact hunused.2.2 u hu
  have hio : (if s.ctl.mailbox then s.saved else s.io) = s.dev := by
    split
    · rename_i hm
      exact h.saved (fun hno => absurd (hm.symm.trans hno) (by decide)) hunused.2.1
    · rename_i hm
      exact h.kernel (Bool.eq_false_of_not_eq_true hm)
  have hunused' : c'.pending = 0 ∧ s.procs = [] ∧ ∀ u, ¬ handing (c'.place u) :=
    ⟨hgoes.pending.trans hunused.1, hunused.2.1, hnone⟩
  constructor
  case running => exact h.running.trans hgoes.running.symm
  case single => dsimp only; rw [hgoes.pending]; exact h.single
  case one => exact fun u _ hu => absurd hu (hnone u)
  case exec => exact fun _ _ _ => ⟨hunused'.1, hunused.2.1⟩
  case kernel => exact fun _ => hio
  case saved => exact fun hno => absurd hunused' (hno hmailbox)
  case tracks => dsimp only; rw [hunused.2.1]; exact by simp
  case clear => exact fun _ hno => absurd hunused' hno
  case direct | request => dsimp only; rw [hfree]; exact by simp
  case rings => exact h.rings

theorem Sync.register (h : Sync s) (hpending : s.ctl.pending ≠ 0) :
    Sync { s with
      ctl := { s.ctl with pending := s.ctl.pending - 1, running := s.ctl.running + 1 }
      procs := s.procs ++ [⟨.start, s.saved⟩] } := by
  have hused : ¬ Unused s := fun hu => hpending hu.1
  have hprocs : s.procs = [] := by
    have := h.single
    exact length_eq_zero_iff.mp (by omega)
  constructor
  case running => dsimp only; rw [length_append, h.running]; rfl
  case single =>
    have := h.single
    dsimp only
    rw [hprocs, nil_append, length_singleton]
    omega
  case one => exact h.one
  case exec => exact fun u g hu => absurd (h.exec u g hu).1 hpending
  case kernel => exact h.kernel
  case saved => exact by simp
  case tracks =>
    intro p hp
    rw [hprocs] at hp
    obtain rfl := mem_singleton.mp hp
    exact h.saved (fun _ => hused) hprocs
  case clear => exact fun hm _ => h.clear hm hused
  case direct => exact fun u hu => absurd (h.direct u hu).2 hused
  case request => exact h.request
  case rings => exact h.rings

end

/-! ## Transfers -/

section

variable {s s' : Queues} {t : Task}

theorem Sync.transfers (h : Sync s) (x : Option (Task × Transfer))
    (hdirect : ∀ t, x = some (t, .ring) ∨ x = some (t, .reap) → s.ctl.mailbox = false ∧ Unused s)
    (hrequest : ∀ t, x = some (t, .request) → s.ctl.mailbox = true) :
    Sync { s with transfer := x } :=
  ⟨h.running, h.single, h.one, h.exec, h.kernel, h.saved, h.tracks, h.clear, hdirect, hrequest,
    h.rings⟩

/-- The kernel and the controller go on together, and no `nvmed` is there to be left behind. -/
theorem Sync.directly (h : Sync s) (hkernel : s.ctl.mailbox = false) (hunused : Unused s)
    {pos : Pos} {x : Option (Task × Transfer)} {rings : List (Pos × Pos)}
    (hx : ∀ t, x ≠ some (t, .request)) (hrings : ∀ r ∈ rings, r.1 = r.2) :
    Sync { s with rings := rings, io := pos, dev := pos, transfer := x } where
  running := h.running
  single := h.single
  one := h.one
  exec := h.exec
  kernel := fun _ => rfl
  saved := fun hno => absurd hunused (hno hkernel)
  tracks := by dsimp only; rw [hunused.2.1]; exact by simp
  clear := h.clear
  direct := fun _ _ => ⟨hkernel, hunused⟩
  request := fun u hu => absurd hu (hx u)
  rings := hrings

theorem Sync.transfer_begin (hstep : transfer_begin s t = some s')
    (hunused : s.ctl.mailbox = false → Unused s) (h : Sync s) : Sync s' := by
  unfold Handoff.transfer_begin at hstep
  split_ifs at hstep with _ hm
  · cases hstep
    exact h.transfers _ (by simp) fun _ _ => hm
  · cases hstep
    have hkernel := Bool.eq_false_of_not_eq_true hm
    exact h.transfers _ (fun _ _ => ⟨hkernel, hunused hkernel⟩) fun u hu => absurd hu (by simp)

/-- The rings so far, and one more by someone who has the position. -/
theorem Sync.agree_append (h : Sync s) {q : Pos} (hq : q = s.dev) :
    ∀ r ∈ s.rings ++ [(q, s.dev)], r.1 = r.2 := by
  intro r hr
  rcases mem_append.mp hr with hold | hnew
  · exact h.rings r hold
  · obtain rfl := mem_singleton.mp hnew
    exact hq

theorem Sync.transfer_step {ok : Bool} (hstep : transfer_step s ok = some s')
    (h : Sync s) : Sync s' := by
  unfold Handoff.transfer_step at hstep
  split at hstep
  case h_1 | h_6 => exact absurd hstep (by simp)
  case h_2 u hu =>
    obtain ⟨hkernel, hunused⟩ := h.direct u (.inl hu)
    have hio := h.kernel hkernel
    cases hstep
    rw [hio, Pos.ring_sq_submit]
    exact h.directly hkernel hunused (by simp) (h.agree_append rfl)
  case h_3 u hu =>
    obtain ⟨hkernel, hunused⟩ := h.direct u (.inr hu)
    have hio := h.kernel hkernel
    split at hstep
    · cases hstep
      rw [hio, Pos.ring_cq_reap]
      exact h.directly hkernel hunused (by simp) h.rings
    · cases hstep
      exact h.transfers _ (fun u hu => absurd hu (by simp)) fun u hu => absurd hu (by simp)
  case h_4 u hu =>
    have hm := h.request u hu
    have hs := h.transfers (some (u, .answer)) (fun u hu => absurd hu (by simp))
      fun u hu => absurd hu (by simp)
    cases hstep
    exact { hs with clear := fun hno => absurd (hm.symm.trans hno) (by decide) }
  case h_5 u hu =>
    split_ifs at hstep
    all_goals
      cases hstep
      exact h.transfers _ (fun u hu => absurd hu (by simp)) fun u hu => absurd hu (by simp)

end

/-! ## Processes -/

section

variable {s s' : Queues} {p : Proc} {i : ℕ}

theorem Sync.only (h : Sync s) (hp : s.procs[i]? = some p) : s.procs = [p] ∧ i = 0 := by
  have hlen := h.single
  obtain ⟨hi, -⟩ := List.getElem?_eq_some_iff.mp hp
  obtain rfl : i = 0 := by omega
  refine ⟨?_, rfl⟩
  obtain ⟨q, hq⟩ := length_eq_one_iff.mp (show s.procs.length = 1 by omega)
  rw [hq] at hp ⊢
  rw [Option.some.inj hp]

theorem not_unused_of_procs (hp : s.procs = [p]) : ¬ Unused s :=
  fun hu => absurd (hp.symm.trans hu.2.1) (by simp)

/-- The process goes on; what it has put into the mailbox and told the controller suits it. -/
theorem Sync.proc {p' : Proc} {saved dev : Pos} {op answered : Bool} {rings : List (Pos × Pos)}
    (h : Sync s) (hp : s.procs = [p]) (hkernel : s.ctl.mailbox = false → dev = s.dev)
    (htracks : Tracks saved dev s.ctl.mailbox p') (hop : s.op = false → op = false)
    (hrings : ∀ r ∈ rings, r.1 = r.2) :
    Sync { s with
      saved := saved, dev := dev, op := op, answered := answered, rings := rings, procs := [p'] } where
  running := by rw [← h.running, hp]; rfl
  single := by have := h.single; rw [hp] at this; exact this
  one := h.one
  exec := fun u g hu => absurd (hp.symm.trans (h.exec u g hu).2) (by simp)
  kernel := fun hm => (h.kernel hm).trans (hkernel hm).symm
  saved := by simp
  tracks := by
    intro q hq
    obtain rfl := mem_singleton.mp hq
    exact htracks
  clear := fun hm _ => hop (h.clear hm (not_unused_of_procs hp))
  direct := fun u hu => absurd (h.direct u hu).2 (not_unused_of_procs hp)
  request := h.request
  rings := hrings

/-- The process leaves, with its position in the mailbox. -/
theorem Sync.leaves (h : Sync s) (hp : s.procs = [p]) (hsaved : s.saved = s.dev) :
    Sync { s with ctl := { s.ctl with running := s.ctl.running - 1 }, procs := [] } where
  running := by
    have := h.running
    rw [hp] at this
    rw [← this]
    rfl
  single := by have := h.single; dsimp only; rw [length_nil]; omega
  one := h.one
  exec := fun u g hu => absurd (hp.symm.trans (h.exec u g hu).2) (by simp)
  kernel := h.kernel
  saved := fun _ _ => hsaved
  tracks := by simp
  clear := fun hm _ => h.clear hm (not_unused_of_procs hp)
  direct := fun u hu => absurd (h.direct u hu).2 (not_unused_of_procs hp)
  request := h.request
  rings := h.rings

theorem Sync.proc_step {ok : Bool} (hstep : proc_step s i ok = some s') (h : Sync s) : Sync s' := by
  unfold Handoff.proc_step at hstep
  split at hstep
  · simp at hstep
  · rename_i p hget
    obtain ⟨hp, rfl⟩ := h.only hget
    have ht := h.tracks p (by rw [hp]; exact mem_singleton_self p)
    rw [hp] at hstep
    dsimp only [set_cons_zero, eraseIdx_cons_zero] at hstep
    unfold Tracks at ht
    -- what it does next, at each of its places
    split at hstep
    case h_1 hplace =>
      rw [hplace] at ht
      split at hstep
      · cases hstep
        exact h.proc hp (fun _ => rfl) ⟨ht, ht⟩ id h.rings
      · cases hstep
        exact h.leaves hp ht
    case h_2 hplace =>
      rw [hplace] at ht
      split at hstep
      · cases hstep
        exact h.leaves hp ht.2
      · cases hstep
        exact h.proc hp (fun _ => rfl) ht id h.rings
    case h_3 hplace =>
      rw [hplace] at ht
      cases hstep
      split
      · rename_i hop
        -- the mailbox is clear until it is active
        have hm : s.ctl.mailbox = true := by
          by_contra hno
          have := h.clear (Bool.eq_false_of_not_eq_true hno) (not_unused_of_procs hp)
          exact absurd (this.symm.trans hop) (by decide)
        exact h.proc hp (fun _ => rfl) ⟨ht.1, hm⟩ id h.rings
      · exact h.proc hp (fun _ => rfl) ht.1 id h.rings
    case h_4 hplace =>
      rw [hplace] at ht
      obtain ⟨hq, hm⟩ := ht
      cases hstep
      refine h.proc hp (fun hno => absurd (hm.symm.trans hno) (by decide)) ⟨?_, hm⟩ id
        (h.agree_append hq)
      rw [hq, Pos.ring_sq_submit]
    case h_5 hplace =>
      rw [hplace] at ht
      obtain ⟨hq, hm⟩ := ht
      split at hstep
      · cases hstep
        refine h.proc hp (fun hno => absurd (hm.symm.trans hno) (by decide)) ⟨?_, hm⟩ id h.rings
        rw [hq, Pos.ring_cq_reap]
      · cases hstep
        exact h.proc hp (fun _ => rfl) ⟨hq, hm⟩ id h.rings
    case h_6 hplace =>
      rw [hplace] at ht
      cases hstep
      exact h.proc hp (fun _ => rfl) ht id h.rings
    case h_7 hplace =>
      rw [hplace] at ht
      cases hstep
      exact h.proc hp (fun _ => rfl) ht.1 (fun _ => rfl) h.rings
    case h_8 hplace =>
      rw [hplace] at ht
      cases hstep
      have htail : p.q.sq_tail = s.dev.sq_tail := congrArg Pos.sq_tail ht
      exact h.proc hp (fun _ => rfl) ⟨ht, htail⟩ id h.rings
    case h_9 hplace =>
      rw [hplace] at ht
      cases hstep
      have hhead : p.q.cq_head = s.dev.cq_head := congrArg Pos.cq_head ht.1
      exact h.proc hp (fun _ => rfl) ⟨ht.1, ht.2, hhead⟩ id h.rings
    case h_10 hplace =>
      rw [hplace] at ht
      obtain ⟨hq, htail, hhead⟩ := ht
      cases hstep
      refine h.proc hp (fun _ => rfl) ⟨hq, ?_⟩ id h.rings
      rw [hq, htail, hhead]

end

/-! ## Runs -/

/-- The steps that keep the uses of the queue apart: the kernel uses the queue itself, or hands it
over, only while no `nvmed` runs or is on its way, and it takes the queue back only then. -/
def Apart (s : Queues) : QueueLabel → Prop
  | .transfer _ => s.ctl.mailbox = false → Unused s
  | .control (.go t) =>
    match s.ctl.place t with
    | .launch _ => s.ctl.mailbox = false ∧ Unused s
    | .stop_finish => Unused s
    | _ => True
  | _ => True

instance (s : Queues) : Decidable (Unused s) := by unfold Unused; infer_instance

instance (s : Queues) (a : QueueLabel) : Decidable (Apart s a) := by
  unfold Apart
  split
  · infer_instance
  · split <;> infer_instance
  · infer_instance

def NextApart (s : Queues) (a : QueueLabel) (v : Queues) : Prop :=
  queue_step s a = some v ∧ Apart s a

theorem Sync.start : Sync Queues.start where
  running := rfl
  single := Nat.zero_le 1
  one := fun _ _ h => h.elim
  exec := fun _ _ h => absurd h (by simp [Queues.start, Service.State.start])
  kernel := fun _ => rfl
  saved := fun hno => absurd ⟨rfl, rfl, fun _ => id⟩ (hno rfl)
  tracks := fun p hp => absurd hp not_mem_nil
  clear := fun _ _ => rfl
  direct := fun t h => absurd h (by simp [Queues.start])
  request := fun t h => absurd h (by simp [Queues.start])
  rings := fun p hp => absurd hp not_mem_nil

theorem handoff_eq_self (hlaunch : ∀ g, s.ctl.place t ≠ .launch g)
    (hfinish : s.ctl.place t ≠ .stop_finish) : s.handoff t = s := by
  unfold Queues.handoff
  split
  · exact absurd ‹_› (hlaunch _)
  · exact absurd ‹_› hfinish
  · rfl

theorem Sync.go (hstep : control_step s (.go t) = some s')
    (hapart : Apart s (.control (.go t))) (h : Sync s) : Sync s' := by
  unfold control_step at hstep
  dsimp only at hstep
  split at hstep
  · simp at hstep
  · rename_i hlock
    -- `CONTROLLER` is locked at these places, so no transfer is on its way
    have hfree : locks (s.ctl.place t) → s.transfer = none := by
      intro hl
      by_contra hno
      exact hlock (.inl ⟨hl, hno⟩)
    obtain ⟨c', hc, rfl⟩ := map_eq_some_iff.mp hstep
    unfold Apart at hapart
    dsimp only at hapart
    cases go_access hc with
    | move p hgoes hmailbox hp hexec hlaunch hfinish =>
      rw [handoff_eq_self hlaunch hfinish]
      exact h.goes hgoes hmailbox hp fun g hg => absurd hg (hexec g)
    -- the queue changes hands at two places only, here and in `hand_back`
    | hand_to g hk hgoes hmailbox =>
      rw [hk] at hapart hfree
      have := h.hand_to hapart.2 hapart.1 (hfree rfl) hgoes
      unfold Queues.handoff
      rw [hk]
      exact this
    | exec g hk hplace hpending hrunning hmailbox =>
      rw [handoff_eq_self (by simp [hk]) (by simp [hk])]
      exact h.exec_async hk hplace hpending hrunning hmailbox
    | take_over g hk hgoes hmailbox =>
      rw [hk] at hfree
      rw [handoff_eq_self (by simp [hk]) (by simp [hk])]
      exact h.take_over hk (hfree rfl) hgoes hmailbox
    | hand_back hk hgoes hmailbox =>
      rw [hk] at hapart hfree
      have := h.hand_back hapart (hfree rfl) hgoes hmailbox
      unfold Queues.handoff
      rw [hk]
      dsimp only
      split
      · rename_i hm
        rw [if_pos hm] at this
        exact this
      · rename_i hm
        rw [if_neg hm] at this
        exact this

theorem Sync.control_step {a : Service.Label}
    (hstep : control_step s a = some s') (hapart : Apart s (.control a))
    (h : Sync s) : Sync s' := by
  cases a with
  | go t => exact h.go hstep hapart
  | call t k =>
    unfold Handoff.control_step at hstep
    dsimp only at hstep
    split at hstep
    · simp at hstep
    · obtain ⟨c', hc, rfl⟩ := map_eq_some_iff.mp hstep
      obtain ⟨p, hgoes, hmailbox, hp, hexec⟩ := call_goes hc
      exact h.goes hgoes hmailbox hp hexec
  | give_up t =>
    obtain ⟨c', hc, rfl⟩ := map_eq_some_iff.mp hstep
    obtain ⟨p, hgoes, hmailbox, hp, hexec⟩ := give_up_goes hc
    exact h.goes hgoes hmailbox hp hexec
  | register =>
    obtain ⟨c', hc, rfl⟩ := map_eq_some_iff.mp hstep
    unfold Service.step at hc
    dsimp only at hc
    split at hc
    · simp at hc
    · rename_i hpending
      cases hc
      exact h.register hpending
  | exit => exact absurd hstep (by simp [Handoff.control_step])
  | enable b =>
    cases hstep
    exact h.goes (t := .blink) ⟨(update_eq_self _ _).symm, rfl, rfl⟩ rfl id fun _ => id

theorem Sync.step {a : QueueLabel} (hstep : NextApart s a s') (h : Sync s) : Sync s' := by
  obtain ⟨hstep, hapart⟩ := hstep
  cases a with
  | control a => exact h.control_step hstep hapart
  | transfer t => exact h.transfer_begin hstep hapart
  | transfer_step ok => exact h.transfer_step hstep
  | proc i ok => exact h.proc_step hstep

/-- **Whoever rings the doorbell has the position of the controller**, in every run that keeps the
uses of the queue apart. -/
theorem agree_of_apart {l : List QueueLabel} {s : Queues}
    (h : Steps NextApart Queues.start l s) : Agree s :=
  (h.keeps Sync.start fun _ _ _ hs hstep => hs.step hstep).rings

/-- A transfer of the kernel, the first launch of `nvmed`, and a transfer through it. -/
def handed_over : List QueueLabel :=
  [.transfer .svc_worker, .transfer_step true, .transfer_step true,
    .control (.call .blink .spawn), .control (.go .blink), .control (.go .blink),
    .control .register, .control (.go .blink), .control (.go .blink), .control (.go .blink),
    .proc 0 true, .transfer .svc_worker, .transfer_step true,
    .proc 0 true, .proc 0 true, .proc 0 true, .proc 0 true, .proc 0 true, .transfer_step true]

theorem agree_of_apart_handed_over :
    ∃ s, Steps NextApart Queues.start handed_over s ∧ s.rings.length = 2 ∧ Agree s := by
  have h : Steps NextApart Queues.start handed_over _ := .of_run_if _ rfl
  exact ⟨_, h, rfl, agree_of_apart h⟩

/-- **A transfer between the two halves of `handoff_to_nvmed`.** `task_blink` has copied the
position into the mailbox and has not yet seen `nvmed` run when `task_svc_worker` reads a block: the
mailbox is not active, so the kernel rings the doorbell itself. `nvmed` starts from the old
position. -/
theorem handoff_to_nvmed_leaves_old_position :
    ∃ l s, Steps (fun s a v => queue_step s a = some v) Queues.start l s
      ∧ s.rings = [(⟨0, 0, true⟩, ⟨0, 0, true⟩), (⟨0, 0, true⟩, ⟨1, 1, true⟩)] ∧ ¬ Agree s := by
  have hold : ∀ s : Queues, s.rings = [(⟨0, 0, true⟩, ⟨0, 0, true⟩), (⟨0, 0, true⟩, ⟨1, 1, true⟩)] →
      ¬ Agree s := by
    intro s hrings hagree
    unfold Agree at hagree
    rw [hrings] at hagree
    exact absurd hagree (by decide)
  exact ⟨[.control (.call .blink .spawn), .control (.go .blink),
    .transfer .svc_worker, .transfer_step true, .transfer_step true,
    .control (.go .blink), .control .register, .control (.go .blink), .control (.go .blink),
    .control (.go .blink), .proc 0 true, .transfer .svc_worker, .transfer_step true,
    .proc 0 true, .proc 0 true, .proc 0 true], _, .of_run _ rfl, rfl, hold _ rfl⟩

end HepOS.Handoff
