/-
Whose result a poll returns.

A job in `FS_JOB` or `SVC_JOB` does not say who submitted it. Whoever polls first after it is done
gets the result and the bytes, and the slot is empty then: the submitter finds no job. Nothing goes
astray as long as a poll that finds a finished job is made by its submitter (`OwnPolls`), and this
is also all that keeps the contents of files apart.

The second half compares two runs with the same calls at the same points, in which the jobs of one
process come out the same and those of the others do not: the disks differ, so that other bytes are
read. The slots of the two runs differ in the outcome of jobs of other processes at most, and the
one process sees the same.
-/
import HepOS.Jobs.Slots

set_option autoImplicit false

namespace HepOS.Jobs

open Callers Handover Trace List

variable {p : Pid} {s t : State} {busy ok : Bool}

/-! ## Polls for one's own job -/

/-- A poll that finds a finished job is made by its submitter. -/
def OwnPoll {J : Type} (done : J → Bool) (s : Slot Pid J) (p : Pid) : Prop :=
  s.held = false → ∀ e, s.entry = some e → done e.job = true → e.owner = p

def OwnPolls (s : State) : Label → Prop
  | .fs_poll p _ _ => OwnPoll FsJob.done s.fs p
  | .service_poll p => OwnPoll SvcJob.done s.svc p
  | _ => True

/-- Each result went to the process that had submitted the job. -/
def Private {J : Type} (s : Slot Pid J) : Prop := ∀ r ∈ s.returned, r.2.owner = r.1

section

variable {J : Type} {done : J → Bool}

theorem submit_returned (s : Slot Pid J) (p : Pid) (j : J) :
    (submit s p j).2.returned = s.returned := by
  unfold submit
  split_ifs
  · rfl
  · rfl
  · rfl

theorem poll_of_done {s : Slot Pid J} {e : Entry Pid J} (hheld : s.held = false)
    (he : s.entry = some e) (hdone : done e.job = true) :
    poll done s p = (.ok e.job, s.collect p e) := by
  unfold poll
  rw [if_neg (by rw [hheld]; decide), he]
  exact if_pos hdone

theorem Private.poll {s : Slot Pid J} (h : Private s) (hown : OwnPoll done s p) :
    Private (Jobs.poll done s p).2 := by
  unfold Jobs.poll
  split_ifs with hheld
  · exact h
  cases hentry : s.entry with
  | none => exact h
  | some e =>
    dsimp only
    split_ifs with hdone
    · intro r hr
      rcases mem_append.mp hr with hold | hnew
      · exact h r hold
      · rw [mem_singleton.mp hnew]
        exact hown (Bool.not_eq_true _ ▸ hheld) e hentry hdone
    · exact h

end

theorem work_returned (h : s.work busy ok = some t) :
    t.fs.returned = s.fs.returned ∧ t.svc.returned = s.svc.returned := by
  -- by the places of the worker: it never hands a result out
  unfold State.work at h
  split at h
  case h_2 =>
    split at h
    case h_1 =>
      cases h
      exact ⟨rfl, rfl⟩
    case h_2 e he =>
      unfold State.take_fs_job at h
      split_ifs at h
      all_goals
        cases h
        exact ⟨rfl, rfl⟩
  case h_3 =>
    split at h
    case h_1 => simp at h
    case h_2 e hrun =>
      split at h
      case h_1 =>
        cases h
        exact ⟨rfl, rfl⟩
      case h_2 => simp at h
  case h_5 =>
    split at h
    case h_1 =>
      cases h
      exact ⟨rfl, rfl⟩
    case h_2 e he =>
      split_ifs at h
      all_goals
        cases h
        exact ⟨rfl, rfl⟩
  case h_6 =>
    split at h
    case h_1 => simp at h
    case h_2 e hrun =>
      cases h
      exact ⟨rfl, rfl⟩
  all_goals
    cases h
    exact ⟨rfl, rfl⟩

/-- **One step** gives no result to anybody but the submitter. -/
theorem private_next {a : Label} (hfs : Private s.fs) (hsvc : Private s.svc) (hstep : Next s a t)
    (hown : OwnPolls s a) :
    Private t.fs ∧ Private t.svc := by
  cases hstep with
  | other _ => exact ⟨hfs, hsvc⟩
  | call hcall =>
    cases a with
    | submit p op path =>
      cases hcall
      refine ⟨fun r hr => hfs r ?_, hsvc⟩
      exact (submit_returned s.fs p _) ▸ hr
    -- only the polls add to what has been returned
    | fs_poll p out_ptr out_cap =>
      cases hcall
      refine ⟨?_, hsvc⟩
      show Private (sys_fs_poll s.fs p out_ptr out_cap).2
      rw [sys_fs_poll_slot]
      exact hfs.poll hown
    | service_ctl p service_id action =>
      cases hcall
      refine ⟨hfs, ?_⟩
      show Private (sys_service_ctl s.services s.svc p service_id action).2.2
      rcases sys_service_ctl_slot s.services s.svc p service_id action with hsame
        | ⟨name, start, hsubmit⟩
      · rw [hsame]
        exact hsvc
      · rw [hsubmit]
        exact fun r hr => hsvc r (submit_returned s.svc p _ ▸ hr)
    | service_poll p =>
      cases hcall
      refine ⟨hfs, ?_⟩
      show Private (sys_service_poll s.svc p).2
      rw [sys_service_poll_slot]
      exact hsvc.poll hown
    | work busy ok =>
      obtain ⟨hfs', hsvc'⟩ := work_returned hcall
      unfold Private
      rw [hfs', hsvc']
      exact ⟨hfs, hsvc⟩
    | other controller services => exact absurd hcall (by simp [State.next])

/-! ## Two runs -/

/-- What a process has seen. -/
def observed (me : Pid) (s : State) : List Seen :=
  (s.seen.filter fun x => decide (x.1 = me)).map Prod.snd

/-- The file system jobs of a process came out the same. -/
def SameOutcomes (me : Pid) (s t : State) : Prop :=
  ∀ r ∈ s.fs.finished, ∀ r' ∈ t.fs.finished, r.1.id = r'.1.id → r.1.owner = me → r.2 = r'.2

/-- Two states that look the same to a process. -/
structure AlikeState (me : Pid) (s t : State) : Prop where
  fs : Alike me FsJob.done fs_req s.fs t.fs
  svc : Alike me SvcJob.done SvcJob.req s.svc t.svc
  pc : s.pc = t.pc
  controller : s.controller = t.controller
  services : s.services = t.services
  seen : observed me s = observed me t

section

variable {J R : Type} {me : Pid} {done : J → Bool} {req : J → R} {s t : Slot Pid J}

theorem submit_alike (h : Alike me done req s t) (p : Pid) (j : J) :
    (submit s p j).1 = (submit t p j).1 ∧ Alike me done req (submit s p j).2 (submit t p j).2 := by
  have hsome : s.entry.isSome = t.entry.isSome := by
    rcases rel_cases h.entry with ⟨hs, ht⟩ | ⟨e, e', hs, ht, -⟩
    · rw [hs, ht]
    · rw [hs, ht]
      rfl
  unfold submit
  rw [← h.held, ← hsome]
  split_ifs
  · exact ⟨rfl, h⟩
  · exact ⟨rfl, h⟩
  · exact ⟨rfl, h.accept p j⟩

/-- A poll that finds a job of another process tells no more than that it is not done. -/
theorem poll_alike (h : Alike me done req s t) (hown : OwnPoll done s p) :
    (p = me → (poll done s p).1 = (poll done t p).1)
      ∧ Alike me done req (poll done s p).2 (poll done t p).2 := by
  unfold poll
  rw [← h.held]
  split_ifs with hheld
  · exact ⟨fun _ => rfl, h⟩
  rcases rel_cases h.entry with ⟨hs, ht⟩ | ⟨e, e', hs, ht, he⟩
  · rw [hs, ht]
    exact ⟨fun _ => rfl, h⟩
  · rw [hs, ht]
    dsimp only
    rw [← he.done]
    split_ifs with hdone
    · refine ⟨fun hme => ?_, h.collect p e e'⟩
      have howner := hown (Bool.not_eq_true _ ▸ hheld) e hs hdone
      rw [he.mine (howner.trans hme)]
    · exact ⟨fun _ => rfl, h⟩

end

section

variable {me : Pid} {s t s' t' : State}

theorem observed_snoc (s t : State) (p : Pid) (x : Seen) (ht : t.seen = s.seen ++ [(p, x)]) :
    observed me t = observed me s ++ if p = me then [x] else [] := by
  unfold observed
  rw [ht, filter_append, map_append]
  congr 1
  by_cases hp : p = me
  · simp [hp]
  · simp [hp]

/-- The same answer, or one that is not for the process. -/
theorem AlikeState.observed_snoc (h : AlikeState me s t) {x y : Seen}
    (hs : s'.seen = s.seen ++ [(p, x)]) (ht : t'.seen = t.seen ++ [(p, y)]) (hxy : p = me → x = y) :
    observed me s' = observed me t' := by
  rw [Jobs.observed_snoc s s' p x hs, Jobs.observed_snoc t t' p y ht, h.seen]
  by_cases hp : p = me
  · rw [hxy hp]
  · rw [if_neg hp, if_neg hp]

theorem sys_fs_poll_code {a b : Slot Pid FsJob}
    (h : (poll FsJob.done a p).1 = (poll FsJob.done b p).1) (out_ptr out_cap : UInt64) :
    (sys_fs_poll a p out_ptr out_cap).1 = (sys_fs_poll b p out_ptr out_cap).1 := by
  unfold sys_fs_poll
  rcases ha : poll FsJob.done a p with ⟨x, a'⟩
  rcases hb : poll FsJob.done b p with ⟨y, b'⟩
  rw [ha, hb] at h
  obtain rfl : x = y := h
  cases x with
  | error code => rfl
  | ok job => rfl

theorem sys_service_poll_code {a b : Slot Pid SvcJob}
    (h : (poll SvcJob.done a p).1 = (poll SvcJob.done b p).1) :
    (sys_service_poll a p).1 = (sys_service_poll b p).1 := by
  unfold sys_service_poll
  rcases ha : poll SvcJob.done a p with ⟨x, a'⟩
  rcases hb : poll SvcJob.done b p with ⟨y, b'⟩
  rw [ha, hb] at h
  obtain rfl : x = y := h
  cases x with
  | error code => rfl
  | ok job => rfl

theorem sys_service_ctl_alike {a b : Slot Pid SvcJob} (h : Alike me SvcJob.done SvcJob.req a b)
    (services : Services) (p : Pid) (service_id action : UInt64) :
    (sys_service_ctl services a p service_id action).1
      = (sys_service_ctl services b p service_id action).1
      ∧ (sys_service_ctl services a p service_id action).2.1
        = (sys_service_ctl services b p service_id action).2.1
      ∧ Alike me SvcJob.done SvcJob.req (sys_service_ctl services a p service_id action).2.2
        (sys_service_ctl services b p service_id action).2.2 := by
  unfold sys_service_ctl
  cases service_name service_id with
  | none => exact ⟨rfl, rfl, h⟩
  | some name =>
    cases parse_svc_action action with
    | none => exact ⟨rfl, rfl, h⟩
    | some act =>
      cases act with
      | Status | Enable | Disable => exact ⟨rfl, rfl, h⟩
      | Start =>
        obtain ⟨hcode, hslot⟩ := submit_alike h p ⟨name, true, false, 0⟩
        exact ⟨hcode, rfl, hslot⟩
      | Stop =>
        obtain ⟨hcode, hslot⟩ := submit_alike h p ⟨name, false, false, 0⟩
        exact ⟨hcode, rfl, hslot⟩

section

variable (h : AlikeState me s t)

include h

theorem AlikeState.hold_fs (b : Bool) (pc : Pc) :
    AlikeState me { s with fs := s.fs.hold b, pc := pc } { t with fs := t.fs.hold b, pc := pc } :=
  ⟨h.fs.hold b, h.svc, rfl, h.controller, h.services, h.seen⟩

theorem AlikeState.hold_svc (b : Bool) (pc : Pc) :
    AlikeState me { s with svc := s.svc.hold b, pc := pc }
        { t with svc := t.svc.hold b, pc := pc } :=
  ⟨h.fs, h.svc.hold b, rfl, h.controller, h.services, h.seen⟩

theorem AlikeState.take_fs_job {e e' : Entry Pid FsJob} (hs : s.fs.entry = some e)
    (ht : t.fs.entry = some e') (he : AlikeEntry me FsJob.done fs_req e e') :
    AlikeState me (s.take_fs_job e) (t.take_fs_job e') := by
  have hstart := h.fs.start he
  unfold State.take_fs_job
  by_cases hctrl : s.controller = true
  · rw [if_pos hctrl, if_pos (h.controller ▸ hctrl)]
    exact ⟨hstart, h.svc, rfl, h.controller, h.services, h.seen⟩
  · rw [if_neg hctrl, if_neg (h.controller ▸ hctrl)]
    have hmine : e.owner = me → no_device e.job = no_device e'.job := fun hme => by rw [he.mine hme]
    have hdone : (no_device e.job).done = (no_device e'.job).done := rfl
    exact ⟨(hstart.finish hs ht hdone he.req hmine).hold false, h.svc, rfl, h.controller,
      h.services, h.seen⟩

theorem AlikeState.look_fs (hpc : s.pc = .fs_locked) (hs : s.work busy ok = some s')
    (ht : t.work busy ok = some t') : AlikeState me s' t' := by
  have hpc' : t.pc = .fs_locked := h.pc ▸ hpc
  have hleave : AlikeState me s.leave_fs t.leave_fs := h.hold_fs false .svc_service
  unfold State.work at hs ht
  rw [hpc] at hs
  rw [hpc'] at ht
  rcases rel_cases h.fs.entry with ⟨hes, het⟩ | ⟨e, e', hes, het, he⟩
  · rw [hes] at hs
    rw [het] at ht
    cases hs
    cases ht
    exact hleave
  · rw [hes] at hs
    rw [het] at ht
    dsimp only at hs ht
    rw [← he.done] at ht
    split_ifs at hs ht
    all_goals
      cases hs
      cases ht
    · exact hleave
    · exact hleave
    · exact h.take_fs_job hes het he

/-- The end of a job in `fs_service`: the disks differ, and a job of another process comes out as it
may. -/
theorem AlikeState.end_fs (hinv : Inv s) (hinv' : Inv t) (hpc : s.pc = .fs_running)
    (hs : s.work busy ok = some s') (ht : t.work busy ok = some t')
    (hsame : SameOutcomes me s' t') : AlikeState me s' t' := by
  have hpc' : t.pc = .fs_running := h.pc ▸ hpc
  unfold State.work at hs ht
  rw [hpc] at hs
  rw [hpc'] at ht
  rcases rel_cases h.fs.running with ⟨hes, -⟩ | ⟨e, e', hes, het, he⟩
  · rw [hes] at hs
    simp at hs
  rw [hes] at hs
  rw [het] at ht
  dsimp only at hs ht
  split at hs
  case h_2 => simp at hs
  case h_1 job disk hjob =>
    split at ht
    case h_2 => simp at ht
    case h_1 job' disk' hjob' =>
      cases hs
      cases ht
      obtain ⟨hdone, hreq⟩ := execFs_spec _ _ (.inl ⟨_, _, hjob⟩)
      obtain ⟨hdone', hreq'⟩ := execFs_spec _ _ (.inl ⟨_, _, hjob'⟩)
      have hmine : e.owner = me → job = job' := fun hme =>
        hsame (e, job) (mem_append_right _ mem_cons_self) (e', job')
          (mem_append_right _ mem_cons_self) he.id hme
      have hfinish := h.fs.finish (hinv.fs.running e hes).2.1 (hinv'.fs.running e' het).2.1
        (hdone.trans hdone'.symm)
        (hreq.trans (he.req.trans hreq'.symm)) hmine
      exact ⟨hfinish.hold false, h.svc, rfl, h.controller, h.services, h.seen⟩

theorem AlikeState.look_svc (hpc : s.pc = .svc_locked) (hs : s.work busy ok = some s')
    (ht : t.work busy ok = some t') : AlikeState me s' t' := by
  have hpc' : t.pc = .svc_locked := h.pc ▸ hpc
  have hleave : AlikeState me s.leave_svc t.leave_svc := h.hold_svc false .pending_fs
  unfold State.work at hs ht
  rw [hpc] at hs
  rw [hpc'] at ht
  rcases rel_cases h.svc.entry with ⟨hes, het⟩ | ⟨e, e', hes, het, he⟩
  · rw [hes] at hs
    rw [het] at ht
    cases hs
    cases ht
    exact hleave
  · rw [hes] at hs
    rw [het] at ht
    dsimp only at hs ht
    rw [← he.done] at ht
    split_ifs at hs ht
    all_goals
      cases hs
      cases ht
    · exact hleave
    · exact ⟨h.fs, h.svc.start he, rfl, h.controller, h.services, h.seen⟩

/-- The end of a service job: the driver function returns the same in both runs. -/
theorem AlikeState.end_svc (hinv : Inv s) (hinv' : Inv t) (hpc : s.pc = .svc_running)
    (hs : s.work busy ok = some s') (ht : t.work busy ok = some t') : AlikeState me s' t' := by
  have hpc' : t.pc = .svc_running := h.pc ▸ hpc
  unfold State.work at hs ht
  rw [hpc] at hs
  rw [hpc'] at ht
  rcases rel_cases h.svc.running with ⟨hes, -⟩ | ⟨e, e', hes, het, he⟩
  · rw [hes] at hs
    simp at hs
  rw [hes] at hs
  rw [het] at ht
  cases hs
  cases ht
  have hmine : e.owner = me → e.job.served ok = e'.job.served ok := fun hme => by rw [he.mine hme]
  have hdone : (e.job.served ok).done = (e'.job.served ok).done := rfl
  have hfinish := h.svc.finish (hinv.svc.running e hes).2.1
    (hinv'.svc.running e' het).2.1 hdone he.req hmine
  exact ⟨h.fs, hfinish.hold false, rfl, h.controller, h.services, h.seen⟩

theorem AlikeState.work (hinv : Inv s) (hinv' : Inv t) (hs : s.work busy ok = some s')
    (ht : t.work busy ok = some t') (hsame : SameOutcomes me s' t') : AlikeState me s' t' := by
  -- the places where the worker only takes or leaves a lock
  have hplain : ∀ {x y : State}, s.work busy ok = some x → t.work busy ok = some y →
      AlikeState me x y → AlikeState me s' t' := by
    intro x y hx hy hxy
    obtain rfl := Option.some.inj (hx.symm.trans hs)
    obtain rfl := Option.some.inj (hy.symm.trans ht)
    exact hxy
  have hpc' : t.pc = s.pc := h.pc.symm
  cases hpc : s.pc with
  | fs_service =>
    exact hplain (by rw [State.work, hpc]) (by rw [State.work, hpc', hpc])
      (h.hold_fs true .fs_locked)
  | fs_locked => exact h.look_fs hpc hs ht
  | fs_running => exact h.end_fs hinv hinv' hpc hs ht hsame
  | svc_service =>
    exact hplain (by rw [State.work, hpc]) (by rw [State.work, hpc', hpc])
      (h.hold_svc true .svc_locked)
  | svc_locked => exact h.look_svc hpc hs ht
  | svc_running => exact h.end_svc hinv hinv' hpc hs ht
  | pending_fs =>
    exact hplain (by rw [State.work, hpc]) (by rw [State.work, hpc', hpc])
      (h.hold_fs true .pending_fs_locked)
  | pending_fs_locked =>
    exact hplain (by rw [State.work, hpc]) (by rw [State.work, hpc', hpc])
      (h.hold_fs false .pending_svc)
  | pending_svc =>
    exact hplain (by rw [State.work, hpc]) (by rw [State.work, hpc', hpc])
      (h.hold_svc true .pending_svc_locked)
  | pending_svc_locked =>
    exact hplain (by rw [State.work, hpc]) (by rw [State.work, hpc', hpc])
      (h.hold_svc false .fs_service)

/-- **One step of two runs** with the same label. -/
theorem AlikeState.next (hinv : Inv s) (hinv' : Inv t) {a : Label} (hs : Next s a s')
    (ht : Next t a t') (hown : OwnPolls s a) (hsame : SameOutcomes me s' t') :
    AlikeState me s' t' := by
  -- both runs take the same label; the slots move alike in each call
  cases hs with
  | other hdisk =>
    cases ht with
    | other hdisk' => exact ⟨h.fs, h.svc, h.pc, rfl, rfl, h.seen⟩
    | call hcall => exact absurd hcall (by simp [State.next])
  | call hcall =>
    cases ht with
    | other hdisk' => exact absurd hcall (by simp [State.next])
    | call hcall' =>
      cases a with
      | submit p op path =>
        cases hcall
        cases hcall'
        obtain ⟨hcode, hslot⟩ := submit_alike h.fs p (FsJob.new op path)
        refine ⟨hslot, h.svc, h.pc, h.controller, h.services, h.observed_snoc rfl rfl fun _ => ?_⟩
        exact congrArg Seen.submitted hcode
      | fs_poll p out_ptr out_cap =>
        cases hcall
        cases hcall'
        obtain ⟨hcode, hslot⟩ := poll_alike h.fs hown
        refine ⟨?_, h.svc, h.pc, h.controller, h.services, h.observed_snoc rfl rfl fun hme => ?_⟩
        · show Alike me FsJob.done fs_req (sys_fs_poll s.fs p out_ptr out_cap).2
            (sys_fs_poll t.fs p out_ptr out_cap).2
          rw [sys_fs_poll_slot, sys_fs_poll_slot]
          exact hslot
        · have hpair := sys_fs_poll_code (hcode hme) out_ptr out_cap
          exact congrArg (fun x => Seen.polled x.1 x.2) hpair
      | service_ctl p service_id action =>
        cases hcall
        cases hcall'
        rw [← h.services]
        obtain ⟨hcode, hservices, hslot⟩ :=
          sys_service_ctl_alike h.svc s.services p service_id action
        refine ⟨h.fs, hslot, h.pc, h.controller, hservices, h.observed_snoc rfl rfl fun _ => ?_⟩
        exact congrArg Seen.submitted hcode
      | service_poll p =>
        cases hcall
        cases hcall'
        obtain ⟨hcode, hslot⟩ := poll_alike h.svc hown
        refine ⟨h.fs, ?_, h.pc, h.controller, h.services, h.observed_snoc rfl rfl fun hme => ?_⟩
        · show Alike me SvcJob.done SvcJob.req (sys_service_poll s.svc p).2
            (sys_service_poll t.svc p).2
          rw [sys_service_poll_slot, sys_service_poll_slot]
          exact hslot
        · exact congrArg (fun x => Seen.polled x []) (sys_service_poll_code (hcode hme))
      -- the worker runs the same job in both, with the same outcome
      | work busy ok => exact h.work hinv hinv' hcall hcall' hsame
      | other controller services => exact absurd hcall (by simp [State.next])

end

end

/-- The steps of a run in which every process polls for its own jobs. -/
def OwnNext (s : State) (a : Label) (t : State) : Prop := Next s a t ∧ OwnPolls s a

theorem Inv.finished_subset {l : List Label} (hinv : Inv s) (h : Steps OwnNext s l t) :
    s.fs.finished ⊆ t.fs.finished := by
  induction h with
  | done => exact fun _ hr => hr
  | next hstep _ ih =>
    obtain ⟨-, hfs, -⟩ := hinv.placed.moves hstep.1
    exact List.Subset.trans (Handover.finished_subset hfs) (ih (hinv.next hstep.1))

/-- **Two runs** with the same labels. The outcomes that are compared are those of the whole
runs. -/
theorem AlikeState.runs {me : Pid} (l : List Label) : ∀ {s t s' t' : State}, AlikeState me s t →
    Inv s → Inv t →
    Steps OwnNext s l s' → Steps OwnNext t l t' → SameOutcomes me s' t' → AlikeState me s' t' := by
  induction l with
  | nil =>
    intro s t s' t' h _ _ hs ht _
    cases hs
    cases ht
    exact h
  | cons a l ih =>
    intro s t s' t' h hinv hinv' hs ht hsame
    cases hs with
    | next hstep hrest =>
      cases ht with
      | next hstep' hrest' =>
        have hmid := hinv.next hstep.1
        have hmid' := hinv'.next hstep'.1
        refine ih (h.next hinv hinv' hstep.1 hstep'.1 hstep.2 ?_) hmid hmid' hrest hrest' hsame
        exact fun r hr r' hr' => hsame r (hmid.finished_subset hrest hr) r'
          (hmid'.finished_subset hrest' hr')

/-! ## Results stay with their submitter -/

/-- **Results.** When every poll that finds a finished job is made by its submitter, no process gets
or takes away the result of another one's job. What a process sees is the same in every other run
with the same calls in which its own jobs come out the same, whatever the files hold that only other
processes read. -/
theorem private_of_own_polls {disk : Session} {controller : Bool} {services : Services}
    {l : List Label} {s : State} (h : Steps OwnNext (State.start disk controller services) l s) :
    Private s.fs ∧ Private s.svc
    ∧ ∀ me disk' t, Steps OwnNext (State.start disk' controller services) l t →
      SameOutcomes me s t →
      observed me s = observed me t := by
  have hprivate : Private s.fs ∧ Private s.svc := by
    refine h.keeps (P := fun s => Private s.fs ∧ Private s.svc) ⟨?_, ?_⟩ ?_
    · exact fun r hr => absurd hr not_mem_nil
    · exact fun r hr => absurd hr not_mem_nil
    · exact fun _ _ _ hv hstep => private_next hv.1 hv.2 hstep.1 hstep.2
  refine ⟨hprivate.1, hprivate.2, fun me disk' t ht hsame => ?_⟩
  have hstart : AlikeState me (State.start disk controller services)
      (State.start disk' controller services) :=
    ⟨alike_refl _, alike_refl _, rfl, rfl, rfl, rfl⟩
  exact (hstart.runs l (inv_start _ _ _) (inv_start _ _ _) h ht hsame).seen

/-- Process 1 has had the root directory listed, and has not polled. -/
def listed (disk disk' : Session) (job : FsJob) : State :=
  let e : Entry Pid FsJob := ⟨0, 1, FsJob.new .ListDir "/"⟩
  { machine disk with
    fs := ((((Slot.empty.accept 1 e.job).hold true).start e).finish e job).hold false
    disk := disk', pc := .svc_service, seen := [(1, .submitted 0)] }

theorem exists_listed_run : ∃ disk disk' job, job.done = true ∧ Steps OwnNext (machine disk)
    [.submit 1 .ListDir "/", .work false false, .work false false, .work false false]
      (listed disk disk' job) := by
  obtain ⟨disk, job, disk', hjob⟩ := exists_listed
  refine ⟨disk, disk', job, (execFs_spec _ _ (.inl ⟨_, _, hjob⟩)).1, ?_⟩
  exact .next ⟨.call rfl, trivial⟩ (.next ⟨.call rfl, trivial⟩ (.next ⟨.call rfl, trivial⟩
    (.next ⟨.call (State.next_finishes (e := ⟨0, 1, _⟩) rfl rfl hjob _ _), trivial⟩ (.done _))))

theorem poll_listed {disk disk' : Session} {job : FsJob} (hdone : job.done = true) (p : Pid) :
    poll FsJob.done (listed disk disk' job).fs p
        = (.ok job, (listed disk disk' job).fs.collect p ⟨0, 1, job⟩) :=
  poll_of_done (e := ⟨0, 1, job⟩) rfl rfl hdone

/-- Processes 1 and 2 list a directory one after the other. -/
theorem private_of_own_polls_turns : ∃ disk s, Steps OwnNext (machine disk)
      [.submit 1 .ListDir "/", .work false false, .work false false, .work false false,
        .fs_poll 1 1 4096, .submit 2 .ListDir "/", .fs_poll 2 1 4096] s
    ∧ observed 2 s = [.submitted 0, .polled EBUSY []] ∧ Private s.fs := by
  obtain ⟨disk, disk', job, hdone, hlisted⟩ := exists_listed_run
  have hpoll : (listed disk disk' job).next (.fs_poll 1 1 4096) = some { listed disk disk' job with
      fs := (listed disk disk' job).fs.collect 1 ⟨0, 1, job⟩
      seen := [(1, .submitted 0), (1, .polled job.result (job.out_data.take 4096))] } := by
    rw [State.next, sys_fs_poll, poll_listed hdone]
    rfl
  obtain ⟨s, hseen, hrest⟩ : ∃ s, observed 2 s = [.submitted 0, .polled EBUSY []]
      ∧ Steps OwnNext (listed disk disk' job) [.fs_poll 1 1 4096, .submit 2 .ListDir "/",
        .fs_poll 2 1 4096] s := by
    refine ⟨_, ?_, .next ⟨.call hpoll, fun _ e he _ => ?_⟩ (.next ⟨.call rfl, trivial⟩
      (.one ⟨.call rfl, fun _ e he hnew => ?_⟩))⟩
    · rfl
    · cases he
      rfl
    · cases he
      exact absurd hnew Bool.false_ne_true
  have hrun := hlisted.append hrest
  exact ⟨disk, s, hrun, hseen, (private_of_own_polls hrun).1⟩

/-- Process 1 has the root directory listed, and process 2 polls first. -/
theorem poll_takes_foreign_result : ∃ disk s, Steps Next (machine disk)
      [.submit 1 .ListDir "/", .work false false, .work false false, .work false false,
        .fs_poll 2 1 4096] s
    ∧ ¬ Private s.fs := by
  obtain ⟨disk, disk', job, hdone, hlisted⟩ := exists_listed_run
  refine ⟨disk, _, (hlisted.mono fun _ _ _ hstep => hstep.1).append (.one (.call rfl)),
    fun hprivate => ?_⟩
  have hmem : ((2 : Pid), (⟨0, 1, job⟩ : Entry Pid FsJob))
      ∈ (sys_fs_poll (listed disk disk' job).fs 2 1 4096).2.returned := by
    rw [sys_fs_poll_slot, poll_listed hdone]
    exact mem_cons_self
  have howner : (1 : Pid) = 2 := hprivate _ hmem
  exact absurd howner (by decide)

end HepOS.Jobs
