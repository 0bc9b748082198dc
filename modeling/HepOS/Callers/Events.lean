/-
The callers as a system: what users and processes make the machine do, event by event.

An `Event` is one command, save, prompt, drop or job, with all its arguments; in particular
a shell command comes with the terminal it is typed into, whatever that terminal's working
directory has become since. A run of events from a formatted disk with an empty record ends
in a session whose record holds every request that was made on the way.

`Steps.recorded` ties the record to the disk: it is all that happened. Statements about the
runs whose requests meet a condition are then statements about the record.
-/
import HepOS.Callers.Commands

set_option autoImplicit false

namespace HepOS.Callers

open Hoare HepFS Trace

/-! ## Events -/

inductive Event where
  | shell (t : Terminal) (verb : Verb) (arg1 arg2 : String)
  | save (path : String) (lines : List (List UInt8))
  | prompt (d : Desktop) (keys : List Char)
  | drop (from_parent target_ino : UInt32) (names : List String)
  | job (op : FsOp) (path : String)

def Event.run : Event → CallM Unit
  | .shell t verb arg1 arg2 => do
    let _reply ← t.execute verb arg1 arg2
    pure ()
  | .save path lines => Callers.save path lines
  | .prompt d keys => prompt_keys d keys
  | .drop from_parent target_ino names => drop_files from_parent target_ino names
  | .job op path => do
    let _job ← fs_service (FsJob.new op path)
    pure ()

/-- The event returns. -/
def Event.Runs (σ : Session) (e : Event) (σ' : Session) : Prop := e.run σ = .ok () σ'

/-! ## Every event is logged -/

section

variable {α : Type}

theorem Logged.each {γ : Type} {f : γ → CallM Unit} (hf : ∀ a, Logged (f a)) (l : List γ) :
    Logged (Hoare.each f l) := by
  induction l with
  | nil => exact Logged.pure ()
  | cons a rest ih => exact (hf a).bind (fun _ => ih)

/-- What is done with an inode when there is one. -/
theorem Logged.found {β : Type} {x : CallM (Option α)} {f : Option α → CallM β} (hx : Logged x)
    (hnone : Logged (f none)) (hsome : ∀ a, Logged (f (some a))) : Logged (x >>= f) := by
  apply hx.bind
  intro found
  cases found with
  | none => exact hnone
  | some a => exact hsome a

theorem Logged.then_pure {β : Type} {x : CallM α} (hx : Logged x) (f : α → β) :
    Logged (x >>= fun a => Pure.pure (f a)) := hx.bind (fun a => Logged.pure (f a))

end

theorem logged_resolve (t : Terminal) (name : String) : Logged (t.resolve name) := by
  apply Logged.ite
  · exact logged_lookup name
  · exact (Logged.look (readOnly.list_dir _)).then_pure _

theorem logged_stat_rows (entries : List (UInt32 × String)) : Logged (stat_rows entries) := by
  induction entries with
  | nil => exact Logged.pure []
  | cons e rest ih =>
    obtain ⟨child_ino, name⟩ := e
    apply (Logged.look (readOnly_stat child_ino)).bind
    intro st
    exact ih.then_pure _

theorem logged_ls (t : Terminal) (arg1 : String) : Logged (t.ls arg1) := by
  have htarget : Logged (t.ls_target arg1) :=
    Logged.ite (Logged.pure _) (logged_resolve t arg1)
  refine htarget.found (Logged.pure _) fun ino => ?_
  apply (Logged.look (readOnly.list_dir ino)).bind
  intro entries
  apply Logged.ite
  · exact Logged.pure _
  · exact (logged_stat_rows entries).then_pure _

theorem logged_cd (t : Terminal) (arg1 : String) : Logged (t.cd arg1) := by
  apply Logged.ite
  · exact Logged.pure _
  apply Logged.ite
  · exact (logged_lookup _).then_pure _
  refine (logged_resolve t arg1).found (Logged.pure _) fun ino => ?_
  apply (Logged.look (readOnly_stat ino)).bind
  intro st
  exact Logged.ite (Logged.pure _) (Logged.pure _)

theorem logged_cat (t : Terminal) (arg1 : String) : Logged (t.cat arg1) := by
  apply Logged.ite
  · exact Logged.pure _
  exact (logged_resolve t arg1).found (Logged.pure _) fun ino =>
    (Logged.look (readOnly.read_file ino)).then_pure _

theorem logged_or_create (found : Option UInt32) (parent : UInt32) (name : String) :
    Logged (or_create found parent name) := by
  cases found with
  | none => exact logged_create_file parent name
  | some ino => exact Logged.pure ino

theorem logged_put_bytes (t : Terminal) (dst : String) (bytes : List UInt8) :
    Logged (t.put_bytes dst bytes) := by
  apply (logged_resolve t dst).bind
  intro found
  apply (logged_or_create found t.cwd_ino (trim_start dst)).bind
  intro di
  exact logged_write_file di bytes

theorem logged_cp (t : Terminal) (arg1 arg2 : String) : Logged (t.cp arg1 arg2) := by
  apply Logged.ite
  · exact Logged.pure _
  refine (logged_resolve t arg1).found (Logged.pure _) fun ino => ?_
  apply (Logged.look (readOnly.read_file ino)).bind
  intro bytes
  exact (logged_put_bytes t arg2 bytes).then_pure _

theorem logged_mv (t : Terminal) (arg1 arg2 : String) : Logged (t.mv arg1 arg2) := by
  apply Logged.ite
  · exact Logged.pure _
  refine (logged_resolve t arg1).found (Logged.pure _) fun ino => ?_
  apply (Logged.look (readOnly.read_file ino)).bind
  intro bytes
  apply (logged_remove t.cwd_ino (trim_start arg1)).bind
  intro removed
  apply Logged.ite
  · exact (logged_put_bytes t arg2 bytes).then_pure _
  · exact Logged.pure _

theorem logged_write (t : Terminal) (arg1 arg2 : String) : Logged (t.write arg1 arg2) := by
  apply Logged.ite
  · exact Logged.pure _
  apply (logged_resolve t arg1).bind
  intro found
  apply (logged_or_create found t.cwd_ino arg1).bind
  intro ino
  exact (logged_write_file ino _).then_pure _

theorem logged_execute (t : Terminal) (verb : Verb) (arg1 arg2 : String) :
    Logged (t.execute verb arg1 arg2) := by
  cases verb with
  | ls => exact (logged_ls t arg1).then_pure _
  | cd => exact logged_cd t arg1
  | cat => exact (logged_cat t arg1).then_pure _
  | mkdir =>
    have h : Logged (t.mkdir arg1) :=
      Logged.ite (Logged.pure _) ((logged_create_dir t.cwd_ino arg1).then_pure _)
    exact h.then_pure _
  | touch =>
    have h : Logged (t.touch arg1) :=
      Logged.ite (Logged.pure _) ((logged_create_file t.cwd_ino arg1).then_pure _)
    exact h.then_pure _
  | rm =>
    have h : Logged (t.rm arg1) :=
      Logged.ite (Logged.pure _) ((logged_remove t.cwd_ino arg1).then_pure _)
    exact h.then_pure _
  | cp => exact (logged_cp t arg1 arg2).then_pure _
  | mv => exact (logged_mv t arg1 arg2).then_pure _
  | write => exact (logged_write t arg1 arg2).then_pure _

/-- What a prompt does with the desktop directory, when there is one. -/
theorem logged_in_desktop {α : Type} {f : UInt32 → CallM α} (hf : ∀ ino, Logged (f ino)) :
    Logged (do
      match ← lookup "/home/desktop" with
      | some desktop_ino => do
        let _res ← f desktop_ino
        pure ()
      | none => pure ()) := by
  exact (logged_lookup _).found (Logged.pure ()) fun ino => (hf ino).then_pure _

theorem logged_handle_prompt (outcome : PromptOutcome) : Logged (handle_prompt outcome) := by
  cases outcome with
  | CreateFile name => exact logged_in_desktop (fun ino => logged_create_file ino name)
  | CreateFolder name => exact logged_in_desktop (fun ino => logged_create_dir ino name)
  | Rename old_name new_name =>
    exact logged_in_desktop (fun ino => logged_rename ino old_name new_name)
  | RenameFsPane win_id parent_ino old_name new_name =>
    exact (logged_rename parent_ino old_name new_name).then_pure _

theorem logged_job_put (job : FsJob) (ino : UInt32) (data : List UInt8) :
    Logged (job.put ino data) := (logged_write_file ino data).then_pure _

theorem logged_job_list_dir (job : FsJob) : Logged job.list_dir := by
  refine (logged_lookup _).found (Logged.pure _) fun dir_ino => ?_
  apply (Logged.look (readOnly_stat dir_ino)).bind
  intro st
  exact Logged.ite ((Logged.look (readOnly.list_dir dir_ino)).then_pure _) (Logged.pure _)

theorem logged_job_read_file (job : FsJob) : Logged job.read_file := by
  refine (logged_lookup _).found (Logged.pure _) fun ino => ?_
  apply (Logged.look (readOnly_stat ino)).bind
  intro st
  exact Logged.ite (Logged.pure _) ((Logged.look (readOnly.read_file ino)).then_pure _)

theorem logged_job_write_file (job : FsJob) (data : List UInt8) : Logged (job.write_file data) := by
  apply (logged_lookup _).bind
  intro found
  cases found with
  | some ino =>
    apply (Logged.look (readOnly_stat ino)).bind
    intro st
    exact Logged.ite (Logged.pure _) (logged_job_put job ino data)
  | none =>
    apply (logged_lookup _).bind
    intro parent
    cases parent with
    | none => exact Logged.pure _
    | some parent_ino =>
      exact (logged_create_file parent_ino _).bind (fun ino => logged_job_put job ino data)

theorem logged_job_create (job : FsJob) (is_dir : Bool) : Logged (job.create is_dir) := by
  refine (logged_lookup _).found (Logged.pure _) fun parent_ino => ?_
  exact Logged.ite ((logged_create_dir parent_ino _).then_pure _)
    ((logged_create_file parent_ino _).then_pure _)

theorem logged_fs_service (job : FsJob) : Logged (fs_service job) := by
  apply Logged.ite
  · exact Logged.pure _
  refine Logged.then_pure ?_ _
  unfold FsJob.perform
  cases job.op with
  | ListDir => exact logged_job_list_dir job
  | ReadFile => exact logged_job_read_file job
  | WriteFile data => exact logged_job_write_file job data
  | Create is_dir => exact logged_job_create job is_dir

/-- **The record of an event is all that it did.** -/
theorem Event.logged (e : Event) : Logged e.run := by
  cases e with
  | shell t verb arg1 arg2 => exact (logged_execute t verb arg1 arg2).then_pure _
  | save path lines =>
    apply (logged_lookup path).bind
    intro found
    apply (logged_or_create found ROOT_INO (trim_start path)).bind
    intro ino
    exact logged_write_file ino _
  | prompt d keys =>
    show Logged (prompt_keys d keys)
    unfold prompt_keys
    cases (keys.foldl Desktop.prompt_on_key d).prompt_result with
    | none => exact Logged.pure ()
    | some outcome => exact logged_handle_prompt outcome
  | drop from_parent target_ino names =>
    apply Logged.each
    intro name
    exact (logged_move_entry from_parent target_ino name).then_pure _
  | job op path => exact (logged_fs_service (FsJob.new op path)).then_pure _

/-! ## Runs -/

/-- The record of a run is all that it did. -/
theorem Steps.recorded {σ σ' : Session} {events : List Event} (h : Steps Event.Runs σ events σ') :
    ∃ l, σ'.requests = σ.requests ++ l ∧ Recorded σ.fs l σ'.fs := by
  induction h with
  | done σ => exact ⟨[], (List.append_nil _).symm, .done (Fs.To.rfl _)⟩
  | next he _ ih =>
    obtain ⟨l, hl, hrec⟩ := Event.logged _ _ _ _ he
    obtain ⟨l', hl', hrec'⟩ := ih
    exact ⟨l ++ l', by rw [hl', hl, List.append_assoc], hrec.append hrec'⟩

/-- A run of events from a formatted disk. -/
def FromFormat (σ : Session) : Prop :=
  ∃ s₀ s₁ events, s₀.geom.covers ∧ format s₀ = .ok () s₁ ∧ Steps Event.Runs ⟨s₁, []⟩ events σ

/-- A property of the disk that a formatted disk has and that the recorded calls keep, under a
condition that they all meet, holds at the end of the run and wherever a request was made. -/
theorem FromFormat.keeps {P : Disk → Prop} {Meets : Disk → Op → Prop} {σ : Session}
    (h : FromFormat σ) (hmeets : ∀ t op, (t, .call op) ∈ σ.requests → Meets t.blk op)
    (hroot : ∀ D, HepFS.Inv D → view D = View.root → P D)
    (hkeep : ∀ t op t', t.geom.covers → HepFS.Inv t.blk → Calls t op t' → Meets t.blk op →
      P t.blk → P t'.blk)
    (hproper : ∀ D op, Meets D op → op.Proper D) :
    ∀ t, (t = σ.fs ∨ ∃ r, (t, r) ∈ σ.requests) → t.geom.covers ∧ HepFS.Inv t.blk ∧ P t.blk := by
  obtain ⟨s0, s1, events, hc, hformat, hrun⟩ := h
  obtain ⟨s', hrun', hgeom, I, hview, -⟩ := format_spec s0 hc
  obtain ⟨-, rfl⟩ := EStateM.Result.ok.inj (hformat.symm.trans hrun')
  obtain ⟨l, hl, hrec⟩ := Steps.recorded hrun
  subst hl
  have hkeeps := hrec.keeps (P := fun t => t.geom.covers ∧ HepFS.Inv t.blk ∧ P t.blk)
    ⟨by rw [hgeom]; exact hc, I, hroot _ I hview⟩ ?_ ?_
  · rintro t (rfl | ⟨r, hmem⟩)
    · exact hkeeps.1
    · exact hkeeps.2 _ hmem
  · rintro t t' ⟨hct, It, ht⟩ hto
    rw [hto.geom, hto.blk]
    exact ⟨hct, It, ht⟩
  · rintro t op t' hmem ⟨hct, It, ht⟩ hret
    have hm := hmeets t op hmem
    have hcalls : Calls t op t' := ⟨hproper _ _ hm, hret⟩
    have heff := hcalls.effect hct It
    exact ⟨hct.of_eq heff.geom, heff.inv, hkeep t op t' hct It hcalls hm ht⟩

end HepOS.Callers
