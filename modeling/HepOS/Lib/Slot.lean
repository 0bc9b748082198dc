/-
A slot for one job at a time.

A process puts a job into the empty slot, a worker that holds the lock of the slot takes the job up
and later stores what has become of it, and a process that finds the job done takes it out. The lock
is never awaited by a process: while the worker holds it the slot is out of reach. What is not in
any such program is kept here as a record: the number of each job and who submitted it, the jobs
accepted, taken up, finished and returned, in the order in which it happened.

The numbers make the argument short. Jobs are numbered as they are accepted, and since the slot
holds one job at a time the numbers of the jobs taken up, and those of the jobs returned, are `0, 1,
..` without a gap and without a repetition (`Inv`). All that is wanted follows (`Protocol`).

The last part is about two runs with the same calls in which the jobs of other processes come out
differently (`Alike`).
-/
import Mathlib

set_option autoImplicit false

namespace HepOS.Handover

open List

/-- A job with its number and the process that submitted it. -/
structure Entry (P J : Type) where
  id : ℕ
  owner : P
  job : J

/-- The slot, its lock, the job that the worker is at, and the record. -/
structure Slot (P J : Type) where
  entry : Option (Entry P J)
  held : Bool
  running : Option (Entry P J)
  accepted : List (Entry P J)
  started : List (Entry P J)
  finished : List (Entry P J × J)
  returned : List (P × Entry P J)

section

variable {P J R : Type}

def Slot.empty : Slot P J := ⟨none, false, none, [], [], [], []⟩

/-! ## What happens to a slot -/

section

variable (s : Slot P J) (e : Entry P J)

def Slot.hold (held : Bool) : Slot P J := { s with held := held }

def Slot.accept (p : P) (j : J) : Slot P J :=
  { s with
    entry := some ⟨s.accepted.length, p, j⟩
    accepted := s.accepted ++ [⟨s.accepted.length, p, j⟩] }

def Slot.start : Slot P J :=
  { s with running := some e, started := s.started ++ [e] }

/-- The worker stores into whatever is in the slot. -/
def Slot.finish (j : J) : Slot P J :=
  { s with
    entry := s.entry.map fun e => { e with job := j }
    running := none
    finished := s.finished ++ [(e, j)] }

def Slot.collect (p : P) (e : Entry P J) : Slot P J :=
  { s with entry := none, returned := s.returned ++ [(p, e)] }

/-- What a job asks for stays with it: the same number, owner and request. -/
structure Same (req : J → R) (e e' : Entry P J) : Prop where
  id : e.id = e'.id
  owner : e.owner = e'.owner
  req : req e.job = req e'.job

/-- What is in the entry is what came out when the job was executed. -/
def Finished : Prop :=
  ∃ e₀, (e₀, e.job) ∈ s.finished ∧ e₀.id = e.id ∧ e₀.owner = e.owner

end

/-- There is a job that has not been taken up. -/
def Slot.waiting (done : J → Bool) (s : Slot P J) : Bool :=
  s.entry.any (fun e => !done e.job) && s.running.isNone

/-- The steps of processes and worker. -/
inductive Step (done : J → Bool) (exec : J → J → Prop) (s : Slot P J) : Slot P J → Prop
  | same : Step done exec s s
  | hold {b : Bool} (h : s.running = none) : Step done exec s (s.hold b)
  | accept {p : P} {j : J} (hempty : s.entry = none)
    (hnew : done j = false) : Step done exec s (s.accept p j)
  | start {e : Entry P J} (hheld : s.held = true) (hrun : s.running = none) (he : s.entry = some e)
      (hnew : done e.job = false) : Step done exec s (s.start e)
  | finish {e : Entry P J} {j : J} (hrun : s.running = some e)
    (hexec : exec e.job j) : Step done exec s (s.finish e j)
  | collect {p : P} {e : Entry P J} (hheld : s.held = false) (he : s.entry = some e)
    (hdone : done e.job = true) :
      Step done exec s (s.collect p e)

/-- Any number of steps. -/
abbrev Runs (done : J → Bool) (exec : J → J → Prop) : Slot P J → Slot P J → Prop :=
  Relation.ReflTransGen (Step done exec)

/-! ## The invariant -/

/-- Jobs are accepted, taken up and returned in the order of their numbers. -/
structure Inv (done : J → Bool) (req : J → R) (exec : J → J → Prop) (s : Slot P J) : Prop where
  ids : s.accepted.map Entry.id = List.range s.accepted.length
  running : ∀ e, s.running = some e → s.held = true ∧ s.entry = some e ∧ done e.job = false
    ∧ e ∈ s.started
  last : ∀ e, s.entry = some e → e.id + 1 = s.accepted.length
  own : ∀ e, s.entry = some e → ∃ e₀ ∈ s.accepted, Same req e₀ e
  fresh : ∀ e, s.entry = some e → done e.job = false → e ∈ s.accepted
  started_ids : s.started.map Entry.id = List.range
    (s.accepted.length - if s.waiting done then 1 else 0)
  started_own : ∀ e ∈ s.started, e ∈ s.accepted
  finished : ∀ r ∈ s.finished, r.1 ∈ s.started ∧ exec r.1.job r.2
  done_after : ∀ e, s.entry = some e → done e.job = true → Finished s e
  returned_ids : s.returned.map (fun r => r.2.id)
    = List.range (s.accepted.length - if s.entry.isSome then 1 else 0)
  results : ∀ r ∈ s.returned, Finished s r.2
  finished_ids : s.finished.map (fun r => r.1.id)
    = List.range (s.started.length - if s.running.isSome then 1 else 0)

section

variable {done : J → Bool} {req : J → R} {exec : J → J → Prop} {s t : Slot P J}

theorem inv_empty : Inv done req exec (Slot.empty : Slot P J) where
  ids := rfl
  running := fun _ h => absurd h (by simp [Slot.empty])
  last := fun _ h => absurd h (by simp [Slot.empty])
  own := fun _ h => absurd h (by simp [Slot.empty])
  fresh := fun _ h => absurd h (by simp [Slot.empty])
  started_ids := rfl
  started_own := fun _ h => absurd h not_mem_nil
  finished := fun _ h => absurd h not_mem_nil
  done_after := fun _ h => absurd h (by simp [Slot.empty])
  returned_ids := rfl
  results := fun _ h => absurd h not_mem_nil
  finished_ids := rfl

theorem Finished.mono {e : Entry P J} (h : Finished s e) (hsub : s.finished ⊆ t.finished) :
    Finished t e := by
  obtain ⟨e0, hmem, hsame⟩ := h
  exact ⟨e0, hsub hmem, hsame⟩

theorem waiting_of_none (h : s.entry = none) : s.waiting done = false := by
  unfold Slot.waiting
  rw [h]
  rfl

theorem waiting_of_done {e : Entry P J} (h : s.entry = some e) (hdone : done e.job = true) :
    s.waiting done = false := by
  unfold Slot.waiting
  rw [h, Option.any_some, hdone]
  rfl

theorem waiting_of_running {e : Entry P J} (h : s.running = some e) : s.waiting done = false := by
  unfold Slot.waiting
  rw [h]
  exact Bool.and_false _

theorem waiting_of_new {e : Entry P J} (h : s.entry = some e) (hnew : done e.job = false)
    (hrun : s.running = none) :
    s.waiting done = true := by
  unfold Slot.waiting
  rw [h, hrun, Option.any_some, hnew]
  rfl

section

variable (h : Inv done req exec s)

include h

theorem Inv.running_none (hempty : s.entry = none) : s.running = none := by
  cases hrun : s.running with
  | none => rfl
  | some e =>
    have he := (h.running e hrun).2.1
    rw [hempty] at he
    simp at he

theorem Inv.accept (p : P) (j : J) (hempty : s.entry = none) (hnew : done j = false) :
    Inv done req exec (s.accept p j) := by
  have hrun := h.running_none hempty
  have hlen : (s.accept p j).accepted.length = s.accepted.length + 1 := length_append
  have hwaits : (s.accept p j).waiting done = true := waiting_of_new rfl hnew hrun
  refine ⟨?_, fun e he => ?_, fun e he => ?_, fun e he => ?_, fun e he _ => ?_, ?_, fun e he => ?_,
    h.finished, fun e he hdone => ?_, ?_, h.results, h.finished_ids⟩
  · rw [hlen, range_succ, ← h.ids]
    exact map_append
  · exact absurd (hrun.symm.trans he) (by simp)
  · cases he
    exact hlen.symm
  · cases he
    exact ⟨_, mem_append_right _ mem_cons_self, rfl, rfl, rfl⟩
  · cases he
    exact mem_append_right _ mem_cons_self
  · rw [hlen, if_pos hwaits]
    refine h.started_ids.trans ?_
    rw [waiting_of_none hempty]
    rfl
  · exact mem_append_left _ (h.started_own e he)
  · cases he
    exact absurd (hnew.symm.trans hdone) (by decide)
  · rw [hlen, if_pos (by rfl)]
    refine h.returned_ids.trans ?_
    rw [hempty]
    rfl

theorem Inv.start {e : Entry P J} (hheld : s.held = true) (hrun : s.running = none)
    (he : s.entry = some e) (hnew : done e.job = false) : Inv done req exec (s.start e) := by
  have hlast := h.last e he
  refine ⟨h.ids, fun e' he' => ?_, h.last, h.own, h.fresh, ?_, fun e' he' => ?_, fun r hr => ?_,
    h.done_after, h.returned_ids, h.results, ?_⟩
  · cases he'
    exact ⟨hheld, he, hnew, mem_append_right _ mem_cons_self⟩
  · -- the number of the job is the last one
    have hids := h.started_ids
    rw [waiting_of_new he hnew hrun, if_pos rfl] at hids
    rw [waiting_of_running rfl, if_neg (by decide)]
    show (s.started ++ [e]).map Entry.id = List.range s.accepted.length
    rw [map_append, hids, ← hlast, Nat.add_sub_cancel, range_succ]
    rfl
  · rcases mem_append.mp he' with hold | hlast
    · exact h.started_own e' hold
    · rw [mem_singleton.mp hlast]
      exact h.fresh e he hnew
  · obtain ⟨hmem, hexec⟩ := h.finished r hr
    exact ⟨mem_append_left _ hmem, hexec⟩
  · have hids := h.finished_ids
    rw [hrun] at hids
    show s.finished.map _ = List.range ((s.started ++ [e]).length - 1)
    rw [length_append]
    exact hids

theorem Inv.finish (hexec : ∀ j j', exec j j' → done j' = true ∧ req j' = req j)
    {e : Entry P J} {j : J} (hrun : s.running = some e) (hj : exec e.job j) :
    Inv done req exec (s.finish e j) := by
  obtain ⟨hheld, he, hnew, hstarted⟩ := h.running e hrun
  obtain ⟨hdone, hreq⟩ := hexec _ _ hj
  have hentry : (s.finish e j).entry = some { e with job := j } := by
    show s.entry.map _ = _
    rw [he]
    rfl
  have hsub : s.finished ⊆ (s.finish e j).finished := subset_append_left _ _
  -- the entry keeps its number and gets the result
  refine ⟨h.ids, fun e' he' => absurd he' (by simp [Slot.finish]), fun e' he' => ?_,
    fun e' he' => ?_, fun e' he' hnew' => ?_, ?_,
    h.started_own, fun r hr => ?_, fun e' he' _ => ?_, ?_,
      fun r hr => (h.results r hr).mono hsub, ?_⟩
  · obtain rfl := Option.some.inj (hentry.symm.trans he')
    exact h.last e he
  · obtain rfl := Option.some.inj (hentry.symm.trans he')
    exact ⟨e, h.fresh e he hnew, rfl, rfl, hreq.symm⟩
  · obtain rfl := Option.some.inj (hentry.symm.trans he')
    exact absurd (hdone.symm.trans hnew') (by decide)
  · have hids := h.started_ids
    rw [waiting_of_running hrun] at hids
    rw [waiting_of_done hentry hdone]
    exact hids
  · rcases mem_append.mp hr with hold | hlast
    · exact h.finished r hold
    · rw [mem_singleton.mp hlast]
      exact ⟨hstarted, hj⟩
  · obtain rfl := Option.some.inj (hentry.symm.trans he')
    exact ⟨e, mem_append_right _ mem_cons_self, rfl, rfl⟩
  · have hids := h.returned_ids
    rw [he] at hids
    rw [hentry]
    exact hids
  · -- the job that ends is the last one that was taken up
    have hstart := congrArg length h.started_ids
    rw [waiting_of_running hrun, if_neg (by decide), length_map, length_range, Nat.sub_zero,
      ← h.last e he] at hstart
    have hids := h.finished_ids
    rw [hrun, if_pos (by rfl), hstart, Nat.add_sub_cancel] at hids
    show (s.finished ++ [(e, j)]).map _ = List.range s.started.length
    rw [map_append, hids, hstart, range_succ]
    rfl

theorem Inv.collect (p : P) {e : Entry P J} (hheld : s.held = false) (he : s.entry = some e)
    (hdone : done e.job = true) : Inv done req exec (s.collect p e) := by
  have hlast := h.last e he
  refine ⟨h.ids, fun e' he' => ?_, fun e' he' => absurd he' (by simp [Slot.collect]),
    fun e' he' => absurd he' (by simp [Slot.collect]),
    fun e' he' => absurd he' (by simp [Slot.collect]), ?_, h.started_own, h.finished,
    fun e' he' => absurd he' (by simp [Slot.collect]), ?_, fun r hr => ?_, h.finished_ids⟩
  · have hrun := (h.running e' he').1
    exact absurd (hheld.symm.trans hrun) (by decide)
  · have hids := h.started_ids
    rw [waiting_of_done he hdone] at hids
    exact hids
  · have hids := h.returned_ids
    rw [he, if_pos (by rfl)] at hids
    show (s.returned ++ [(p, e)]).map (fun r => r.2.id) = List.range s.accepted.length
    rw [map_append, hids, ← hlast, Nat.add_sub_cancel, range_succ]
    rfl
  · rcases mem_append.mp hr with hold | hlast
    · exact h.results r hold
    · rw [mem_singleton.mp hlast]
      exact h.done_after e he hdone

/-- **One step** keeps the invariant. -/
theorem Inv.step (hexec : ∀ j j', exec j j' → done j' = true ∧ req j' = req j)
    (hstep : Step done exec s t) : Inv done req exec t := by
  cases hstep with
  | same => exact h
  | hold hrun =>
    refine ⟨h.ids, fun e he => ?_, h.last, h.own, h.fresh, h.started_ids, h.started_own, h.finished,
      h.done_after, h.returned_ids, h.results, h.finished_ids⟩
    exact absurd (hrun.symm.trans he) (by simp)
  | accept hempty hnew => exact h.accept _ _ hempty hnew
  | start hheld hrun he hnew => exact h.start hheld hrun he hnew
  | finish hrun hj => exact h.finish hexec hrun hj
  | collect hheld he hdone => exact h.collect _ hheld he hdone

theorem Inv.runs (hexec : ∀ j j', exec j j' → done j' = true ∧ req j' = req j)
    (hruns : Runs done exec s t) : Inv done req exec t := by
  induction hruns with
  | refl => exact h
  | tail _ hstep ih => exact ih.step hexec hstep

end

/-- What is in the record of outcomes stays there. -/
theorem finished_subset (hruns : Runs done exec s t) : s.finished ⊆ t.finished := by
  induction hruns with
  | refl => exact fun _ hr => hr
  | tail _ hstep ih =>
    refine List.Subset.trans ih ?_
    cases hstep with
    | finish _ _ => exact subset_append_left _ _
    | same | hold _ | accept _ _ | start _ _ _ _ | collect _ _ _ => exact fun _ hr => hr

/-! ## The protocol -/

/-- What a slot guarantees: no job is lost or overwritten, each is executed at most once and as it
was submitted, is done only when it has been executed, and is returned at most once with what came
out. -/
structure Protocol (done : J → Bool) (req : J → R) (exec : J → J → Prop) (s : Slot P J) : Prop where
  numbered : (s.accepted.map Entry.id).Nodup
  kept : ∀ e ∈ s.accepted, (∃ e', s.entry = some e' ∧ Same req e e')
    ∨ ∃ r ∈ s.returned, r.2.id = e.id
  once : (s.started.map Entry.id).Nodup
  own : ∀ e ∈ s.started, e ∈ s.accepted
  executed : ∀ r ∈ s.finished, r.1 ∈ s.started ∧ exec r.1.job r.2
  executed_once : (s.finished.map fun r => r.1.id).Nodup
  done_after : ∀ e, s.entry = some e → done e.job = true → Finished s e
  returned_once : (s.returned.map fun r => r.2.id).Nodup
  results : ∀ r ∈ s.returned, Finished s r.2

theorem Inv.protocol (h : Inv done req exec s) : Protocol done req exec s := by
  have hnodup : (s.accepted.map Entry.id).Nodup := by
    rw [h.ids]
    exact nodup_range
  refine ⟨hnodup, fun e he => ?_, ?_, h.started_own, h.finished, ?_, h.done_after, ?_, h.results⟩
  · have hid : e.id < s.accepted.length := by
      rw [← mem_range, ← h.ids]
      exact mem_map_of_mem he
    have hret := h.returned_ids
    cases hentry : s.entry with
    | none =>
      rw [hentry] at hret
      have hmem : e.id ∈ s.returned.map fun r => r.2.id := by
        rw [hret]
        exact mem_range.mpr hid
      obtain ⟨r, hr, heq⟩ := mem_map.mp hmem
      exact .inr ⟨r, hr, heq⟩
    | some e' =>
      rw [hentry, if_pos (by rfl)] at hret
      by_cases hlt : e.id < s.accepted.length - 1
      · have hmem : e.id ∈ s.returned.map fun r => r.2.id := by
          rw [hret]
          exact mem_range.mpr hlt
        obtain ⟨r, hr, heq⟩ := mem_map.mp hmem
        exact .inr ⟨r, hr, heq⟩
      · -- the job with the last number is the one in the slot
        obtain ⟨e0, hmem, hsame⟩ := h.own e' hentry
        have hlast := h.last e' hentry
        have hsame_id : e0.id = e.id := by
          rw [hsame.id]
          omega
        obtain rfl := inj_on_of_nodup_map hnodup hmem he hsame_id
        exact .inl ⟨e', rfl, hsame⟩
  · rw [h.started_ids]
    exact nodup_range
  · rw [h.finished_ids]
    exact nodup_range
  · rw [h.returned_ids]
    exact nodup_range

end

/-! ## Two runs -/

section

variable (me : P) (done : J → Bool) (req : J → R)

/-- Two jobs that can differ in their outcome only, and not if they are mine. -/
structure AlikeEntry (e e' : Entry P J) : Prop where
  id : e.id = e'.id
  owner : e.owner = e'.owner
  done : done e.job = done e'.job
  req : req e.job = req e'.job
  mine : e.owner = me → e.job = e'.job

/-- Two slots that look the same to me. -/
structure Alike (s t : Slot P J) : Prop where
  held : s.held = t.held
  entry : Option.Rel (AlikeEntry me done req) s.entry t.entry
  running : Option.Rel (AlikeEntry me done req) s.running t.running
  count : s.accepted.length = t.accepted.length

end

section

variable {me : P} {done : J → Bool} {req : J → R} {s t : Slot P J}

theorem rel_cases {α : Type} {r : α → α → Prop} {a b : Option α} (h : Option.Rel r a b) :
    (a = none ∧ b = none) ∨ ∃ x y, a = some x ∧ b = some y ∧ r x y := by
  cases h with
  | none => exact .inl ⟨rfl, rfl⟩
  | some hxy => exact .inr ⟨_, _, rfl, rfl, hxy⟩

theorem alike_refl (s : Slot P J) : Alike me done req s s := by
  have hrefl : ∀ o : Option (Entry P J), Option.Rel (AlikeEntry me done req) o o := by
    intro o
    cases o with
    | none => exact .none
    | some e => exact .some ⟨rfl, rfl, rfl, rfl, fun _ => rfl⟩
  exact ⟨rfl, hrefl _, hrefl _, rfl⟩

section

variable (h : Alike me done req s t)

include h

theorem Alike.hold (b : Bool) : Alike me done req (s.hold b) (t.hold b) :=
  ⟨rfl, h.entry, h.running, h.count⟩

theorem Alike.accept (p : P) (j : J) : Alike me done req (s.accept p j) (t.accept p j) := by
  refine ⟨h.held, .some ⟨h.count, rfl, rfl, rfl, fun _ => rfl⟩, h.running, ?_⟩
  show (s.accepted ++ [_]).length = (t.accepted ++ [_]).length
  rw [length_append, length_append, h.count]

theorem Alike.start {e e' : Entry P J} (he : AlikeEntry me done req e e') :
    Alike me done req (s.start e) (t.start e') :=
  ⟨h.held, h.entry, .some he, h.count⟩

theorem Alike.collect (p : P) (e e' : Entry P J) :
    Alike me done req (s.collect p e) (t.collect p e') :=
  ⟨h.held, .none, h.running, h.count⟩

/-- A job of mine has to come out the same. -/
theorem Alike.finish {e e' : Entry P J} {j j' : J} (hs : s.entry = some e) (ht : t.entry = some e')
    (hdone : done j = done j') (hreq : req j = req j') (hmine : e.owner = me → j = j') :
    Alike me done req (s.finish e j) (t.finish e' j') := by
  refine ⟨h.held, ?_, .none, h.count⟩
  have hentry := h.entry
  rw [hs, ht] at hentry
  show Option.Rel _ (s.entry.map _) (t.entry.map _)
  rw [hs, ht]
  cases hentry with
  | some he => exact .some ⟨he.id, he.owner, hdone, hreq, hmine⟩

end

end

end

end HepOS.Handover
