/-
NVMe: does `nvmed` execute every request it is handed, and once?

`nvmed` stores `status` before it sets `op` back to 0. The kernel takes the status, may be back
with the next request at once, and stores its `op` in between: then `nvmed` clears the `op` of
a request it has never looked at. And when `nvmed` sees `stop` it leaves without looking at
`op`. Nothing else can go wrong. When no `op` is stored in between, every request is executed
exactly once and as it was asked for, and its status is the one the kernel takes; when
moreover no request is on its way while `nvmed` is being stopped, `nvmed` leaves none behind.
-/
import HepOS.Mailbox.Access

set_option autoImplicit false

namespace HepOS.Nvme

open Mailbox Trace List

variable {sector_size : ℕ}

/-! ## What is executed for what -/

/-- The transfers are those for the requests, one for each and in their order. -/
structure Matched (I : List (Request sector_size)) (E : List Exec) : Prop where
  length : E.length = I.length
  each : ∀ n e, E[n]? = some e → ∃ r, I[n]? = some r ∧ e.Is r ∧ e.serial = n + 1

theorem Matched.nil : Matched ([] : List (Request sector_size)) [] :=
  ⟨rfl, fun n e h => by simp at h⟩

theorem Matched.snoc {I : List (Request sector_size)} {E : List Exec} {r : Request sector_size}
    {e : Exec} (h : Matched I E) (his : e.Is r) (hserial : e.serial = (I ++ [r]).length) :
    Matched (I ++ [r]) (E ++ [e]) := by
  refine ⟨by rw [length_append, length_append, h.length]; rfl, ?_⟩
  intro n e' he'
  rcases Nat.lt_or_ge n E.length with hlt | hge
  · rw [List.getElem?_append_left hlt] at he'
    obtain ⟨r', hr', hprops⟩ := h.each n e' he'
    exact ⟨r', by rw [List.getElem?_append_left (h.length ▸ hlt)]; exact hr', hprops⟩
  · have hn : n < (E ++ [e]).length := List.getElem?_eq_some_iff.mp he' |>.1
    have hn' : n = E.length := by
      rw [length_append, length_singleton] at hn
      omega
    subst hn'
    rw [List.getElem?_concat_length] at he'
    cases he'
    refine ⟨r, by rw [h.length, List.getElem?_concat_length], his, ?_⟩
    rw [hserial, length_append, h.length]
    rfl

section

variable (s : State sector_size)

/-- What has been executed are the first of the requests that were handed over, each once and as
it was asked for; at most the last one is missing, and that one is still in the mailbox unless
the call is over; and every status the kernel took is the status of the request it took it
for. -/
structure Faithful : Prop where
  executed : ∀ n e, s.execs[n]? = some e → ∃ r, s.issued[n]? = some r ∧ e.Is r ∧ e.serial = n + 1
  kept : ∀ n r, s.issued[n]? = some r → s.execs.length ≤ n →
    n + 1 = s.issued.length ∧ s.mb.op = r.op
  finished : s.kernel = .idle → s.execs.length = s.issued.length
  taken : ∀ p ∈ s.consumed, ∃ e ∈ s.execs, e.serial = p.1 ∧ e.status = p.2

/-- Moreover `nvmed` has not left anything behind, and no call waits for it in vain. -/
structure Served : Prop extends Faithful s where
  left : s.driver = .exited → s.execs.length = s.issued.length
  waiting : s.driver = .exited → ∀ r k, s.kernel = .poll r k → s.mb.status ≠ .pending

/-! ## The invariant -/

/-- Everything that was handed over has been executed. -/
structure Settled (s : Service sector_size) : Prop where
  quiet : Quiet s
  matched : Matched s.issued s.execs

/-- Everything but the last request, which is in the mailbox or in the hands of `nvmed`. -/
def Pending (s : Service sector_size) (r : Request sector_size) : Prop :=
  ∃ I E, s.issued = I ++ [r] ∧ Matched I E ∧ (Waiting .nvme s r E ∨ Serving .nvme s r E)

/-- What holds at every place of a call. -/
def Place : Prop :=
  match s.kernel with
  | .poll r _ => Pending s.toService r ∨ (Settled s.toService ∧ ∃ E, Answered s.toService r E)
  | .reset _ false _ => Settled s.toService ∨ ∃ r, Pending s.toService r
  | .panicked => Settled s.toService ∨ ∃ r, Pending s.toService r
  | .reread _ => False
  | _ => Settled s.toService

structure Sound : Prop where
  filled : s.kernel.prepares → Prepared .nvme s
  place : Place s
  stopped : s.mb.stop = true → Settled s.toService
  exited : s.driver = .exited → s.mb.stop = true
  taken : ∀ p ∈ s.consumed, ∃ e ∈ s.execs, e.serial = p.1 ∧ e.status = p.2

end

section

variable {s v : Service sector_size} {a : Answer} {r : Request sector_size}

theorem Settled.driver_step (h : driver_step .nvme s a = some v) (hs : Settled s) : Settled v := by
  obtain ⟨hq, hun⟩ := hs.quiet.driver_step h
  refine ⟨hq, ?_⟩
  rw [(driver_frame h).issued, hun.execs]
  exact hs.matched

theorem Pending.not_quiet (hp : Pending s r) : ¬ Quiet s := by
  obtain ⟨I, E, -, -, hw | hs⟩ := hp
  · rintro (hd | ⟨-, hop⟩)
    · obtain hc | hc | hc := hw.driver
      all_goals rw [hd] at hc; exact absurd hc (by decide)
    · exact r.op_ne_idle (hw.op.symm.trans hop)
  · have hbusy : ¬ s.driver = .clear_op ∧ ¬ s.driver.comes ∧ ¬ s.driver = .exited := by
      obtain ⟨-, ⟨hd, -⟩ | ⟨hd, -⟩ | ⟨hd, -⟩ | ⟨e, hd, -⟩⟩ := hs
      all_goals rw [hd]; unfold Driver.comes; simp
    rintro (hd | ⟨hc | hd, -⟩)
    · exact hbusy.1 hd
    · exact hbusy.2.1 hc
    · exact hbusy.2.2 hd

/-- It has been executed or is the one that is missing. -/
theorem Pending.matched (hp : Pending s r) :
    Matched s.issued s.execs ∨ ∃ I, s.issued = I ++ [r] ∧ Matched I s.execs := by
  obtain ⟨I, E, hI, hmatch, hw | hs⟩ := hp
  · exact .inr ⟨I, hI, hw.execs.symm ▸ hmatch⟩
  · obtain ⟨-, ⟨-, ho⟩ | ⟨-, ho⟩ | ⟨-, ho⟩ | ⟨e, -, -, hdone⟩⟩ := hs
    · exact .inr ⟨I, hI, ho.execs.symm ▸ hmatch⟩
    · exact .inr ⟨I, hI, ho.execs.symm ▸ hmatch⟩
    · exact .inr ⟨I, hI, ho.execs.symm ▸ hmatch⟩
    · left
      rw [hI, hdone.execs]
      exact hmatch.snoc hdone.is (by rw [hdone.serial, hI])

theorem Pending.op (hp : Pending s r) : s.mb.op = r.op := by
  obtain ⟨I, E, -, -, hw | hs⟩ := hp
  · exact hw.op
  · exact hs.op

theorem Pending.status (hp : Pending s r) : s.mb.status = .pending := by
  obtain ⟨I, E, -, -, hw | hs⟩ := hp
  · exact hw.status
  · exact hs.status

theorem Settled.clear_status (hs : Settled s) :
    Settled { s with mb := { s.mb with status := .pending } } := ⟨hs.quiet, hs.matched⟩

/-- Clearing `status` does nothing to a request that has none yet. -/
theorem Pending.clear_status (hp : Pending s r) :
    Pending { s with mb := { s.mb with status := .pending } } r := by
  rw [← hp.status]
  exact hp

/-- The last request is executed and answered, unless `nvmed` is told to stop. -/
theorem Pending.driver_step (h : driver_step .nvme s a = some v) (hp : Pending s r)
    (hstop : s.mb.stop = false) : Pending v r ∨ (Settled v ∧ ∃ E, Answered v r E) := by
  have hissued := (driver_frame h).issued
  obtain ⟨I, E, hI, hmatch, hw | hs⟩ := hp
  · rcases hw.driver_step h with hw' | hs' | ⟨hstop', -⟩
    · exact .inl ⟨I, E, hissued.trans hI, hmatch, .inl hw'⟩
    · exact .inl ⟨I, E, hissued.trans hI, hmatch, .inr hs'⟩
    · exact absurd (hstop.symm.trans hstop') (by decide)
  · rcases hs.driver_step h with hs' | ha
    · exact .inl ⟨I, E, hissued.trans hI, hmatch, .inr hs'⟩
    · refine .inr ⟨⟨ha.quiet, ?_⟩, E, ha⟩
      obtain ⟨e, hdone, -⟩ := ha.done
      rw [hdone.execs, hissued, hI]
      refine hmatch.snoc hdone.is ?_
      rw [hdone.serial, hissued, hI]

end

section

variable {s t : State sector_size} {v : Service sector_size} {a : Answer}
  {r : Request sector_size}

theorem Place.cases (h : Place s) : Settled s.toService ∨ ∃ r, Pending s.toService r := by
  unfold Place at h
  split at h
  · rcases h with hp | ⟨hs, -⟩
    · exact .inr ⟨_, hp⟩
    · exact .inl hs
  · exact h
  · exact h
  · exact h.elim
  · exact .inl h

/-- While a request is filled in nothing else is under way. -/
theorem Place.settled (h : Place s) (hk : s.kernel.prepares) : Settled s.toService := by
  unfold Place at h
  split at h
  · rename_i hs; rw [hs] at hk; exact hk.elim
  · rename_i hs; rw [hs] at hk; exact hk.elim
  · rename_i hs; rw [hs] at hk; exact hk.elim
  · exact h.elim
  · exact h

theorem Place.of_settled (hk : s.kernel.prepares) (hs : Settled s.toService) : Place s := by
  unfold Place
  split
  all_goals first
    | exact hs
    | rename_i hk'; rw [hk'] at hk; exact hk.elim

/-- **One access of the driver.** -/
theorem Sound.driver_step (h : driver_step .nvme s.toService a = some v) (hs : Sound s) :
    Sound { s with toService := v } := by
  have hf := driver_frame h
  have hstop : ∀ r, Pending s.toService r → s.mb.stop = false := by
    intro r hp
    by_contra hne
    exact hp.not_quiet (hs.stopped (Bool.eq_true_of_not_eq_false hne)).quiet
  refine ⟨?_, ?_, ?_, ?_, ?_⟩
  · intro hk
    exact (hs.filled hk).driver_step (fun hk => (hs.place.settled hk).quiet) h
  · have hplace := hs.place
    have hnext : (Settled s.toService ∨ ∃ r, Pending s.toService r) →
        Settled v ∨ ∃ r, Pending v r := by
      rintro (hset | ⟨r, hp⟩)
      · exact .inl (hset.driver_step h)
      · exact (hp.driver_step h (hstop _ hp)).elim (fun hp' => .inr ⟨r, hp'⟩)
          (fun hset => .inl hset.1)
    unfold Place at hplace ⊢
    dsimp only
    split at hplace
    · rcases hplace with hp | ⟨hset, E, ha⟩
      · exact hp.driver_step h (hstop _ hp)
      · exact .inr ⟨hset.driver_step h, E, ha.driver_step h⟩
    · exact hnext hplace
    · exact hnext hplace
    · exact hplace
    · exact hplace.driver_step h
  · intro hstop'
    rw [hf.stop] at hstop'
    exact (hs.stopped hstop').driver_step h
  · intro hd
    rw [hf.stop]
    exact driver_exits h hd
  · intro p hp
    obtain ⟨e, he, hprops⟩ := hs.taken p hp
    obtain ⟨l, hl⟩ := driver_execs h
    exact ⟨e, by dsimp only; rw [hl]; exact mem_append_left _ he, hprops⟩

/-! ## Steps of the kernel -/

/-- Handing over a request, to an `nvmed` that is not about to clear `op` or to leave. -/
theorem Settled.store_op (hset : Settled s.toService) (hpre : Prepared .nvme s)
    (hk : s.kernel = .store_op r) (hdriver : s.driver ≠ .clear_op) (hexit : s.driver ≠ .exited) :
    Pending { s.toService with mb := { s.mb with op := r.op }, issued := s.issued ++ [r] } r := by
  unfold Prepared at hpre
  rw [hk] at hpre
  rcases hset.quiet.store_op hpre.1 hpre.2 rfl with hw | ⟨hd, -⟩ | ⟨hd, -⟩
  · exact ⟨_, _, rfl, hset.matched, .inl hw⟩
  · exact absurd hd hdriver
  · exact absurd hd hexit

/-- **One access of the kernel**, which does not store `op` while `nvmed` is about to clear it or
has been told to stop. -/
theorem Sound.kernel_step (h : kernel_step .nvme s = some t) (hs : Sound s)
    (hop : ∀ r, s.kernel = .store_op r → s.driver ≠ .clear_op ∧ s.mb.stop = false) : Sound t := by
  have hplace := hs.place
  unfold Place at hplace
  cases kernel_cases h with
  | direct r hk | wait r k hk hst | copy_out r hk =>
    rw [hk] at hplace
    exact ⟨fun h => h.elim, hplace, hs.stopped, hs.exited, hs.taken⟩
  -- the request is written while the mailbox is quiet
  | fill _ hk ht hfill hprep =>
    have hset := hs.place.settled hk
    have hset' : Settled t.toService :=
      ⟨hfill.quiet hset.quiet, by rw [hfill.issued, hfill.execs]; exact hset.matched⟩
    refine ⟨fun _ => hprep (hs.filled hk), Place.of_settled ht hset', fun _ => hset', ?_, ?_⟩
    · rw [hfill.driver, hfill.stop]
      exact hs.exited
    · rw [hfill.consumed, hfill.execs]
      exact hs.taken
  -- `op` is stored: the driver has not stopped and is not clearing it
  | hand_over r hk =>
    have hprep : s.kernel.prepares := by rw [hk]; trivial
    obtain ⟨hdriver, hstop⟩ := hop r hk
    have hexit : s.driver ≠ .exited :=
      fun hd => absurd (hstop.symm.trans (hs.exited hd)) (by decide)
    refine ⟨fun h => h.elim, .inl ?_, ?_, hs.exited, hs.taken⟩
    · exact (hs.place.settled hprep).store_op (hs.filled hprep) hk hdriver hexit
    · intro hstop'
      exact absurd (hstop.symm.trans hstop') (by decide)
  | give_up r hk =>
    exact ⟨fun h => h.elim, hs.place.cases, hs.stopped, hs.exited, hs.taken⟩
  | look r k hk hst hdisk => exact absurd hdisk (by decide)
  -- a status that is not zero is the one of the command just executed
  | take r hk =>
    rcases hk with hk | ⟨k, hk, hst⟩
    · rw [hk] at hplace
      exact hplace.elim
    rw [hk] at hplace
    rcases hplace with hp | ⟨hset, E, ha⟩
    · exact absurd hp.status hst
    obtain ⟨e, hdone, hstatus⟩ := ha.done
    refine ⟨?_, ?_, hs.stopped, hs.exited, ?_⟩
    · unfold State.decide_status
      split_ifs
      all_goals exact fun h => h.elim
    · unfold Place State.decide_status
      split_ifs
      · exact hset
      · exact hset
      · exact .inl hset
    · intro p hp
      rcases mem_append.mp hp with hold | hnew
      · exact hs.taken p hold
      · obtain rfl := mem_singleton.mp hnew
        refine ⟨e, ?_, hdone.serial, hstatus.symm⟩
        rw [State.decide_status, hdone.execs]
        exact mem_append_right _ mem_cons_self
  | reset r ok out hk =>
    rw [hk] at hplace
    have hstopped := fun h => (hs.stopped h).clear_status
    cases ok with
    | true =>
      exact ⟨fun h => h.elim, Settled.clear_status hplace, hstopped, hs.exited, hs.taken⟩
    | false =>
      refine ⟨fun h => h.elim, ?_, hstopped, hs.exited, hs.taken⟩
      rcases hplace with hset | ⟨r', hp⟩
      · exact .inl hset.clear_status
      · exact .inr ⟨r', hp.clear_status⟩

/-- **A call** that asks for something. -/
theorem Sound.call_step (h : call_step .nvme s r = some t) (hs : Sound s)
    (hasks : r.count ≠ 0) : Sound t := by
  obtain ⟨hidle, hcall⟩ := call_cases h
  have hplace := hs.place
  unfold Place at hplace
  rw [hidle] at hplace
  cases hcall with
  | refused _ => exact ⟨hs.filled, hs.place, hs.stopped, hs.exited, hs.taken⟩
  | direct => exact ⟨fun h => h.elim, hplace, hs.stopped, hs.exited, hs.taken⟩
  | mailbox _ _ =>
    have hreq : r.Asks .nvme := ⟨hasks, rfl⟩
    obtain ⟨hk, hpre⟩ := prepared_call hreq
    exact ⟨fun _ => hpre, Place.of_settled hk hplace, hs.stopped, hs.exited, hs.taken⟩

/-! ## Steps of `stop_service` -/

/-- `stop` is no part of a request. -/
theorem Prepared.set_stop (hp : Prepared .nvme s) :
    Prepared .nvme { s with mb := { s.mb with stop := true }, stopper := .stopping } := by
  unfold Prepared at hp ⊢
  dsimp only
  split at hp
  · exact hp
  · exact hp
  · exact hp
  · exact ⟨hp.asks, hp.lba, hp.count, hp.data⟩
  · exact ⟨⟨hp.1.asks, hp.1.lba, hp.1.count, hp.1.data⟩, hp.2⟩
  · exact trivial

/-- `stop` is stored when everything has been executed. -/
theorem Place.set_stop (hp : Place s) (hset : Settled s.toService) :
    Place { s with mb := { s.mb with stop := true }, stopper := .stopping } := by
  have hset' : Settled { s.toService with mb := { s.mb with stop := true } } :=
    ⟨hset.quiet, hset.matched⟩
  unfold Place at hp ⊢
  dsimp only
  split at hp
  · rcases hp with hp | ⟨-, E, ha⟩
    · exact absurd hset.quiet hp.not_quiet
    · obtain ⟨e, hdone, hst⟩ := ha.done
      refine .inr ⟨hset', E, hset'.quiet, e, ?_, hst⟩
      exact ⟨hdone.execs, hdone.is, hdone.serial, hdone.read⟩
  · exact .inl hset'
  · exact .inl hset'
  · exact hp
  · exact hset'

/-- **One step of `stop_service`**, which does not store `stop` while a request is under way. -/
theorem Sound.stop_step (h : stop_step s = some t) (hs : Sound s)
    (hquiet : s.stopper = .got → Quiet s.toService) : Sound t := by
  unfold Mailbox.stop_step at h
  split at h
  · split at h
    · cases h
      exact ⟨hs.filled, hs.place, hs.stopped, hs.exited, hs.taken⟩
    · simp at h
  · rename_i hgot
    have hset : Settled s.toService := by
      rcases hs.place.cases with hset | ⟨r, hp⟩
      · exact hset
      · exact absurd (hquiet hgot) hp.not_quiet
    cases h
    exact ⟨fun hk => Prepared.set_stop (hs.filled hk), hs.place.set_stop hset,
      fun _ => ⟨hset.quiet, hset.matched⟩, fun _ => rfl, hs.taken⟩
  · split at h
    · cases h
      exact ⟨hs.filled, hs.place, hs.stopped, hs.exited, hs.taken⟩
    · simp at h
  · simp at h

/-! ## Runs -/

theorem Sound.start : Sound (State.start sector_size) where
  filled h := h.elim
  place := ⟨.inr ⟨.inl (.inl rfl), rfl⟩, Matched.nil⟩
  stopped h := Bool.noConfusion h
  exited h := Driver.noConfusion h
  taken _ h := absurd h not_mem_nil

theorem Sound.matched (hs : Sound s) : Matched s.issued s.execs
      ∨ ∃ I r, s.issued = I ++ [r] ∧ Matched I s.execs ∧ s.mb.op = r.op := by
  rcases hs.place.cases with hset | ⟨r, hp⟩
  · exact .inl hset.matched
  · rcases hp.matched with hall | ⟨I, hI, hmatch⟩
    · exact .inl hall
    · exact .inr ⟨I, r, hI, hmatch, hp.op⟩

theorem Sound.faithful (hs : Sound s) : Faithful s where
  executed := by
    intro n e he
    rcases hs.matched with hall | ⟨I, r, hI, hmatch, -⟩
    · exact hall.each n e he
    · obtain ⟨r', hr', hprops⟩ := hmatch.each n e he
      have hlt := (List.getElem?_eq_some_iff.mp hr').1
      exact ⟨r', by rw [hI, List.getElem?_append_left hlt]; exact hr', hprops⟩
  kept := by
    intro n r hr hn
    have hlt := (List.getElem?_eq_some_iff.mp hr).1
    rcases hs.matched with hall | ⟨I, r', hI, hmatch, hop⟩
    · have hlen := hall.length
      omega
    · have hn' : n = I.length := by
        rw [hI, length_append, length_singleton] at hlt
        have hlen := hmatch.length
        omega
      rw [hI, hn', List.getElem?_concat_length] at hr
      rw [hI, length_append, hn', hop, Option.some.inj hr]
      exact ⟨rfl, rfl⟩
  finished := by
    intro hk
    have hplace := hs.place
    unfold Place at hplace
    rw [hk] at hplace
    exact hplace.matched.length
  taken := hs.taken

theorem Sound.served (hs : Sound s) : Served s where
  toFaithful := hs.faithful
  left hd := (hs.stopped (hs.exited hd)).matched.length
  waiting := by
    intro hd r k hk hst
    have hset := hs.stopped (hs.exited hd)
    have hplace := hs.place
    unfold Place at hplace
    rw [hk] at hplace
    rcases hplace with hp | ⟨-, E, ha⟩
    · exact hp.not_quiet hset.quiet
    · obtain ⟨e, -, hst'⟩ := ha.done
      exact e.status_ne_pending (hst'.symm.trans hst)

end

/-- A step in which a request asks for something and its `op` is not stored while `nvmed` is about
to clear the field, and in which `nvmed` is not being stopped. -/
structure NextAlone (s : State sector_size) (a : Label sector_size) (t : State sector_size) :
    Prop where
  next : Next .nvme s a t
  running : a ≠ .stop ∧ a ≠ .stop_timeout
  asks : ∀ r, a = .call r → r.count ≠ 0
  clear : ∀ r, a = .kernel → s.kernel = .store_op r → s.driver ≠ .clear_op

/-- The same with `nvmed` being stopped, when no `op` is stored once `stop` is, and `stop` is not
stored while a request is in the mailbox or in the hands of `nvmed`. -/
structure NextApart (s : State sector_size) (a : Label sector_size) (t : State sector_size) :
    Prop where
  next : Next .nvme s a t
  asks : ∀ r, a = .call r → r.count ≠ 0
  clear : ∀ r, a = .kernel → s.kernel = .store_op r → s.driver ≠ .clear_op ∧ s.mb.stop = false
  quiet : a = .stop → s.stopper = .got → Quiet s.toService

variable {s t : State sector_size}

/-- **Step.** -/
theorem Sound.step {a : Label sector_size} (hs : Sound s)
    (h : NextApart s a t) : Sound t := by
  have hnext := h.next
  unfold Next Mailbox.step at hnext
  cases a with
  | call r => exact hs.call_step hnext (h.asks r rfl)
  | kernel => exact hs.kernel_step hnext fun r hk => h.clear r rfl hk
  | driver b =>
    obtain ⟨v, hv, rfl⟩ := Option.map_eq_some_iff.mp hnext
    exact hs.driver_step hv
  | stop =>
    exact hs.stop_step hnext (h.quiet rfl)
  | stop_timeout =>
    dsimp only at hnext
    split at hnext
    · cases hnext
      exact ⟨hs.filled, hs.place, hs.stopped, hs.exited, hs.taken⟩
    · simp at hnext

theorem sound_of_apart {l : List (Label sector_size)}
    (h : Steps NextApart (State.start sector_size) l s) : Sound s :=
  h.keeps Sound.start fun _ _ _ hs ha => hs.step ha

/-- As long as nothing sets `stop`, the rest of the condition is met. -/
theorem steps_apart_of_alone {l : List (Label sector_size)}
    (h : Steps NextAlone s l t) (hstop : s.mb.stop = false) : Steps NextApart s l t := by
  induction h with
  | done s => exact .done s
  | next ha _ ih =>
    refine .next ⟨ha.next, ha.asks, fun r hk hop => ⟨ha.clear r hk hop, hstop⟩,
      fun hlabel => absurd hlabel ha.running.1⟩ (ih ?_)
    have hnext := ha.next
    rename_i a _ _
    cases a with
    | call r => exact (call_stop hnext).trans hstop
    | kernel => exact (kernel_stop hnext).trans hstop
    | driver b =>
      obtain ⟨u, hu, rfl⟩ := Option.map_eq_some_iff.mp hnext
      exact (driver_frame hu).stop.trans hstop
    | stop => exact absurd rfl ha.running.1
    | stop_timeout => exact absurd rfl ha.running.2

/-- **No lost request.** In every run in which no `op` is stored while `nvmed` is about to clear
the field, every request is executed exactly once and as it was asked for, stays in the mailbox
until then, and its status is the one the kernel takes for it. -/
theorem faithful_of_alone {l : List (Label sector_size)} {s : State sector_size}
    (h : Steps NextAlone (State.start sector_size) l s) : Faithful s :=
  (sound_of_apart (steps_apart_of_alone h rfl)).faithful

/-- **Nothing is left behind.** In every run in which moreover no `op` is stored once `stop` is,
and `stop` is not stored while a request is under way, `nvmed` leaves nothing in the mailbox
when it exits, and no call is waiting for it then. -/
theorem served_of_apart {l : List (Label sector_size)} {s : State sector_size}
    (h : Steps NextApart (State.start sector_size) l s) : Served s :=
  (sound_of_apart h).served

/-! ## A read that is served, one that is lost and one that is left behind -/

theorem NextAlone.driver {a : Answer}
    (h : Next .nvme s (.driver a) t) : NextAlone s (.driver a) t :=
  ⟨h, ⟨by simp, by simp⟩, by simp, by simp⟩

theorem NextAlone.kernel (h : Next .nvme s .kernel t)
    (hclear : ∀ r, s.kernel = .store_op r → s.driver ≠ .clear_op) : NextAlone s .kernel t :=
  ⟨h, ⟨by simp, by simp⟩, by simp, fun r _ => hclear r⟩

/-- Sector 5 has been read and returned; `nvmed` is about to clear `op`. -/
def read_five : State 512 :=
  { State.start 512 with
    mb := ⟨.read, .pending, 5, 1, overlay sector (List.replicate 4096 0), false⟩
    driver := .clear_op
    issued := [read_one 5]
    execs := [⟨1, false, 5, 1, sector, true⟩]
    consumed := [(1, .ok)]
    returns := [⟨1, read_one 5, true,
      (overlay sector (List.replicate 4096 0)).take (read_one 5).bytes.length⟩] }

/-- In this run `op` is stored while `nvmed` is idle. -/
theorem steps_read_five : ∃ l, Steps NextAlone (State.start 512) l read_five := by
  have hcall : NextAlone (State.start 512) (.call (read_one 5)) _ :=
    ⟨rfl, ⟨by simp, by simp⟩, fun r hr => by
      obtain rfl := Label.call.inj hr
      decide, by simp⟩
  have hfill : Steps NextAlone (State.start 512)
      (.call (read_one 5) :: List.replicate 4 .kernel ++ List.replicate 3 (.driver ⟨true, sector⟩))
      (taken_up 5 MAILBOX_WAIT_SPINS) := by
    refine .next hcall ?_
    iterate 4 refine .next (.kernel rfl fun _ _ h => Driver.noConfusion h) ?_
    exact .next (.driver rfl) (.next (.driver rfl) (.one (.driver rfl)))
  have hserve : Steps (Next .nvme) (taken_up 5 MAILBOX_WAIT_SPINS) _ _ :=
    steps_executed rfl length_sector
  have hexec := hserve.mono_of_mem fun v b w hb hstep => by
      obtain rfl := eq_of_mem_replicate hb
      exact NextAlone.driver hstep
  have htake : Steps NextAlone (executed .nvme (taken_up 5 MAILBOX_WAIT_SPINS) 5 1 sector)
      (List.replicate 3 .kernel) read_five := by
    refine .next (.kernel rfl fun _ h => nomatch h) ?_
    refine .next (.kernel rfl fun _ h => nomatch h) ?_
    exact .one (.kernel rfl fun _ h => nomatch h)
  exact ⟨_, (hfill.append hexec).append htake⟩

/-- The witness: one read, handed over, executed and returned. -/
theorem faithful_of_alone_read :
    ∃ l s, Steps NextAlone (State.start 512) l s ∧ Faithful s ∧ s.returns.length = 1 := by
  obtain ⟨l, hl⟩ := steps_read_five
  exact ⟨l, _, hl, faithful_of_alone hl, rfl⟩

/-- **A lost request.** The request for sector 9 is handed over right after sector 5 was returned;
`nvmed` clears its `op` without having looked at it. -/
theorem nvmed_clears_next_op :
    ∃ l s, Steps (Next .nvme) (State.start 512) l s ∧ (∀ a ∈ l, a ≠ .stop ∧ a ≠ .stop_timeout)
      ∧ ¬ Faithful s := by
  obtain ⟨l, hl⟩ := steps_read_five
  have hlost : Steps (Next .nvme) read_five
      (.call (read_one 9) :: List.replicate 4 .kernel ++ [.driver ⟨true, []⟩])
      { read_five with
        mb := ⟨.idle, .pending, 9, 1, overlay sector (List.replicate 4096 0), false⟩
        driver := .rest
        issued := [read_one 5, read_one 9]
        kernel := .poll (read_one 9) MAILBOX_WAIT_SPINS } := .of_run _ rfl
  refine ⟨_, _, (hl.mono fun _ _ _ h => h.next).append hlost, ?_, ?_⟩
  · intro a ha
    rcases mem_append.mp ha with ha | ha
    · exact hl.labels (fun _ _ _ h => h.running) a ha
    · simp only [mem_append, mem_cons, mem_replicate, not_mem_nil, or_false] at ha
      rcases ha with (rfl | ⟨-, rfl⟩) | rfl
      all_goals exact ⟨by simp, by simp⟩
  · intro hf
    have hkept := (hf.kept 1 (read_one 9) rfl (le_refl _)).2
    exact absurd hkept (by decide)

/-- The witness: sector 5 is read, then `nvmed` is stopped, and sector 9 is read directly. -/
theorem served_of_apart_stopped : ∃ l s, Steps NextApart (State.start 512) l s ∧ Served s
    ∧ s.driver = .exited
      ∧ s.issued = [read_one 5] ∧ s.direct = [read_one 9] := by
  obtain ⟨l, hl⟩ := steps_read_five
  have hdriver : ∀ {s t : State 512}, Next .nvme s (.driver ⟨true, []⟩) t →
      NextApart s (.driver ⟨true, []⟩) t := fun h => ⟨h, by simp, by simp, by simp⟩
  have hstop : ∀ {s t : State 512}, Next .nvme s .stop t →
      (s.stopper = .got → Quiet s.toService) → NextApart s .stop t :=
    fun h hq => ⟨h, by simp, by simp, fun _ => hq⟩
  have hend : Steps NextApart read_five
      [.driver ⟨true, []⟩, .driver ⟨true, []⟩, .stop, .stop, .driver ⟨true, []⟩, .stop,
        .call (read_one 9), .kernel]
      { read_five with
        mb := { read_five.mb with op := .idle, stop := true }
        driver := .exited
        active := false
        direct := [read_one 9] } := by
    refine .next (hdriver rfl) (.next (hdriver rfl) ?_)
    refine .next (hstop rfl fun h => Stopper.noConfusion h) ?_
    refine .next (hstop rfl fun _ => .inr ⟨.inl (.inl rfl), rfl⟩) ?_
    refine .next (hdriver rfl) ?_
    refine .next (hstop rfl fun h => Stopper.noConfusion h) ?_
    refine .next ⟨rfl, fun r hr => ?_, by simp, by simp⟩ ?_
    · obtain rfl := Label.call.inj hr
      decide
    · exact .one ⟨rfl, by simp, fun r _ h => (nomatch h), by simp⟩
  have hall := (steps_apart_of_alone hl rfl).append hend
  exact ⟨_, _, hall, served_of_apart hall, rfl, rfl, rfl⟩

/-- **A request that is left behind.** `stop` is stored, then a request, and `nvmed` leaves without
looking at it; the call waits to the end and fails its assertion. -/
theorem nvmed_leaves_request : ∃ l s, Steps (Next .nvme) (State.start 512) l s
    ∧ s.kernel = .panicked
      ∧ s.issued = [read_one 5] ∧ s.execs = [] ∧ s.direct = [] ∧ ¬ Served s := by
  let left (k : ℕ) : State 512 :=
    { State.start 512 with
      mb := ⟨.read, .pending, 5, 1, List.replicate 4096 0, true⟩
      driver := .exited
      issued := [read_one 5]
      kernel := .poll (read_one 5) k
      stopper := .stopping }
  have hleft : Steps (Next .nvme) (State.start 512)
      (.stop :: .stop :: .call (read_one 5) :: List.replicate 4 .kernel ++ [.driver ⟨true, []⟩])
      (left MAILBOX_WAIT_SPINS) := .of_run _ rfl
  have hpolls : Steps (Next .nvme) (left MAILBOX_WAIT_SPINS) _ (left 0) :=
    Steps.countdown (a := .kernel) (fun _ => rfl) _
  have hend : Steps (Next .nvme) (left 0) [.kernel, .kernel] { left 0 with kernel := .panicked } :=
    .of_run _ rfl
  refine ⟨_, _, (hleft.append hpolls).append hend, rfl, rfl, rfl, rfl, ?_⟩
  intro hs
  exact absurd (hs.left rfl) (by decide)

end HepOS.Nvme
