/-
AHCI: is the answer of `ahcid` an answer to the call that takes it?

A call of `read_sectors` or `write_sectors` that gives up returns `false` and leaves its
request in the mailbox, or in the hands of `ahcid`. There is nothing in the mailbox that says
which request a status belongs to, so the next call can take the answer to the one before for
its own. As long as a call is made only when nothing of an earlier one is left, which is so
when no earlier call gave up, a call that returns `true` does so because its request was
executed, and a read copies out what the disk returned for it. A command has 48 bits for the
sector, which nobody checks, so the calls must keep to the sectors below 2^48.
-/
import HepOS.Mailbox.Access

set_option autoImplicit false

namespace HepOS.Ahci

open Mailbox Trace List

variable {sector_size : ℕ} (s : State sector_size)

/-! ## What a true answer means -/

/-- The hardware has done the request with the number `n`, successfully, and what the call
copied out is what it returned. -/
structure Genuine (execs : List Exec) (n : ℕ) (r : Request sector_size) (out : List UInt8)
    (e : Exec) : Prop where
  mem : e ∈ execs
  serial : e.serial = n
  is : e.Is r
  ok : e.ok = true
  read : r.write = false → out = e.data

/-- Every call that returned `true` did so for its own request. -/
def Returned : Prop :=
  ∀ ret ∈ s.returns, ret.ok = true → ∃ e, Genuine s.execs ret.serial ret.request ret.out e

/-- The request stands in the mailbox, is worked on, is answered, or has been lost. -/
def Underway (s : Service sector_size) (r : Request sector_size) : Prop :=
  ∃ E, Waiting .ahci s r E ∨ Serving .ahci s r E ∨ Answered s r E ∨ Racing .ahci s r E
    ∨ Lost .ahci s r E
    ∨ Abandoned .ahci s r E

/-- What is known of the answer at every place of a call. Nothing is known of a call that has
given up. -/
def Progress : Prop :=
  match s.kernel with
  | .poll r _ => Underway s.toService r
  | .reread r => ∃ E, Answered s.toService r E
  | .copy_out r => Quiet s.toService ∧ ∃ E e, Done s.toService r E e ∧ e.ok = true
  | .reset r true out => ∃ e, Genuine s.execs s.issued.length r out e
  | _ => True

structure Phase : Prop where
  filled : s.kernel.prepares → Quiet s.toService ∧ Prepared .ahci s
  progress : Progress s

/-! ## Steps of the driver -/

section

variable {s v : Service sector_size} {a : Answer} {r : Request sector_size} {E : List Exec}

theorem Genuine.append {execs l : List Exec} {n : ℕ} {out : List UInt8} {e : Exec}
    (h : Genuine execs n r out e) : Genuine (execs ++ l) n r out e :=
  ⟨mem_append_left _ h.mem, h.serial, h.is, h.ok, h.read⟩

theorem Underway.driver_step (h : driver_step .ahci s a = some v) (hu : Underway s r) :
    Underway v r := by
  obtain ⟨E, hw | hs | ha | hr | hl | hb⟩ := hu
  · rcases hw.driver_step h with hw' | hs' | ⟨-, hb'⟩
    · exact ⟨E, .inl hw'⟩
    · exact ⟨E, .inr (.inl hs')⟩
    · exact ⟨E, .inr (.inr (.inr (.inr (.inr hb'))))⟩
  · rcases hs.driver_step h with hs' | ha'
    · exact ⟨E, .inr (.inl hs')⟩
    · exact ⟨E, .inr (.inr (.inl ha'))⟩
  · exact ⟨E, .inr (.inr (.inl (ha.driver_step h)))⟩
  · exact ⟨E, .inr (.inr (.inr (.inr (.inl (hr.driver_step h)))))⟩
  · exact ⟨E, .inr (.inr (.inr (.inr (.inl (hl.driver_step h)))))⟩
  · exact absurd hb.driver (driver_exited h)

/-- The answer is there exactly when `status` says so. -/
theorem Underway.answered (hu : Underway s r) (hst : s.mb.status ≠ .pending) :
    ∃ E, Answered s r E := by
  obtain ⟨E, hw | hs | ha | hr | hl | hb⟩ := hu
  · exact absurd hw.status hst
  · exact absurd hs.status hst
  · exact ⟨E, ha⟩
  · exact absurd hr.status hst
  · exact absurd hl.status hst
  · exact absurd hb.status hst

theorem Done.driver_step {e : Exec} (h : driver_step .ahci s a = some v) (hun : Untouched s v)
    (hdone : Done s r E e) : Done v r E e :=
  ⟨hun.execs.trans hdone.execs, hdone.is, by rw [(driver_frame h).issued]; exact hdone.serial,
    fun hw => by rw [hun.data]; exact hdone.read hw⟩

end

section

variable {s t : State sector_size} {v : Service sector_size} {a : Answer}
  {r : Request sector_size}

/-- While a request is filled in there is nothing to be known of the answer. -/
theorem Phase.of_prepared (hk : s.kernel.prepares) (hq : Quiet s.toService)
    (hp : Prepared .ahci s) : Phase s := by
  refine ⟨fun _ => ⟨hq, hp⟩, ?_⟩
  unfold Progress
  split
  all_goals first
    | trivial
    | rename_i hs; rw [hs] at hk; exact hk.elim

/-- **One access of the driver.** -/
theorem Phase.driver_step (h : driver_step .ahci s.toService a = some v) (hp : Phase s) :
    Phase { s with toService := v } := by
  by_cases hprep : s.kernel.prepares
  · obtain ⟨hq, hpre⟩ := hp.filled hprep
    exact Phase.of_prepared hprep (hq.driver_step h).1 (hpre.driver_step (fun _ => hq) h)
  refine ⟨fun hk => absurd hk hprep, ?_⟩
  have hprog := hp.progress
  unfold Progress at hprog ⊢
  split at hprog
  · rename_i hk
    simp only [hk]
    exact Underway.driver_step h hprog
  · rename_i hk
    simp only [hk]
    obtain ⟨E, ha⟩ := hprog
    exact ⟨E, ha.driver_step h⟩
  · rename_i hk
    simp only [hk]
    obtain ⟨hq, E, e, hdone, hok⟩ := hprog
    obtain ⟨hq', hun⟩ := hq.driver_step h
    exact ⟨hq', E, e, Done.driver_step h hun hdone, hok⟩
  · rename_i hk
    simp only [hk]
    obtain ⟨e, hgen⟩ := hprog
    obtain ⟨l, hl⟩ := driver_execs h
    rw [hl, (driver_frame h).issued]
    exact ⟨e, hgen.append⟩
  · exact trivial

theorem Returned.driver_step (h : driver_step .ahci s.toService a = some v) (hr : Returned s) :
    Returned { s with toService := v } := by
  obtain ⟨l, hl⟩ := driver_execs h
  intro ret hmem hok
  obtain ⟨e, hgen⟩ := hr ret hmem hok
  exact ⟨e, by dsimp only; rw [hl]; exact hgen.append⟩

/-! ## Steps of the kernel -/

theorem Phase.decide_status {E : List Exec} (ha : Answered s.toService r E) :
    Phase (s.decide_status r s.mb.status) := by
  obtain ⟨hq, e, hdone, hst⟩ := ha
  unfold State.decide_status
  by_cases hok : s.mb.status = .ok
  · have hok' : e.ok = true := by
      rw [hst] at hok
      unfold Exec.status at hok
      split at hok
      · assumption
      · exact absurd hok (by decide)
    cases hw : r.write with
    | true =>
      rw [if_pos hok, if_pos rfl]
      refine ⟨fun h => h.elim, e, by rw [hdone.execs]; simp, hdone.serial, hdone.is, hok', ?_⟩
      intro hw'
      rw [hw] at hw'
      exact absurd hw' (by decide)
    | false =>
      rw [if_pos hok, if_neg (by decide)]
      exact ⟨fun h => h.elim, hq, E, e, hdone, hok'⟩
  · rw [if_neg hok]
    exact ⟨fun h => h.elim, trivial⟩

/-- **One access of the kernel.** Only the last one of a call can add to what was returned, and
when it returns `true` it has taken the answer to its request. -/
theorem Phase.kernel_step (h : kernel_step .ahci s = some t) (hp : Phase s) (hr : Returned s) :
    Phase t ∧ Returned t := by
  have hprog := hp.progress
  unfold Progress at hprog
  cases kernel_cases h with
  | direct r hk | give_up r hk => exact ⟨⟨fun h => h.elim, trivial⟩, hr⟩
  | fill _ hs ht hfill hprep =>
    obtain ⟨hq, hpre⟩ := hp.filled hs
    refine ⟨Phase.of_prepared ht (hfill.quiet hq) (hprep hpre), ?_⟩
    unfold Returned
    rw [hfill.returns, hfill.execs]
    exact hr
  | hand_over r hk =>
    obtain ⟨hq, hpre⟩ := hp.filled (by rw [hk]; trivial)
    unfold Prepared at hpre
    rw [hk] at hpre
    refine ⟨⟨fun h => h.elim, ?_⟩, hr⟩
    -- a race can lose the request, but not get it a wrong answer
    rcases hq.store_op hpre.1 hpre.2 rfl with hw | ⟨-, hrace⟩ | ⟨-, hb⟩
    · exact ⟨_, .inl hw⟩
    · exact ⟨_, .inr (.inr (.inr (.inl hrace)))⟩
    · exact ⟨_, .inr (.inr (.inr (.inr (.inr hb))))⟩
  | wait r k hk hst =>
    rw [hk] at hprog
    exact ⟨⟨fun h => h.elim, hprog⟩, hr⟩
  | look r k hk hst _ =>
    rw [hk] at hprog
    exact ⟨⟨fun h => h.elim, Underway.answered hprog hst⟩, hr⟩
  | take r hk =>
    refine ⟨?_, hr⟩
    rcases hk with hk | ⟨k, hk, hst⟩
    · rw [hk] at hprog
      obtain ⟨E, ha⟩ := hprog
      exact Phase.decide_status ha
    · rw [hk] at hprog
      obtain ⟨E, ha⟩ := Underway.answered hprog hst
      exact Phase.decide_status ha
  | copy_out r hk =>
    rw [hk] at hprog
    obtain ⟨-, E, e, hdone, hok⟩ := hprog
    refine ⟨⟨fun h => h.elim, e, ?_, hdone.serial, hdone.is, hok, hdone.read⟩, hr⟩
    rw [hdone.execs]
    exact mem_append_right _ mem_cons_self
  | reset r ok out hk =>
    unfold State.return_from
    rw [if_neg (fun h => absurd h.2 (by decide))]
    refine ⟨⟨fun h => h.elim, trivial⟩, ?_⟩
    intro ret hmem hok
    rcases mem_append.mp hmem with hold | hnew
    · exact hr ret hold hok
    · obtain rfl := mem_singleton.mp hnew
      have hok' : ok = true := hok
      rw [hk, hok'] at hprog
      exact hprog

/-- **A call**, made when nothing of an earlier request is left. -/
theorem Phase.call_step (h : call_step .ahci s r = some t) (hq : Quiet s.toService)
    (hlba : r.lba.toNat < 2 ^ 48) (hp : Phase s) (hr : Returned s) : Phase t ∧ Returned t := by
  obtain ⟨hidle, hcall⟩ := call_cases h
  cases hcall with
  | refused hempty =>
    refine ⟨⟨hp.filled, hp.progress⟩, ?_⟩
    intro ret hmem hok
    rcases mem_append.mp hmem with hold | hnew
    · exact hr ret hold hok
    · obtain rfl := mem_singleton.mp hnew
      exact Bool.noConfusion hok
  | direct => exact ⟨⟨fun h => h.elim, trivial⟩, hr⟩
  | mailbox hasks _ =>
    obtain ⟨hk, hpre⟩ := prepared_call ⟨hasks rfl, first_ahci hlba⟩
    exact ⟨Phase.of_prepared hk hq hpre, hr⟩

end

/-! ## Runs -/

/-- A step in which a call is made only when `ahcid` has nothing left to do for an earlier one
(nothing is in the mailbox and nothing is being worked on), and for a sector the command can
name. -/
def NextUnhurried (s : State sector_size) (a : Label sector_size) (t : State sector_size) : Prop :=
  Next .ahci s a t ∧ ∀ r, a = .call r → Quiet s.toService ∧ r.lba.toNat < 2 ^ 48

/-- The call that polls takes what `ahcid` has just reported. -/
theorem steps_answered {s : State sector_size} {lba : UInt64} {n k : ℕ} {r : Request sector_size}
    {b : List UInt8} (hread : r.write = false) (hlen : b.length = sectors s.mb.count * sector_size)
    (hdriver : s.driver = .read_count false lba n) (hkernel : s.kernel = .poll r (k + 1)) :
    ∃ t, Steps (Next .ahci) s (List.replicate 3 (.driver ⟨true, b⟩) ++ List.replicate 4 .kernel) t
      ∧ t.execs = s.execs ++ [⟨n, false, Disk.ahci.first lba, sectors s.mb.count, b, true⟩]
      ∧ t.returns = s.returns ++
        [⟨s.issued.length, r, true, (overlay b s.mb.data).take r.bytes.length⟩] := by
  obtain ⟨⟨mb, driver, issued, execs⟩, kernel, stopper, active, consumed, returns, direct⟩ := s
  obtain ⟨write, lba1, count1, bytes, hbytes, hfits⟩ := r
  subst hread hkernel
  have htake : Steps (Next .ahci) (executed .ahci ⟨⟨mb, driver, issued, execs⟩,
      .poll ⟨false, lba1, count1, bytes, hbytes, hfits⟩ (k + 1), stopper, active, consumed, returns,
      direct⟩ lba n b) (List.replicate 4 .kernel) _ := .of_run _ rfl
  exact ⟨_, (steps_executed hdriver hlen).append htake, rfl, rfl⟩

/-- The sector `ahcid` has read the `lba` of is not the one that is asked for now: the first call
has given up and the second one has handed over its request. -/
def overtaken : State 512 :=
  { State.start 512 with
    mb := ⟨.read, .pending, 9, 1, List.replicate 4096 0, false⟩
    driver := .read_count false 5 1
    issued := [read_one 5, read_one 9]
    kernel := .poll (read_one 9) MAILBOX_WAIT_SPINS
    returns := [⟨1, read_one 5, false, []⟩] }

theorem steps_overtaken : ∃ l, Steps (Next .ahci) (State.start 512) l overtaken := by
  -- 500000000 polls find nothing, and the first call returns `false`
  have hpolls : Steps (Next .ahci) (taken_up 5 MAILBOX_WAIT_SPINS) _ (taken_up 5 0) :=
    Steps.countdown (a := .kernel) (fun _ => rfl) _
  have hnext : Steps (Next .ahci) (taken_up 5 0)
      (.kernel :: .kernel :: .call (read_one 9) :: List.replicate 4 .kernel)
      overtaken := .of_run _ rfl
  exact ⟨_, ((steps_taken_up .ahci 5 ⟨true, []⟩).append hpolls).append hnext⟩

/-- **A sector out of reach.** A call for sector 2^48 + 5, the first of all, returns `true` with
what the disk has in sector 5. -/
theorem read_sectors_cuts_lba : ∃ l s, Steps (Next .ahci) (State.start 512) l s
    ∧ s.execs = [⟨1, false, 5, 1, sector, true⟩]
    ∧ s.returns = [⟨1, read_one 281474976710661, true, sector⟩] := by
  obtain ⟨t, hend, hexecs, hret⟩ :=
    steps_answered (s := taken_up 281474976710661 MAILBOX_WAIT_SPINS)
    rfl length_sector rfl rfl
  have hlen : (read_one 281474976710661).bytes.length = sector.length :=
    length_replicate.trans length_sector.symm
  refine ⟨_, t, (steps_taken_up .ahci 281474976710661 ⟨true, sector⟩).append hend, ?_, ?_⟩
  · rw [hexecs, show Disk.ahci.first 281474976710661 = 5 by decide]
    rfl
  · rw [hret, hlen, take_overlay]
    rfl

end HepOS.Ahci
