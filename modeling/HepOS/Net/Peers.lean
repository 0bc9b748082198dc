/-
Who can end a network job.

A frame is a job's own when it comes from the host and the ports that the job was started with, or
is an ICMP error that quotes a packet of the job (`Own`). Any other frame should leave the job
alone, and what the job will come to as well: with the frame or without it, the rest of the frames
gives the same result.

It does, with three exceptions (`Mistaken`). A ping takes an echo reply with its sequence number
from anybody; the sequence numbers are counted up from 0. A TCP job takes every ICMP "unreachable".
A UDP job keeps only its own port, and takes any datagram for it. The fourth is the request that
stops the kernel.

The rest of the argument is that nothing else of the state matters for a result: frames that were
sent, and the last echo reply except for whether it is the one waited for (`Agree`).
-/
import HepOS.Net.Safety

set_option autoImplicit false

namespace HepOS.Net

open Hoare List

variable {s s' t : NetState} {job : NetJob} {f : List UInt8} {seg : Segment}

/-! ## Runs of frames -/

/-- The loop of `poll`: frames for the job until it is done. -/
def poll_frames (job : NetJob) : List (List UInt8) → NetM (Option String × NetJob)
  | [] => pure (none, job)
  | f :: rest => do
    let (out, job) ← process_frame job f
    match out with
    | .Pending => poll_frames job rest
    | .Done msg => pure (some msg, job)
    | .Replace new => poll_frames new rest

/-- What becomes of the job: its result, if it is done, and the job; nothing if the kernel stops. -/
def outcome (job : NetJob) (frames : List (List UInt8)) (s : NetState) :
    Option (Option String × NetJob) :=
  match poll_frames job frames s with
  | .ok r _ => some r
  | .error _ _ => none

/-- The jobs that the commands start. `PING_REPLY` is cleared first. -/
def start_ping (target : Ip) : NetM NetJob := do
  modify fun s => { s with ping_reply := none }
  let s ← get
  let seq := s.ping_seq
  modify fun s => { s with ping_seq := s.ping_seq + 1 }
  let icmp := fun ck : UInt16 =>
    [8, 0] ++ bytes16 ck ++ [0, 1] ++ bytes16 seq
      ++ [0x48, 0x65, 0x70, 0x4F, 0x53, 0x21, 0x20, 0x20]
  ip_send target GW_MAC 1 (icmp (ip_checksum (icmp 0)))
  let deadline ← tsc_deadline 250
  pure (.Ping target seq deadline)

/-- Where a command goes: to an address, or to a name that has to be resolved first. -/
inductive Host
  | addr (ip : Ip)
  | name (hostname : String)

/-- `start_wget` and `start_udp_cmd`. -/
def start_job (next : NextAction) : Host → NetM NetJob
  | .addr ip => build_next next ip
  | .name hostname => build_resolve_job hostname next

/-- A job that has been started and has not come to its end, after any frames. -/
inductive UnderWay : NetState → NetJob → Prop
  | ping {s s' : NetState} {target : Ip} {job : NetJob}
    (h : start_ping target s = .ok job s') : UnderWay s' job
  | started {s s' : NetState} {next : NextAction} {host : Host} {job : NetJob}
    (h : start_job next host s = .ok job s') :
      UnderWay s' job
  | frame {s s' : NetState} {job job' : NetJob} {f : List UInt8} (hjob : UnderWay s job)
      (h : process_frame job f s = .ok (.Pending, job') s') : UnderWay s' job'
  | replaced {s s' : NetState} {job old new : NetJob} {f : List UInt8} (hjob : UnderWay s job)
      (h : process_frame job f s = .ok (.Replace new, old) s') : UnderWay s' new

/-! ## Own frames -/

/-- The ports of a packet: the first two words behind the header. -/
def ports (f : List UInt8) : UInt16 × UInt16 := (word (body f) 0, word (body f) 2)

/-- The packet that an ICMP error quotes, behind its own eight bytes. -/
def quoted (f : List UInt8) : List UInt8 := (body f).drop 8

/-- The quoted packet is a segment that the job sent. -/
def Quotes (job : TcpJob) (f : List UInt8) : Prop :=
  20 ≤ (quoted f).length ∧ (quoted f).getD 9 0 = 6 ∧ addr (quoted f) 12 = MY_IP
    ∧ addr (quoted f) 16 = job.ip
    ∧ word ((quoted f).drop (ihl_of ((quoted f).getD 0 0))) 0 = job.src_port
    ∧ word ((quoted f).drop (ihl_of ((quoted f).getD 0 0))) 2 = job.port

instance (job : TcpJob) (f : List UInt8) : Decidable (Quotes job f) :=
  inferInstanceAs (Decidable (_ ∧ _ ∧ _ ∧ _ ∧ _ ∧ _))

/-- The frame comes from where the job was started to go, or is an error about it. -/
def Own : NetJob → List UInt8 → Prop
  | .Ping target _ _, f => IsIp f ∧ ip_src f = target
  | .Resolve _ dns_ip src_port _ _ _, f =>
    IsIp f ∧ proto f = 17 ∧ ip_src f = dns_ip ∧ ports f = (53, src_port)
  | .Tcp job, f => IsIp f ∧ ((proto f = 6 ∧ ip_src f = job.ip ∧ ports f = (job.port, job.src_port))
      ∨ (proto f = 1 ∧ Quotes job f))
  | .Udp ip port src_port _, f => IsIp f ∧ proto f = 17 ∧ ip_src f = ip ∧ ports f = (port, src_port)

/-- The frames that a job takes for its own without a look at where they come from. -/
def Mistaken : NetJob → List UInt8 → Prop
  | .Ping _ seq _, f => IsIp f ∧ IcmpForUs f ∧ (EchoReply (body f) seq ∨ ShortRequest (body f))
  | .Resolve _ _ _ _ _ _, _ => False
  | .Tcp _, f => IsIp f ∧ Unreachable f
  | .Udp _ _ src_port _, f => IsIp f ∧ Datagram f src_port

/-! ## What a result depends on -/

/-- Two states that a job cannot tell apart. -/
def Agree (job : NetJob) (s t : NetState) : Prop :=
  quiet s = quiet t ∧ ∀ target seq deadline, job = .Ping target seq deadline →
    (s.ping_reply = some seq ↔ t.ping_reply = some seq)

/-- The program does the same from states that differ in what was sent and in the last echo
reply. -/
def Blind {α : Type} (x : NetM α) : Prop := ∀ s t, quiet s = quiet t →
  (∃ a s' t', x s = .ok a s' ∧ x t = .ok a t' ∧ quiet s' = quiet t')
    ∨ ∃ s' t', x s = .error .panic s' ∧ x t = .error .panic t'

section

variable {α β : Type} {x : NetM α} {f : α → NetM β}

theorem Blind.pure (a : α) : Blind (Pure.pure a : NetM α) :=
  fun s t h => .inl ⟨a, s, t, rfl, rfl, h⟩

theorem Blind.bind (hx : Blind x) (hf : ∀ a, Blind (f a)) : Blind (x >>= f) := by
  intro s t h
  rcases hx s t h with ⟨a, s1, t1, hs, ht, h1⟩ | ⟨s1, t1, hs, ht⟩
  · rw [bind_of_ok hs, bind_of_ok ht]
    exact hf a s1 t1 h1
  · exact .inr ⟨s1, t1, bind_of_error hs, bind_of_error ht⟩

end

theorem quiet_eq_iff : quiet s = quiet t ↔ s.nic = t.nic ∧ s.ping_seq = t.ping_seq
    ∧ s.next_src_port = t.next_src_port ∧ s.tsc_per_ms = t.tsc_per_ms ∧ s.tsc = t.tsc := by
  rw [NetState.mk.injEq]
  exact ⟨fun ⟨hnic, _, hping, hport, hper, htsc, _⟩ => ⟨hnic, hping, hport, hper, htsc⟩,
    fun ⟨hnic, hping, hport, hper, htsc⟩ => ⟨hnic, rfl, hping, hport, hper, htsc, rfl⟩⟩

theorem quiet_sent (s : NetState) (g : List UInt8) :
    quiet (if s.nic.isSome then { s with sent := s.sent ++ [g] } else s) = quiet s := by
  split_ifs
  · rfl
  · rfl

theorem blind_eth_send (dst : Mac) (etype : UInt16) (payload : List UInt8) :
    Blind (eth_send dst etype payload) := by
  intro s t h
  refine .inl ⟨(), _, _, rfl, rfl, ?_⟩
  rw [quiet_sent, quiet_sent, h]

theorem blind_rdtsc : Blind rdtsc := by
  intro s t h
  obtain ⟨hnic, hping, hport, hper, htsc⟩ := quiet_eq_iff.mp h
  refine .inl ⟨s.tsc 0, _, { t with tsc := fun i => t.tsc (i + 1) }, rfl, ?_, ?_⟩
  · rw [htsc]
    rfl
  · exact quiet_eq_iff.mpr ⟨hnic, hping, hport, hper, by rw [htsc]⟩

theorem blind_tsc_deadline (ms : UInt64) : Blind (tsc_deadline ms) := by
  intro s t h
  obtain ⟨hnic, hping, hport, hper, htsc⟩ := quiet_eq_iff.mp h
  refine .inl ⟨s.tsc 0 + sat_mul s.tsc_per_ms ms, _,
    { t with tsc := fun i => t.tsc (i + 1) }, rfl, ?_, ?_⟩
  · rw [htsc, hper]
    rfl
  · exact quiet_eq_iff.mpr ⟨hnic, hping, hport, hper, by rw [htsc]⟩

theorem blind_next_src_port : Blind next_src_port := by
  intro s t h
  obtain ⟨hnic, hping, hport, hper, htsc⟩ := quiet_eq_iff.mp h
  unfold next_src_port
  dsimp only
  rw [← hport]
  split_ifs
  all_goals exact .inl ⟨_, _, _, rfl, rfl, quiet_eq_iff.mpr ⟨hnic, hping, rfl, hper, htsc⟩⟩

theorem blind : Sending Blind :=
  ⟨Blind.pure, Blind.bind, blind_eth_send, blind_rdtsc, blind_tsc_deadline, blind_next_src_port⟩

theorem blind_udp_send (dst : Ip) (mac : Mac) (src_port dst_port : UInt16) (msg : List UInt8) :
    Blind (udp_send dst mac src_port dst_port msg) := by
  unfold udp_send
  dsimp only
  split_ifs
  · exact blind_eth_send _ _ _
  · exact fun s t _ => .inr ⟨s, t, rfl, rfl⟩

theorem blind_build_next (next : NextAction) (ip : Ip) : Blind (build_next next ip) := by
  cases next with
  | Tcp port req => exact blind.build_tcp_job ip port req
  | Udp port msg =>
    refine blind_rdtsc.bind fun _ => (blind_udp_send _ _ _ _ _).bind fun _ => ?_
    exact (blind_tsc_deadline _).bind fun _ => Blind.pure _

/-- All jobs but a ping. -/
theorem blind_process_ip (hip : IsIp f)
    (hjob : ∀ target seq deadline, job ≠ .Ping target seq deadline) : Blind (process_ip job f) := by
  cases job with
  | Ping target seq deadline => exact absurd rfl (hjob target seq deadline)
  | Resolve hostname dns_ip src_port txid deadline next =>
    exact blind.resolve hip fun ip _ _ => blind_build_next next ip
  | Tcp tcp => exact blind.tcp hip tcp
  | Udp ip port src_port deadline => exact blind.udp hip ip port src_port deadline

/-! ## A ping and one frame -/

/-- The text for a ping that is answered. -/
def ping_text (target : Ip) (seq : UInt16) : String :=
  "reply from " ++ target.text ++ ": seq=" ++ toString seq

/-- A frame and a ping: it stops the kernel, or the job is done when the last reply is the one it
waits for. -/
theorem process_ping_run (hip : IsIp f) (target : Ip) (seq : UInt16) (deadline : UInt64)
    (s : NetState) :
    (IcmpForUs f ∧ ShortRequest (body f) ∧ process_ip (.Ping target seq deadline) f s
      = .error .panic s)
      ∨ (¬ (IcmpForUs f ∧ ShortRequest (body f)) ∧ ∃ s', quiet s' = quiet s
        ∧ process_ip (.Ping target seq deadline) f s
            = .ok (if s'.ping_reply = some seq then .Done (ping_text target seq) else .Pending,
                .Ping target seq deadline) s'
        ∧ (s'.ping_reply = some seq ↔ (IcmpForUs f ∧ EchoReply (body f) seq)
            ∨ (s.ping_reply = some seq ∧ ¬ (IcmpForUs f ∧ ∃ q, EchoReply (body f) q)))) := by
  obtain ⟨mac, hframe⟩ := handle_frame_eq hip
  -- once `handle_frame` has returned, the reply decides
  have hrest : ∀ s', handle_frame f s = .ok () s' → process_ip (.Ping target seq deadline) f s
      = .ok (if s'.ping_reply = some seq then .Done (ping_text target seq) else .Pending,
          .Ping target seq deadline) s' := by
    intro s' hrun
    have hping : process_ping target seq f s
        = .ok (if s'.ping_reply = some seq then .Done (ping_text target seq) else .Pending) s' := by
      unfold process_ping
      rw [bind_of_ok hrun]
      show (if s'.ping_reply = some seq then _ else _ : NetM JobOutcome) s' = _
      split_ifs
      · rfl
      · rfl
    exact bind_of_ok hping
  split_ifs at hframe with hicmp
  · rcases handle_icmp_run (ip_src f) mac (body f) s with ⟨hshort, hrun⟩
      | ⟨hno, s', hrun, hquiet, hreply⟩
    · refine .inl ⟨hicmp, hshort, ?_⟩
      have hstop : process_ping target seq f s = .error .panic s := by
        exact bind_of_error (by rw [hframe]; exact hrun)
      exact bind_of_error hstop
    · refine .inr ⟨fun h => hno h.2, s', hquiet, hrest s' (by rw [hframe]; exact hrun), ?_⟩
      rw [hreply seq]
      constructor
      · rintro (h | ⟨hold, hnone⟩)
        · exact .inl ⟨hicmp, h⟩
        · exact .inr ⟨hold, fun ⟨_, q, hq⟩ => hnone q hq⟩
      · rintro (⟨_, h⟩ | ⟨hold, hnone⟩)
        · exact .inl h
        · exact .inr ⟨hold, fun q hq => hnone ⟨hicmp, q, hq⟩⟩
  · refine .inr ⟨fun h => hicmp h.1, s, rfl, hrest s (by rw [hframe]; rfl), ?_⟩
    exact ⟨fun h => .inr ⟨h, fun hq => hicmp hq.1⟩,
      fun h => h.elim (fun hq => absurd hq.1 hicmp) And.left⟩

/-! ## Agreement -/

def NotPing (job : NetJob) : Prop := ∀ target seq deadline, job ≠ .Ping target seq deadline

/-- A job that takes the place of another one is no ping. -/
theorem build_next_not_ping {next : NextAction} {ip : Ip}
    (h : build_next next ip s = .ok job s') : NotPing job := by
  intro target seq deadline
  cases next with
  | Tcp port req =>
    obtain ⟨_, _, -, h⟩ := exists_of_bind_ok h
    cases h
    exact NetJob.noConfusion
  | Udp port msg =>
    obtain ⟨_, _, -, h⟩ := exists_of_bind_ok h
    obtain ⟨_, _, -, h⟩ := exists_of_bind_ok h
    cases h
    exact NetJob.noConfusion

theorem tcp_input_no_replace {job job' : TcpJob} {out : JobOutcome}
    (h : tcp_input job seg s = .ok (out, job') s') (new : NetJob) : out ≠ .Replace new := by
  unfold tcp_input at h
  split_ifs at h
  · unfold tcp_open at h
    split_ifs at h
    · obtain ⟨_, _, -, h⟩ := exists_of_bind_ok h
      cases h
      exact JobOutcome.noConfusion
    · cases h
      exact JobOutcome.noConfusion
  · obtain ⟨_, _, -, h⟩ := exists_of_bind_ok h
    unfold tcp_finish at h
    split_ifs at h
    · obtain ⟨_, _, -, h⟩ := exists_of_bind_ok h
      cases h
      exact JobOutcome.noConfusion
    · cases h
      exact JobOutcome.noConfusion
  · cases h
    exact JobOutcome.noConfusion

/-- The job stays of its kind, and what replaces it is no ping. -/
theorem process_ip_not_ping {job' : NetJob} {out : JobOutcome} (hip : IsIp f)
    (hjob : NotPing job) (h : process_ip job f s = .ok (out, job') s') :
    NotPing job' ∧ ∀ new, out = .Replace new → NotPing new := by
  cases job with
  | Ping target seq deadline => exact absurd rfl (hjob target seq deadline)
  | Resolve hostname dns_ip src_port txid deadline next =>
    obtain ⟨out', s1, hout, h⟩ := exists_of_bind_ok h
    cases h
    -- only the answer of a resolver replaces a job
    refine ⟨hjob, fun new hnew => ?_⟩
    rw [process_resolve_eq hip] at hout
    split_ifs at hout
    · cases hanswer : dns_answer (payload f) with (rw [hanswer] at hout)
      | none =>
        cases hout
        cases hnew
      | some ip =>
        obtain ⟨built, s2, hbuild, hout⟩ := exists_of_bind_ok hout
        cases hout
        obtain rfl := JobOutcome.Replace.inj hnew
        exact build_next_not_ping hbuild
    · cases hout
      cases hnew
  | Tcp tcp =>
    obtain ⟨⟨out', tcp'⟩, s1, hout, h⟩ := exists_of_bind_ok h
    cases h
    refine ⟨fun _ _ _ => NetJob.noConfusion, fun new hnew => ?_⟩
    rw [process_tcp_eq hip] at hout
    split_ifs at hout
    · cases hout
      cases hnew
    · cases hseg : segment_of tcp f with
      | none =>
        rw [hseg] at hout
        cases hout
        cases hnew
      | some seg =>
        rw [hseg] at hout
        dsimp only at hout
        split_ifs at hout
        · cases hout
          cases hnew
        · exact absurd hnew (tcp_input_no_replace hout new)
  | Udp ip port src_port deadline =>
    obtain ⟨out', s1, hout, h⟩ := exists_of_bind_ok h
    cases h
    refine ⟨hjob, fun new hnew => ?_⟩
    rw [process_udp_eq hip] at hout
    split_ifs at hout
    all_goals
      cases hout
      cases hnew

theorem Agree.of_not_ping (hjob : NotPing job) (h : quiet s = quiet t) : Agree job s t :=
  ⟨h, fun target seq deadline heq => absurd heq (hjob target seq deadline)⟩

/-- One frame from two states that the job cannot tell apart. -/
theorem process_frame_agree (h : Agree job s t) (f : List UInt8) :
    (∃ out job' s' t', process_frame job f s = .ok (out, job') s'
      ∧ process_frame job f t = .ok (out, job') t'
        ∧ Agree job' s' t' ∧ ∀ new, out = .Replace new → Agree new s' t')
      ∨ ∃ s' t', process_frame job f s = .error .panic s'
        ∧ process_frame job f t = .error .panic t' := by
  rw [process_frame_eq]
  by_cases hip : IsIp f
  swap
  · rw [if_neg hip]
    exact .inl ⟨.Pending, job, s, t, rfl, rfl, h,
      fun new hnew => absurd hnew JobOutcome.noConfusion⟩
  rw [if_pos hip]
  by_cases hjob : NotPing job
  · rcases blind_process_ip hip hjob s t h.1 with ⟨⟨out, job'⟩, s', t', hs, ht, hquiet⟩ | hstop
    · obtain ⟨hkind, hnew⟩ := process_ip_not_ping hip hjob hs
      exact .inl ⟨out, job', s', t', hs, ht, .of_not_ping hkind hquiet,
        fun new heq => .of_not_ping (hnew new heq) hquiet⟩
    · exact .inr hstop
  · unfold NotPing at hjob
    push Not at hjob
    obtain ⟨target, seq, deadline, rfl⟩ := hjob
    have hreply := h.2 target seq deadline rfl
    rcases process_ping_run hip target seq deadline s with ⟨hicmp, hshort, hs⟩
      | ⟨hno, s', hqs, hs, hrs⟩
    · rcases process_ping_run hip target seq deadline t with ⟨-, -, ht⟩ | ⟨hno, -⟩
      · exact .inr ⟨s, t, hs, ht⟩
      · exact absurd ⟨hicmp, hshort⟩ hno
    · rcases process_ping_run hip target seq deadline t with ⟨hicmp, hshort, -⟩
        | ⟨-, t', hqt, ht, hrt⟩
      · exact absurd ⟨hicmp, hshort⟩ hno
      · have hsame : s'.ping_reply = some seq ↔ t'.ping_reply = some seq := by
          rw [hrs, hrt, hreply]
        refine .inl ⟨_, _, s', t', hs, ?_, ⟨hqs.trans (h.1.trans hqt.symm), ?_⟩, fun new hnew => ?_⟩
        · rw [ht, if_congr hsame rfl rfl]
        · intro target' seq' deadline' heq
          obtain ⟨-, rfl, -⟩ := NetJob.Ping.inj heq
          exact hsame
        · split_ifs at hnew

/-- The rest of the frames gives the same result. -/
theorem outcome_agree (frames : List (List UInt8)) :
    ∀ {job : NetJob} {s t : NetState}, Agree job s t →
      outcome job frames s = outcome job frames t := by
  induction frames with
  | nil => exact fun _ => rfl
  | cons f rest ih =>
    intro job s t h
    unfold outcome poll_frames
    rcases process_frame_agree h f with ⟨out, job', s', t', hs, ht, hagree, hnew⟩ | ⟨s', t', hs, ht⟩
    · rw [bind_of_ok hs, bind_of_ok ht]
      cases out with
      | Pending => exact ih hagree
      | Done msg => rfl
      | Replace new => exact ih (hnew new rfl)
    · rw [bind_of_error hs, bind_of_error ht]

/-! ## Foreign frames -/

/-- A ping that is there after a frame has not been answered, or the frame was not looked at. -/
theorem ping_goes_on {out : JobOutcome} {job' : NetJob} {target : Ip} {seq : UInt16}
    {deadline : UInt64} (hrun : process_frame job f s = .ok (out, job') s')
    (hping : (out = .Pending ∧ job' = .Ping target seq deadline)
      ∨ out = .Replace (.Ping target seq deadline)) :
    s'.ping_reply ≠ some seq ∨ (s' = s ∧ job = .Ping target seq deadline) := by
  rw [process_frame_eq] at hrun
  split_ifs at hrun with hip
  · by_cases hkind : NotPing job
    · obtain ⟨hold, hnew⟩ := process_ip_not_ping hip hkind hrun
      rcases hping with ⟨-, hsame⟩ | hout
      · exact absurd hsame (hold target seq deadline)
      · exact absurd rfl (hnew _ hout target seq deadline)
    · unfold NotPing at hkind
      push Not at hkind
      obtain ⟨target', seq', deadline', rfl⟩ := hkind
      rcases process_ping_run hip target' seq' deadline' s with ⟨-, -, hstop⟩ | ⟨-, t, -, hok, -⟩
      · rw [hstop] at hrun
        simp at hrun
      · rw [hok] at hrun
        cases hrun
        rcases hping with ⟨hout, hsame⟩ | hout
        · -- the job goes on only without its reply
          obtain ⟨-, rfl, -⟩ := NetJob.Ping.inj hsame
          refine .inl fun hreply => ?_
          rw [if_pos hreply] at hout
          cases hout
        · split_ifs at hout
  · cases hrun
    rcases hping with ⟨-, hsame⟩ | hout
    · exact .inr ⟨rfl, hsame⟩
    · cases hout

/-- A ping that is under way has not been answered. -/
theorem UnderWay.unanswered (h : UnderWay s job) :
    ∀ target seq deadline, job = .Ping target seq deadline → s.ping_reply ≠ some seq := by
  induction h with
  | ping hstart =>
    intro target seq deadline heq
    cases hstart
    have hsent : ∀ (t : NetState) (g : List UInt8), t.ping_reply = none →
        (if t.nic.isSome then { t with sent := t.sent ++ [g] } else t).ping_reply = none := by
      intro t g ht
      split_ifs
      · exact ht
      · exact ht
    intro hreply
    exact absurd ((hsent _ _ rfl).symm.trans hreply) (by simp)
  | @started s s' next host job hstart =>
    intro target seq deadline heq
    cases host with
    | addr ip => exact absurd heq (build_next_not_ping hstart target seq deadline)
    | name hostname =>
      obtain ⟨_, _, -, hstart⟩ := exists_of_bind_ok hstart
      obtain ⟨_, _, -, hstart⟩ := exists_of_bind_ok hstart
      cases hstart
      exact absurd heq NetJob.noConfusion
  | frame hjob hrun ih =>
    rintro target seq deadline rfl
    rcases ping_goes_on hrun (.inl ⟨rfl, rfl⟩) with hnew | ⟨rfl, hsame⟩
    · exact hnew
    · exact ih target seq deadline hsame
  | replaced hjob hrun ih =>
    rintro target seq deadline rfl
    rcases ping_goes_on hrun (.inr rfl) with hnew | ⟨rfl, hsame⟩
    · exact hnew
    · exact ih target seq deadline hsame

theorem word_take {d : List UInt8} {n i : ℕ} (h : i + 1 < n) : word (d.take n) i = word d i := by
  unfold word
  rw [getD_eq_getElem?_getD, getD_eq_getElem?_getD, List.getElem?_take_of_lt (by omega),
    List.getElem?_take_of_lt h, ← getD_eq_getElem?_getD, ← getD_eq_getElem?_getD]

theorem segment_ports {data : List UInt8} (h : segment data = some seg) :
    20 ≤ data.length ∧ seg.src_port = word data 0 ∧ seg.dst_port = word data 2 := by
  have hparse := tcp_parse_eq data
  rw [h] at hparse
  unfold tcp_parse at hparse
  by_cases hlen : data.length < 20
  · rw [if_pos hlen] at hparse
    exact absurd (Except.ok.inj hparse) (by simp)
  rw [if_neg hlen, be16_at_ok (by omega), be16_at_ok (by omega), be32_at_ok (by omega),
    idx_ok (by omega), idx_ok (by omega)] at hparse
  change (if data.length < (data.getD 12 0 / 16).toNat * 4 then _ else _) = _ at hparse
  by_cases hoff : data.length < (data.getD 12 0 / 16).toNat * 4
  · rw [if_pos hoff] at hparse
    exact absurd (Except.ok.inj hparse) (by simp)
  · rw [if_neg hoff, slice_from_ok (by omega)] at hparse
    obtain rfl := Option.some.inj (Except.ok.inj hparse)
    exact ⟨by omega, rfl, rfl⟩

theorem own_of_segment {job : TcpJob} (hip : IsIp f) (h : segment_of job f = some seg) :
    Own (.Tcp job) f := by
  unfold segment_of at h
  split_ifs at h with hhdr
  obtain ⟨hseg, hports⟩ := Option.filter_eq_some_iff.mp h
  obtain ⟨hlen, hsrc, hdst⟩ := segment_ports hseg
  obtain ⟨hsp, hdp⟩ := of_decide_eq_true hports
  -- the ports are in front of the padding
  have hcut : (ip_body f).drop (ihl f) = (body f).take
      (min (word (ip_hdr f) 2).toNat (ip_hdr f).length - ihl f) := by
    unfold ip_body body
    rw [drop_take]
  rw [hcut] at hlen hsrc hdst
  have hroom := (length_take_le _ _).trans' hlen
  rw [word_take (by omega)] at hsrc hdst
  exact ⟨hip, .inl ⟨hhdr.1, hhdr.2.1, by unfold ports; rw [← hsrc, ← hdst, hsp, hdp]⟩⟩

/-- A foreign frame that is not mistaken leaves the job as it is. -/
theorem process_frame_foreign (h : UnderWay s job) (hf : ¬ Own job f)
    (hno : ¬ Mistaken job f) : ∃ s', process_frame job f s = .ok (.Pending, job) s'
      ∧ Agree job s' s := by
  have hrefl : Agree job s s := ⟨rfl, fun _ _ _ _ => Iff.rfl⟩
  rw [process_frame_eq]
  by_cases hip : IsIp f
  swap
  · rw [if_neg hip]
    exact ⟨s, rfl, hrefl⟩
  rw [if_pos hip]
  cases job with
  | Ping target seq deadline =>
    have hold := h.unanswered target seq deadline rfl
    rcases process_ping_run hip target seq deadline s with ⟨hicmp, hshort, -⟩
      | ⟨-, s', hquiet, hrun, hreply⟩
    · exact absurd ⟨hip, hicmp, .inr hshort⟩ hno
    · have hnew : s'.ping_reply ≠ some seq := by
        intro hgot
        rcases hreply.mp hgot with ⟨hicmp, hecho⟩ | ⟨hgot, -⟩
        · exact hno ⟨hip, hicmp, .inl hecho⟩
        · exact hold hgot
      refine ⟨s', by rw [hrun, if_neg hnew], hquiet, fun target' seq' deadline' heq => ?_⟩
      obtain ⟨-, rfl, -⟩ := NetJob.Ping.inj heq
      exact ⟨fun hgot => absurd hgot hnew, fun hgot => absurd hgot hold⟩
  | Resolve hostname dns_ip src_port txid deadline next =>
    have hreply : ¬ DnsReply f dns_ip src_port txid := fun hr =>
      hf ⟨hip, hr.1, hr.2.1, Prod.ext hr.2.2.2.1 hr.2.2.2.2.1⟩
    refine ⟨s, bind_of_ok ?_, hrefl⟩
    rw [process_resolve_eq hip, if_neg hreply]
    rfl
  | Tcp tcp =>
    have hseg : segment_of tcp f = none := by
      cases hsome : segment_of tcp f with
      | none => rfl
      | some seg => exact absurd (own_of_segment hip hsome) hf
    have hrun : process_tcp tcp (ip_hdr f) s = .ok (.Pending, tcp) s := by
      rw [process_tcp_eq hip, if_neg fun hu => hno ⟨hip, hu⟩, hseg]
      rfl
    exact ⟨s, process_ip_tcp hrun, hrefl⟩
  | Udp ip port src_port deadline =>
    have hrun : process_udp src_port (ip_hdr f) s = .ok .Pending s := by
      rw [process_udp_eq hip, if_neg fun hd => hno ⟨hip, hd⟩]
      rfl
    exact ⟨s, process_ip_udp hrun, hrefl⟩

/-- A mistaken frame ends the job, or stops the kernel. -/
theorem outcome_mistaken (h : Mistaken job f) (s : NetState) :
    outcome job [f] s ≠ some (none, job) := by
  have hdone : ∀ msg job' s', process_frame job f s = .ok (.Done msg, job') s' →
      outcome job [f] s ≠ some (none, job) := by
    intro msg job' s' hrun heq
    unfold outcome poll_frames at heq
    rw [bind_of_ok hrun] at heq
    exact absurd (congrArg Prod.fst (Option.some.inj heq)) (by simp)
  have hip : IsIp f := by
    cases job with
    | Ping target seq deadline => exact h.1
    | Resolve hostname dns_ip src_port txid deadline next => exact h.elim
    | Tcp tcp => exact h.1
    | Udp ip port src_port deadline => exact h.1
  have hframe : process_frame job f = process_ip job f := by rw [process_frame_eq, if_pos hip]
  cases job with
  | Ping target seq deadline =>
    obtain ⟨-, hicmp, hkind⟩ := h
    rcases process_ping_run hip target seq deadline s with ⟨-, -, hstop⟩
      | ⟨hno, s', -, hrun, hreply⟩
    · intro heq
      unfold outcome poll_frames at heq
      rw [bind_of_error (by rw [hframe]; exact hstop)] at heq
      simp at heq
    · rcases hkind with hecho | hshort
      · rw [if_pos (hreply.mpr (.inl ⟨hicmp, hecho⟩))] at hrun
        exact hdone _ _ _ (by rw [hframe]; exact hrun)
      · exact absurd ⟨hicmp, hshort⟩ hno
  | Resolve hostname dns_ip src_port txid deadline next => exact h.elim
  | Tcp tcp =>
    have hrun : process_tcp tcp (ip_hdr f) s = .ok (.Done "wget: unreachable", tcp) s := by
      rw [process_tcp_eq hip, if_pos h.2]
      rfl
    refine hdone "wget: unreachable" (.Tcp tcp) s ?_
    rw [hframe]
    exact process_ip_tcp hrun
  | Udp ip port src_port deadline =>
    have hrun : process_udp src_port (ip_hdr f) s = .ok (.Done (reply_text f)) s := by
      rw [process_udp_eq hip, if_pos h.2]
      rfl
    refine hdone (reply_text f) (.Udp ip port src_port deadline) s ?_
    rw [hframe]
    exact process_ip_udp hrun

/-- **Foreign frames.** A frame that is not the job's own leaves the job, and what the job comes to,
unchanged, if and only if it is not one of those that the job takes from anybody. -/
theorem foreign_unseen_iff {s : NetState} {job : NetJob} {f : List UInt8} (h : UnderWay s job)
    (hf : ¬ Own job f) :
    (∀ rest, outcome job (f :: rest) s = outcome job rest s) ↔ ¬ Mistaken job f := by
  constructor
  · exact fun hsame hmistaken => outcome_mistaken hmistaken s (hsame [])
  · intro hno rest
    obtain ⟨s', hrun, hagree⟩ := process_frame_foreign h hf hno
    have hstep : outcome job (f :: rest) s = outcome job rest s' := by
      unfold outcome
      rw [poll_frames, bind_of_ok hrun]
    rw [hstep, outcome_agree rest hagree]

/-! ### Runs on given frames -/

/-- An echo reply with the sequence number 0, from 10.0.2.99. -/
def stranger : List UInt8 :=
  [0x52, 0x54, 0, 0x12, 0x34, 0x56, 0x52, 0x55, 0x0a, 0, 2, 2, 0x08, 0x00,
   0x45, 0, 0, 28, 0, 1, 0x40, 0, 64, 1, 0, 0, 10, 0, 2, 99, 10, 0, 2, 15,
   0, 0, 0, 0, 0, 1, 0, 0]

/-- A ping to 10.0.2.2, and the reply of somebody else. -/
theorem stranger_answers_ping : ∃ s, UnderWay s (.Ping ⟨10, 0, 2, 2⟩ 0 0)
    ∧ ¬ Own (.Ping ⟨10, 0, 2, 2⟩ 0 0) stranger
    ∧ ¬ ∀ rest, outcome (.Ping ⟨10, 0, 2, 2⟩ 0 0) (stranger :: rest) s
      = outcome (.Ping ⟨10, 0, 2, 2⟩ 0 0) rest s := by
  have hstart : ∃ s, start_ping ⟨10, 0, 2, 2⟩ idle = .ok (.Ping ⟨10, 0, 2, 2⟩ 0 0) s := ⟨_, rfl⟩
  obtain ⟨s, hs⟩ := hstart
  have hmistaken : Mistaken (.Ping ⟨10, 0, 2, 2⟩ 0 0) stranger := by
    show IsIp stranger ∧ IcmpForUs stranger
      ∧ (EchoReply (body stranger) 0 ∨ ShortRequest (body stranger))
    decide
  refine ⟨s, .ping hs, ?_, fun hsame => outcome_mistaken hmistaken s (hsame [])⟩
  show ¬ (IsIp stranger ∧ ip_src stranger = ⟨10, 0, 2, 2⟩)
  decide

/-- The same reply during a ping with another sequence number. -/
theorem foreign_unseen_iff_other_seq : ∃ s, UnderWay s (.Ping ⟨10, 0, 2, 2⟩ 7 0)
    ∧ ∀ rest, outcome (.Ping ⟨10, 0, 2, 2⟩ 7 0) (stranger :: rest) s
      = outcome (.Ping ⟨10, 0, 2, 2⟩ 7 0) rest s := by
  have hstart : ∃ s, start_ping ⟨10, 0, 2, 2⟩ { idle with ping_seq := 7 }
    = .ok (.Ping ⟨10, 0, 2, 2⟩ 7 0) s := ⟨_, rfl⟩
  obtain ⟨s, hs⟩ := hstart
  refine ⟨s, .ping hs, (foreign_unseen_iff (.ping hs) ?_).mpr ?_⟩
  · show ¬ (IsIp stranger ∧ ip_src stranger = ⟨10, 0, 2, 2⟩)
    decide
  · show ¬ (IsIp stranger ∧ IcmpForUs stranger
      ∧ (EchoReply (body stranger) 7 ∨ ShortRequest (body stranger)))
    decide

end HepOS.Net
