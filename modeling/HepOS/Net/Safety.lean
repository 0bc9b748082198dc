/-
Which frames stop the kernel.

Every index and every slice of a parser is behind a look at the length, with two exceptions.
`handle_icmp` stores the two bytes of the checksum into the copy of an echo request without a look
at how long it is, and `udp_send` cuts the length of a message to 16 bits, so that a long message
does not fit its own buffer; a DNS reply makes it send one. All other frames are handled to the end
(`process_frame_returns`).
-/
import HepOS.Net.Headers

set_option autoImplicit false

namespace HepOS.Net

open Hoare

variable {f : List UInt8} {job : NetJob}

/-- The program comes back from every state. -/
def Returns {α : Type} (x : NetM α) : Prop := ∀ s, ∃ a s', x s = .ok a s'

/-- The program panics from every state. -/
def Stops {α : Type} (x : NetM α) : Prop := ∀ s, ∃ s', x s = .error .panic s'

section

variable {α β : Type} {x : NetM α} {f : α → NetM β}

theorem Returns.pure (a : α) : Returns (Pure.pure a : NetM α) := fun s => ⟨a, s, rfl⟩

theorem Returns.bind (hx : Returns x) (hf : ∀ a, Returns (f a)) : Returns (x >>= f) := by
  intro s
  obtain ⟨a, s1, h1⟩ := hx s
  obtain ⟨b, s2, h2⟩ := hf a s1
  exact ⟨b, s2, (bind_of_ok h1).trans h2⟩

theorem Stops.bind (hx : Stops x) : Stops (x >>= f) := by
  intro s
  obtain ⟨s', h⟩ := hx s
  exact ⟨s', bind_of_error h⟩

/-- A part that returns does not keep the rest from stopping. -/
theorem Returns.bind_stops (hx : Returns x) (hf : ∀ a, Stops (f a)) : Stops (x >>= f) := by
  intro s
  obtain ⟨a, s1, h1⟩ := hx s
  obtain ⟨s2, h2⟩ := hf a s1
  exact ⟨s2, (bind_of_ok h1).trans h2⟩

theorem Stops.not_returns (hx : Stops x) : ¬ Returns x := by
  intro hr
  -- any state will do
  obtain ⟨s', h⟩ := hx idle
  obtain ⟨a, s'', h'⟩ := hr idle
  rw [h] at h'
  simp at h'

end

/-! ## What every job does

What sending a frame and reading the clock have and `do` keeps, the handling of a frame has. -/

structure Sending (P : ∀ {α : Type}, NetM α → Prop) : Prop where
  pure : ∀ {α : Type} (a : α), P (Pure.pure a : NetM α)
  bind : ∀ {α β : Type} {x : NetM α} {f : α → NetM β}, P x → (∀ a, P (f a)) → P (x >>= f)
  eth_send : ∀ dst etype payload, P (eth_send dst etype payload)
  rdtsc : P rdtsc
  tsc_deadline : ∀ ms, P (tsc_deadline ms)
  next_src_port : P next_src_port

namespace Sending

variable {P : ∀ {α : Type}, NetM α → Prop} (h : Sending P)
include h

theorem tcp_send_seg (dst : Ip) (mac : Mac) (src_port dst_port : UInt16) (seq ack : UInt32)
    (flags : UInt8) (data : List UInt8) :
    P (tcp_send_seg dst mac src_port dst_port seq ack flags data) := h.eth_send _ _ _

theorem build_tcp_job (ip : Ip) (port : UInt16) (req : List UInt8) :
    P (build_tcp_job ip port req) := by
  refine h.bind h.next_src_port fun src_port => h.bind h.rdtsc fun now => ?_
  refine h.bind (h.tcp_send_seg _ _ _ _ _ _ _ _) fun _ => ?_
  exact h.bind (h.tsc_deadline _) fun _ => h.pure _

theorem tcp_input (job : TcpJob) (seg : Segment) : P (tcp_input job seg) := by
  have hopen : P (tcp_open job seg) := by
    unfold tcp_open
    split_ifs
    · refine h.bind (h.tcp_send_seg _ _ _ _ _ _ _ _) fun _ => ?_
      exact h.bind (h.tcp_send_seg _ _ _ _ _ _ _ _) fun _ => h.pure _
    · exact h.pure _
  have hstore : P (tcp_store job seg) := by
    unfold tcp_store
    split_ifs
    · exact h.bind (h.tcp_send_seg _ _ _ _ _ _ _ _) fun _ => h.pure _
    · exact h.pure _
  have hfinish : ∀ job', P (tcp_finish job' seg) := by
    intro job'
    unfold tcp_finish
    split_ifs
    · exact h.bind (h.tcp_send_seg _ _ _ _ _ _ _ _) fun _ => h.pure _
    · exact h.pure _
  unfold Net.tcp_input
  split_ifs
  · exact hopen
  · exact h.bind hstore hfinish
  · exact h.pure _

theorem resolve (hip : IsIp f) {hostname : String} {dns_ip : Ip} {src_port txid : UInt16}
    {deadline : UInt64} {next : NextAction}
    (hnext : ∀ ip, DnsReply f dns_ip src_port txid → dns_answer (payload f) = some ip →
      P (build_next next ip)) : P
          (process_ip (.Resolve hostname dns_ip src_port txid deadline next) f) := by
  refine h.bind ?_ fun _ => h.pure _
  rw [process_resolve_eq hip]
  split_ifs with hreply
  · cases hanswer : dns_answer (payload f) with
    | none => exact h.pure _
    | some ip => exact h.bind (hnext ip hreply hanswer) fun _ => h.pure _
  · exact h.pure _

theorem tcp (hip : IsIp f) (tcp : TcpJob) : P (process_ip (.Tcp tcp) f) := by
  refine h.bind ?_ fun _ => h.pure _
  rw [process_tcp_eq hip]
  split_ifs
  · exact h.pure _
  · cases segment_of tcp f with
    | none => exact h.pure _
    | some seg =>
      dsimp only
      split_ifs
      · exact h.pure _
      · exact h.tcp_input tcp seg

theorem udp (hip : IsIp f) (ip : Ip) (port src_port : UInt16) (deadline : UInt64) :
    P (process_ip (.Udp ip port src_port deadline) f) := by
  refine h.bind ?_ fun _ => h.pure _
  rw [process_udp_eq hip]
  split_ifs
  · exact h.pure _
  · exact h.pure _

end Sending

theorem returns_modify (g : NetState → NetState) : Returns (modify g : NetM Unit) :=
  fun s => ⟨(), g s, rfl⟩

theorem returns_next_src_port : Returns next_src_port := by
  intro s
  unfold next_src_port
  dsimp only
  split_ifs
  · exact ⟨_, _, rfl⟩
  · exact ⟨_, _, rfl⟩

theorem returning : Sending Returns :=
  ⟨Returns.pure, Returns.bind, fun _ _ _ => returns_modify _, fun _ => ⟨_, _, rfl⟩,
    fun _ _ => ⟨_, _, rfl⟩, returns_next_src_port⟩

/-- The message fits into a datagram. -/
def Fits (msg : List UInt8) : Prop := 8 + msg.length < 65536

instance (msg : List UInt8) : Decidable (Fits msg) := inferInstanceAs (Decidable (_ < _))

theorem udp_send_returns (dst : Ip) (mac : Mac) (src_port dst_port : UInt16) {msg : List UInt8}
    (h : Fits msg) :
    Returns (udp_send dst mac src_port dst_port msg) := by
  unfold Fits at h
  unfold udp_send
  rw [if_pos (by omega)]
  exact returning.eth_send _ _ _

theorem udp_send_stops (dst : Ip) (mac : Mac) (src_port dst_port : UInt16) {msg : List UInt8}
    (h : ¬ Fits msg) :
    Stops (udp_send dst mac src_port dst_port msg) := by
  unfold Fits at h
  unfold udp_send
  rw [if_neg (by omega)]
  exact fun s => ⟨s, rfl⟩

/-! ## The job behind a resolved name -/

/-- What is to be sent once the name is resolved does not fit. -/
def NextAction.TooLong : NextAction → Prop
  | .Tcp _ _ => False
  | .Udp _ msg => ¬ Fits msg

theorem build_next_returns {next : NextAction} (h : ¬ next.TooLong) (ip : Ip) :
    Returns (build_next next ip) := by
  cases next with
  | Tcp port req => exact returning.build_tcp_job ip port req
  | Udp port msg =>
    refine returning.rdtsc.bind fun now => (udp_send_returns _ _ _ _ (not_not.mp h)).bind fun _ =>
      ?_
    exact (returning.tsc_deadline _).bind fun _ => Returns.pure _

theorem build_next_stops {next : NextAction} (h : next.TooLong) (ip : Ip) :
    Stops (build_next next ip) := by
  cases next with
  | Tcp port req => exact h.elim
  | Udp port msg => exact returning.rdtsc.bind_stops fun now => (udp_send_stops _ _ _ _ h).bind

/-! ## Frames -/

/-- The frame makes the kernel panic while the job is under way. -/
def Fatal : NetJob → List UInt8 → Prop
  | .Ping _ _ _, f => IsIp f ∧ IcmpForUs f ∧ ShortRequest (body f)
  | .Resolve _ dns_ip src_port txid _ next, f =>
    IsIp f ∧ DnsReply f dns_ip src_port txid ∧ dns_answer (payload f) ≠ none ∧ next.TooLong
  | .Tcp _, _ => False
  | .Udp _ _ _ _, _ => False

theorem handle_arp_returns (data : List UInt8) : Returns (handle_arp data) := by
  unfold handle_arp
  by_cases hlen : data.length < 28
  · rw [if_pos hlen]
    exact Returns.pure _
  obtain ⟨mac, hmac⟩ := mac_at_ok (d := data) (i := 8) (by omega)
  rw [if_neg hlen, lift_bind (be16_at_ok (by omega)), lift_bind (slice_ok (by omega) (by omega))]
  split_ifs
  · rw [lift_bind (slice_ok (by omega) (by omega)), lift_bind hmac]
    exact fun s => ⟨_, _, rfl⟩
  · exact Returns.pure _

/-- A frame with an IP header reaches `handle_icmp` or nothing. -/
theorem handle_frame_ip (h : IsIp f) :
    (¬ (IcmpForUs f ∧ ShortRequest (body f)) → Returns (handle_frame f))
      ∧ (IcmpForUs f ∧ ShortRequest (body f) → Stops (handle_frame f)) := by
  obtain ⟨mac, hframe⟩ := handle_frame_eq h
  rw [hframe]
  constructor
  · intro hno s
    split_ifs with hicmp
    · rcases handle_icmp_run (ip_src f) mac (body f) s with ⟨hshort, -⟩ | ⟨-, s', hrun, -, -⟩
      · exact absurd ⟨hicmp, hshort⟩ hno
      · exact ⟨(), s', hrun⟩
    · exact ⟨(), s, rfl⟩
  · rintro ⟨hicmp, hshort⟩ s
    rw [if_pos hicmp]
    rcases handle_icmp_run (ip_src f) mac (body f) s with ⟨-, hrun⟩ | ⟨hno, -⟩
    · exact ⟨s, hrun⟩
    · exact absurd hshort hno

theorem process_ip_returns (hip : IsIp f) (h : ¬ Fatal job f) : Returns (process_ip job f) := by
  cases job with
  | Ping target seq deadline =>
    refine Returns.bind ?_ fun _ => Returns.pure _
    refine ((handle_frame_ip hip).1 fun hshort => h ⟨hip, hshort⟩).bind fun _ s => ?_
    show ∃ a s', (if s.ping_reply = some seq then _ else _ : NetM JobOutcome) s = .ok a s'
    split_ifs
    · exact ⟨_, _, rfl⟩
    · exact ⟨_, _, rfl⟩
  | Resolve hostname dns_ip src_port txid deadline next =>
    refine returning.resolve hip fun ip hreply hanswer => build_next_returns (fun hlong => ?_) ip
    exact h ⟨hip, hreply, by rw [hanswer]; exact Option.some_ne_none ip, hlong⟩
  | Tcp tcp => exact returning.tcp hip tcp
  | Udp ip port src_port deadline => exact returning.udp hip ip port src_port deadline

theorem process_frame_stops (h : Fatal job f) : Stops (process_frame job f) := by
  rw [process_frame_eq]
  cases job with
  | Ping target seq deadline =>
    rw [if_pos h.1]
    exact (((handle_frame_ip h.1).2 h.2).bind).bind
  | Resolve hostname dns_ip src_port txid deadline next =>
    obtain ⟨hip, hreply, hanswer, hlong⟩ := h
    rw [if_pos hip]
    refine Stops.bind ?_
    obtain ⟨ip, hsome⟩ := Option.ne_none_iff_exists'.mp hanswer
    rw [process_resolve_eq hip, if_pos hreply, hsome]
    exact (build_next_stops hlong ip).bind
  | Tcp tcp | Udp ip port src_port deadline => exact h.elim

theorem process_frame_handled (hno : ¬ Fatal job f) : Returns (process_frame job f) := by
  rw [process_frame_eq]
  split_ifs with hip
  · exact process_ip_returns hip hno
  · exact Returns.pure _

/-- **Frames that are handled to the end**: all but an echo request that ends before its checksum
while a ping is under way, and the DNS reply after which a message is sent that does not fit into a
datagram. -/
theorem process_frame_returns (job : NetJob) (f : List UInt8) :
    Returns (process_frame job f) ↔ ¬ Fatal job f :=
  ⟨fun hreturns hfatal => (process_frame_stops hfatal).not_returns hreturns, process_frame_handled⟩

/-- `handle_frame` for any frame, ARP included. -/
theorem handle_frame_returns (f : List UInt8) :
    Returns (handle_frame f) ↔ ¬ (IsIp f ∧ IcmpForUs f ∧ ShortRequest (body f)) := by
  by_cases hip : IsIp f
  · refine ⟨fun hreturns hshort => ((handle_frame_ip hip).2 hshort.2).not_returns hreturns,
      fun hno => ?_⟩
    exact (handle_frame_ip hip).1 fun hshort => hno ⟨hip, hshort⟩
  refine ⟨fun _ hshort => hip hshort.1, fun _ => ?_⟩
  unfold handle_frame
  by_cases hlen : f.length < 14
  · rw [if_pos hlen]
    exact Returns.pure _
  obtain ⟨mac, hmac⟩ := mac_at_ok (d := f) (i := 6) (by omega)
  rw [if_neg hlen, lift_bind (be16_at_ok (by omega)), lift_bind hmac]
  split_ifs with harp hetype
  · rw [lift_bind (slice_from_ok (by omega))]
    exact handle_arp_returns _
  · -- an IP packet that is too short for its header
    have hshort : (f.drop 14).length < 20 := by
      by_contra hge
      exact hip ⟨by omega, hetype, Nat.not_lt.mp hge⟩
    rw [lift_bind (slice_from_ok (by omega))]
    unfold handle_ip
    rw [if_pos hshort]
    exact Returns.pure _
  · exact Returns.pure _

/-- An echo request for us with one byte of ICMP: the type. -/
def short_ping : List UInt8 :=
  [0x52, 0x54, 0, 0x12, 0x34, 0x56, 0x52, 0x55, 0x0a, 0, 2, 2, 0x08, 0x00,
   0x45, 0, 0, 21, 0, 1, 0x40, 0, 64, 1, 0, 0, 10, 0, 2, 2, 10, 0, 2, 15, 8]

theorem short_ping_stops_kernel :
    ¬ Returns (process_frame (.Ping ⟨10, 0, 2, 2⟩ 0 0) short_ping) := by
  refine (process_frame_stops ?_).not_returns
  show IsIp short_ping ∧ IcmpForUs short_ping ∧ ShortRequest (body short_ping)
  decide

end HepOS.Net
