/-
What `process_frame` does, in terms of the fields of the frame.

The source reads a field after it has looked at the length, so inside the checks a read succeeds and
gives the field. Here this is used up once: the fields are functions of the frame, and for every
kind of job there is one equation that says what comes of a frame. The parsers of DNS answers and of
segments never fail (`parse_dns_answer_ok`, `tcp_parse_ok`).
-/
import HepOS.Net.Stack

set_option autoImplicit false

namespace HepOS.Net

open Hoare List Option

variable {f : List UInt8}

/-! ## Reads inside the bounds -/

section

variable {α β : Type} {d : List UInt8} {i lo hi : ℕ}

theorem idx_ok (h : i < d.length) : idx d i = .ok (d.getD i 0) := if_pos h

theorem slice_from_ok (h : lo ≤ d.length) : slice_from d lo = .ok (d.drop lo) := if_pos h

theorem slice_ok (h : lo ≤ hi) (h' : hi ≤ d.length) :
    slice d lo hi = .ok ((d.drop lo).take (hi - lo)) :=
  if_pos ⟨h, h'⟩

/-- The word at an offset. -/
def word (d : List UInt8) (i : ℕ) : UInt16 := be16 (d.getD i 0) (d.getD (i + 1) 0)

/-- The address at an offset. -/
def addr (d : List UInt8) (i : ℕ) : Ip :=
  ⟨d.getD i 0, d.getD (i + 1) 0, d.getD (i + 2) 0, d.getD (i + 3) 0⟩

theorem be16_at_ok (h : i + 1 < d.length) : be16_at d i = .ok (word d i) := by
  unfold be16_at
  rw [idx_ok (show i < d.length by omega), idx_ok h]
  rfl

theorem ip_at_ok (h : i + 3 < d.length) : ip_at d i = .ok (addr d i) := by
  unfold ip_at
  rw [idx_ok (show i < d.length by omega), idx_ok (show i + 1 < d.length by omega),
    idx_ok (show i + 2 < d.length by omega), idx_ok h]
  rfl

theorem be32_at_ok (h : i + 3 < d.length) :
    be32_at d i = .ok (be32 (d.getD i 0) (d.getD (i + 1) 0) (d.getD (i + 2) 0)
        (d.getD (i + 3) 0)) := by
  unfold be32_at
  rw [idx_ok (show i < d.length by omega), idx_ok (show i + 1 < d.length by omega),
    idx_ok (show i + 2 < d.length by omega), idx_ok h]
  rfl

theorem mac_at_ok (h : i + 6 ≤ d.length) : ∃ mac, mac_at d i = .ok mac := by
  have hlen : ((d.drop i).take (i + 6 - i)).length = 6 := by
    rw [length_take, length_drop]
    omega
  refine ⟨⟨_, hlen⟩, ?_⟩
  unfold mac_at
  rw [slice_ok (by omega) h]
  exact dif_pos hlen

/-- A read that succeeds, in front of the rest. -/
theorem lift_bind {x : Except Panic α} {a : α} (h : x = .ok a) (f : α → NetM β) :
    (lift x >>= f) = f a := by
  subst h
  rfl

section

variable {c P Q : Prop} [Decidable c] [Decidable P] [Decidable Q] {x y rest : NetM α}

/-- A check in front of the others: what fails it is left alone. -/
theorem check (hc : ¬ c ↔ P) (h : P → rest = if Q then x else y) :
    (if c then y else rest) = if P ∧ Q then x else y := by
  by_cases hP : P
  · rw [if_neg (hc.mpr hP), h hP]
    exact if_congr (and_iff_right hP).symm rfl rfl
  · rw [if_pos (not_not.mp (mt hc.mp hP)), if_neg fun hPQ => hP hPQ.1]

theorem check_last (hc : ¬ c ↔ P) (h : P → rest = x) : (if c then y else rest) = if P
    then x else y := by
  by_cases hP : P
  · rw [if_neg (hc.mpr hP), if_pos hP, h hP]
  · rw [if_pos (not_not.mp (mt hc.mp hP)), if_neg hP]

end

end

/-! ## The parsers -/

theorem tcp_parse_ok (data : List UInt8) : ∃ seg, tcp_parse data = .ok seg := by
  unfold tcp_parse
  by_cases hlen : data.length < 20
  · exact ⟨none, if_pos hlen⟩
  · rw [if_neg hlen, be16_at_ok (by omega), be16_at_ok (by omega), be32_at_ok (by omega),
      idx_ok (by omega), idx_ok (by omega)]
    by_cases hoff : data.length < (data.getD 12 0 / 16).toNat * 4
    · exact ⟨none, if_pos hoff⟩
    · show ∃ seg, (if data.length < (data.getD 12 0 / 16).toNat * 4 then _ else _) = _
      rw [if_neg hoff, slice_from_ok (by omega)]
      exact ⟨_, rfl⟩

theorem skip_question_ok (dns : List UInt8) (pos : ℕ) : ∃ r, skip_question dns pos = .ok r := by
  fun_induction skip_question dns pos with
  | case1 pos h => exact ⟨none, rfl⟩
  | case2 pos h ih =>
    rw [idx_ok (by omega)]
    show ∃ r, (if dns.getD pos 0 = 0 then _ else if pointer (dns.getD pos 0) then _ else _) = _
    split_ifs
    · exact ⟨_, rfl⟩
    · exact ⟨_, rfl⟩
    · exact ih _

theorem skip_labels_ok (dns : List UInt8) (pos : ℕ) : ∃ r, skip_labels dns pos = .ok r := by
  fun_induction skip_labels dns pos with
  | case1 pos h ih =>
    rw [idx_ok h]
    show ∃ r, (if dns.getD pos 0 ≠ 0 then _ else _) = _
    split_ifs
    · exact ih _
    · exact ⟨_, rfl⟩
  | case2 pos h => exact ⟨pos, rfl⟩

theorem skip_name_ok {dns : List UInt8} {pos : ℕ} (h : pos < dns.length) :
    ∃ r, skip_name dns pos = .ok r := by
  unfold skip_name
  rw [idx_ok h]
  show ∃ r, (if pointer (dns.getD pos 0) then _ else _) = _
  split_ifs
  · exact ⟨_, rfl⟩
  · obtain ⟨p, hp⟩ := skip_labels_ok dns pos
    rw [hp]
    exact ⟨_, rfl⟩

/-- An answer is looked at only when ten bytes are left, before its name and again behind it. -/
theorem walk_answers_ok (dns : List UInt8) (n : ℕ) : ∀ pos, ∃ r,
    walk_answers dns n pos = .ok r := by
  induction n with
  | zero => exact fun _ => ⟨none, rfl⟩
  | succ n ih =>
    intro pos
    unfold walk_answers
    by_cases hroom : dns.length < pos + 10
    · exact ⟨none, if_pos hroom⟩
    rw [if_neg hroom]
    have hpos : pos < dns.length := by omega
    obtain ⟨p, hp⟩ := skip_name_ok hpos
    rw [hp]
    show ∃ r, (if dns.length < p + 10 then _ else _) = _
    by_cases hroom' : dns.length < p + 10
    · exact ⟨none, if_pos hroom'⟩
    rw [if_neg hroom', be16_at_ok (by omega), be16_at_ok (by omega)]
    show ∃ r, (if word dns p = 1 ∧ word dns (p + 8) = 4 ∧ p + 10 + 4 ≤ dns.length then _ else _) = _
    split_ifs with hrecord
    · rw [ip_at_ok (by omega)]
      exact ⟨_, rfl⟩
    · exact ih _

theorem parse_dns_answer_ok (dns : List UInt8) : ∃ r, parse_dns_answer dns = .ok r := by
  unfold parse_dns_answer
  by_cases hlen : dns.length < 12
  · exact ⟨none, if_pos hlen⟩
  rw [if_neg hlen, be16_at_ok (by omega)]
  show ∃ r, (if word dns 6 = 0 then _ else _) = _
  split_ifs
  · exact ⟨none, rfl⟩
  obtain ⟨q, hq⟩ := skip_question_ok dns 12
  rw [hq]
  cases q with
  | none => exact ⟨none, rfl⟩
  | some pos => exact walk_answers_ok dns _ _

/-- The address in an answer, if there is one. -/
def dns_answer (dns : List UInt8) : Option Ip :=
  match parse_dns_answer dns with
  | .ok r => r
  | .error _ => none

theorem parse_dns_answer_eq (dns : List UInt8) : parse_dns_answer dns = .ok (dns_answer dns) := by
  obtain ⟨r, hr⟩ := parse_dns_answer_ok dns
  unfold dns_answer
  rw [hr]

/-- The segment in the body of a packet, if there is one. -/
def segment (data : List UInt8) : Option Segment :=
  match tcp_parse data with
  | .ok r => r
  | .error _ => none

theorem tcp_parse_eq (data : List UInt8) : tcp_parse data = .ok (segment data) := by
  obtain ⟨r, hr⟩ := tcp_parse_ok data
  unfold segment
  rw [hr]

/-! ## Fields of a frame -/

section

variable (f : List UInt8)

def etype : UInt16 := word f 12
def ip_hdr : List UInt8 := f.drop 14
def proto : UInt8 := (ip_hdr f).getD 9 0
def ip_src : Ip := addr (ip_hdr f) 12
def ip_dst : Ip := addr (ip_hdr f) 16
def ihl : ℕ := ihl_of ((ip_hdr f).getD 0 0)

/-- What is behind the header. -/
def body : List UInt8 := (ip_hdr f).drop (ihl f)

/-- The frame has an IP header, as far as `process_frame` looks. -/
def IsIp : Prop := 14 ≤ f.length ∧ etype f = 0x0800 ∧ 20 ≤ (ip_hdr f).length

instance : Decidable (IsIp f) := inferInstanceAs (Decidable (_ ∧ _ ∧ _))

end

/-- What `process_frame` does with a frame that has an IP header. -/
def process_ip (job : NetJob) (f : List UInt8) : NetM (JobOutcome × NetJob) :=
  match job with
  | .Ping target seq _ => do
    let out ← process_ping target seq f
    pure (out, job)
  | .Resolve _ dns_ip src_port txid _ next => do
    let out ← process_resolve dns_ip src_port txid next (ip_hdr f)
    pure (out, job)
  | .Tcp tcp => do
    let (out, tcp) ← process_tcp tcp (ip_hdr f)
    pure (out, .Tcp tcp)
  | .Udp _ _ src_port _ => do
    let out ← process_udp src_port (ip_hdr f)
    pure (out, job)

theorem process_ip_tcp {tcp tcp' : TcpJob} {s s' : NetState} {out : JobOutcome}
    (h : process_tcp tcp (ip_hdr f) s = .ok (out, tcp') s') :
    process_ip (.Tcp tcp) f s = .ok (out, .Tcp tcp') s' := by
  show (process_tcp tcp (ip_hdr f) >>= _) s = _
  rw [bind_of_ok h]
  rfl

theorem process_ip_udp {ip : Ip} {port src_port : UInt16} {deadline : UInt64} {s s' : NetState}
    {out : JobOutcome} (h : process_udp src_port (ip_hdr f) s = .ok out s') :
    process_ip (.Udp ip port src_port deadline) f s
        = .ok (out, .Udp ip port src_port deadline) s' := by
  show (process_udp src_port (ip_hdr f) >>= _) s = _
  rw [bind_of_ok h]
  rfl

theorem process_frame_eq (job : NetJob) (f : List UInt8) :
    process_frame job f = if IsIp f then process_ip job f else pure (.Pending, job) := by
  refine check Nat.not_lt fun hlen => ?_
  rw [lift_bind (be16_at_ok (by omega))]
  refine check not_not fun _ => ?_
  rw [lift_bind (slice_from_ok hlen)]
  exact check_last Nat.not_lt fun _ => rfl

/-! ## ICMP -/

/-- The frame reaches `handle_icmp`. -/
def IcmpForUs (f : List UInt8) : Prop :=
  ip_dst f = MY_IP ∧ ihl f ≤ (ip_hdr f).length ∧ proto f = 1

instance (f : List UInt8) : Decidable (IcmpForUs f) := inferInstanceAs (Decidable (_ ∧ _ ∧ _))

theorem handle_frame_eq (h : IsIp f) :
    ∃ mac, handle_frame f = if IcmpForUs f then handle_icmp (ip_src f) mac (body f)
      else pure () := by
  obtain ⟨hlen, hetype, hip⟩ := h
  obtain ⟨mac, hmac⟩ := mac_at_ok (d := f) (i := 6) (by omega)
  refine ⟨mac, ?_⟩
  have hword : word f 12 = 0x0800 := hetype
  have hip' : ¬ (f.drop 14).length < 20 := Nat.not_lt.mpr hip
  unfold handle_frame
  rw [if_neg (by omega), lift_bind (be16_at_ok (by omega)), lift_bind hmac, hword,
    if_neg (by decide), if_pos rfl, lift_bind (slice_from_ok hlen)]
  unfold handle_ip
  rw [if_neg hip', lift_bind (ip_at_ok (by omega))]
  refine check not_not fun _ => ?_
  rw [lift_bind (ip_at_ok (by omega)), lift_bind (idx_ok (by omega)), lift_bind (idx_ok (by omega))]
  refine check Nat.not_lt fun hhdr => ?_
  by_cases hproto : proto f = 1
  · rw [if_pos hproto]
    exact (if_pos hproto).trans (lift_bind (slice_from_ok hhdr) _)
  · rw [if_neg hproto]
    refine (if_neg hproto).trans ?_
    split_ifs
    · exact lift_bind (slice_from_ok hhdr) _
    · rfl

/-- An echo request that ends before its checksum does. -/
def ShortRequest (data : List UInt8) : Prop := data ≠ [] ∧ data.getD 0 0 = 8 ∧ data.length < 4

instance (data : List UInt8) : Decidable (ShortRequest data) :=
  inferInstanceAs (Decidable (_ ∧ _ ∧ _))

/-- An echo reply with its sequence number. -/
def EchoReply (data : List UInt8) (seq : UInt16) : Prop :=
  8 ≤ data.length ∧ data.getD 0 0 = 0 ∧ word data 6 = seq

instance (data : List UInt8) (seq : UInt16) : Decidable (EchoReply data seq) :=
  inferInstanceAs (Decidable (_ ∧ _ ∧ _))

/-- The state without what was sent and the last echo reply: all that other jobs than a ping depend
on. -/
def quiet (s : NetState) : NetState := { s with ping_reply := none, sent := [] }

/-- `handle_icmp` stops at a short request; otherwise it returns, and changes `PING_REPLY` only for
a reply. -/
theorem handle_icmp_run (src : Ip) (mac : Mac) (data : List UInt8) (s : NetState) :
    (ShortRequest data ∧ handle_icmp src mac data s = .error .panic s)
      ∨ (¬ ShortRequest data ∧ ∃ s', handle_icmp src mac data s = .ok () s' ∧ quiet s' = quiet s
        ∧ ∀ seq, s'.ping_reply = some seq ↔
            EchoReply data seq ∨ (s.ping_reply = some seq ∧ ∀ q, ¬ EchoReply data q)) := by
  -- without a reply in the packet the last one stays
  have hkeep : (∀ q, ¬ EchoReply data q) → ∀ seq, s.ping_reply = some seq ↔
      EchoReply data seq ∨ (s.ping_reply = some seq ∧ ∀ q, ¬ EchoReply data q) := fun hno seq =>
    ⟨fun h => .inr ⟨h, hno⟩, fun h => h.elim (fun hq => absurd hq (hno seq)) And.left⟩
  unfold handle_icmp
  by_cases hempty : data = []
  · refine .inr ⟨fun h => h.1 hempty, s, congrFun (if_pos hempty) s, rfl, hkeep fun q hq => ?_⟩
    have hlen := hq.1
    rw [hempty] at hlen
    simp at hlen
  have hpos : 0 < data.length := length_pos_iff.mpr hempty
  rw [if_neg hempty, lift_bind (idx_ok hpos)]
  by_cases hreq : data.getD 0 0 = 8
  · rw [if_pos hreq]
    by_cases hlen : 4 ≤ data.length
    · refine .inr ⟨fun h => absurd h.2.2 (by omega), ?_⟩
      rw [lift_bind (show echo_reply data = .ok _ from if_pos hlen)]
      -- sending leaves the reply alone, whether there is a card or not
      have hsame : ∀ (t : NetState) (g : List UInt8),
          (if t.nic.isSome then { t with sent := t.sent ++ [g] } else t).ping_reply = t.ping_reply
            ∧ quiet (if t.nic.isSome then { t with sent := t.sent ++ [g] } else t) = quiet t := by
        intro t g
        split_ifs
        · exact ⟨rfl, rfl⟩
        · exact ⟨rfl, rfl⟩
      refine ⟨_, rfl, (hsame s _).2, fun seq => ?_⟩
      rw [(hsame s _).1]
      exact hkeep (fun q hq => absurd (hreq.symm.trans hq.2.1) (by decide)) seq
    · refine .inl ⟨⟨hempty, hreq, by omega⟩, ?_⟩
      have herr : echo_reply data = .error .panic := if_neg hlen
      rw [herr]
      rfl
  · refine .inr ⟨fun h => hreq h.2.1, ?_⟩
    rw [if_neg hreq]
    by_cases hrep : data.getD 0 0 = 0
    · rw [if_pos hrep]
      by_cases hlen : 8 ≤ data.length
      · rw [if_pos hlen, lift_bind (be16_at_ok (by omega))]
        refine ⟨_, rfl, rfl, fun seq => ?_⟩
        rw [some_inj]
        refine ⟨fun h => .inl ⟨hlen, hrep, h⟩, fun h => ?_⟩
        rcases h with h | h
        · exact h.2.2
        · exact absurd ⟨hlen, hrep, rfl⟩ (h.2 (word data 6))
      · rw [if_neg hlen]
        exact ⟨s, rfl, rfl, hkeep fun q hq => hlen hq.1⟩
    · rw [if_neg hrep]
      exact ⟨s, rfl, rfl, hkeep fun q hq => hrep hq.2.1⟩

/-! ## DNS replies -/

/-- What a datagram carries. -/
def payload (f : List UInt8) : List UInt8 := (body f).drop 8

/-- The frame passes the checks in front of `parse_dns_answer`. -/
def DnsReply (f : List UInt8) (dns_ip : Ip) (src_port txid : UInt16) : Prop :=
  proto f = 17 ∧ ip_src f = dns_ip ∧ ihl f + 8 ≤ (ip_hdr f).length ∧ word (body f) 0 = 53
    ∧ word (body f) 2 = src_port ∧ 12 ≤ (payload f).length ∧ word (payload f) 0 = txid
    ∧ 128 ≤ (payload f).getD 2 0

instance (f : List UInt8) (dns_ip : Ip) (src_port txid : UInt16) :
    Decidable (DnsReply f dns_ip src_port txid) :=
  inferInstanceAs (Decidable (_ ∧ _ ∧ _ ∧ _ ∧ _ ∧ _ ∧ _ ∧ _))

theorem length_body (f : List UInt8) : (body f).length = (ip_hdr f).length - ihl f := length_drop

theorem process_resolve_eq {f : List UInt8} (h : IsIp f) (dns_ip : Ip) (src_port txid : UInt16)
    (next : NextAction) :
    process_resolve dns_ip src_port txid next (ip_hdr f) = if DnsReply f dns_ip src_port txid then
        match dns_answer (payload f) with
        | none => pure (.Done "could not resolve host")
        | some ip => do
          let job ← build_next next ip
          pure (.Replace job)
      else pure .Pending := by
  have hlen := h.2.2
  have hbody := length_body f
  unfold process_resolve
  rw [lift_bind (idx_ok (by omega))]
  refine check not_not fun _ => ?_
  rw [lift_bind (ip_at_ok (by omega))]
  refine check not_not fun _ => ?_
  rw [lift_bind (idx_ok (by omega))]
  refine check Nat.not_lt fun hroom => ?_
  refine (lift_bind (slice_from_ok (show ihl f ≤ (ip_hdr f).length by omega)) _).trans ?_
  refine (lift_bind (be16_at_ok (show 0 + 1 < (body f).length by omega)) _).trans ?_
  refine (lift_bind (be16_at_ok (show 2 + 1 < (body f).length by omega)) _).trans ?_
  refine check not_not fun _ => ?_
  refine check not_not fun _ => ?_
  refine (lift_bind (slice_from_ok (show 8 ≤ (body f).length by omega)) _).trans ?_
  refine check Nat.not_lt fun hdns => ?_
  refine (lift_bind (be16_at_ok (show 0 + 1 < (payload f).length by omega)) _).trans ?_
  refine (lift_bind (idx_ok (show 2 < (payload f).length by omega)) _).trans ?_
  refine check not_not fun _ => ?_
  exact check_last UInt8.not_lt fun _ => lift_bind (parse_dns_answer_eq (payload f)) _

/-! ## Datagrams -/

/-- The frame passes the checks for a datagram: nobody asks where it comes from. -/
def Datagram (f : List UInt8) (src_port : UInt16) : Prop :=
  proto f = 17 ∧ ihl f + 8 ≤ (ip_hdr f).length ∧ word (body f) 2 = src_port ∧ 8 ≤ word (body f) 4
    ∧ (word (body f) 4).toNat ≤ (body f).length

instance (f : List UInt8) (src_port : UInt16) : Decidable (Datagram f src_port) :=
  inferInstanceAs (Decidable (_ ∧ _ ∧ _ ∧ _ ∧ _))

/-- What is shown of a datagram. -/
def reply_text (f : List UInt8) : String :=
  let payload := ((body f).drop 8).take ((word (body f) 4).toNat - 8)
  "Reply from " ++ (ip_src f).text ++ ":" ++ toString (word (body f) 0) ++ " ("
    ++ toString payload.length
    ++ " bytes):\n" ++ (from_utf8 payload).getD "(non-UTF-8)" ++ "\n"

theorem process_udp_eq (h : IsIp f) (src_port : UInt16) :
    process_udp src_port (ip_hdr f) = if Datagram f src_port then pure (.Done (reply_text f))
        else pure .Pending := by
  have hlen := h.2.2
  have hbody := length_body f
  unfold process_udp
  rw [lift_bind (idx_ok (by omega))]
  refine check not_not fun _ => ?_
  rw [lift_bind (idx_ok (by omega))]
  refine check Nat.not_lt fun hroom => ?_
  refine (lift_bind (slice_from_ok (show ihl f ≤ (ip_hdr f).length by omega)) _).trans ?_
  refine (lift_bind (be16_at_ok (show 2 + 1 < (body f).length by omega)) _).trans ?_
  refine check not_not fun _ => ?_
  refine (lift_bind (be16_at_ok (show 4 + 1 < (body f).length by omega)) _).trans ?_
  refine check_last (not_or.trans (and_congr UInt16.not_lt Nat.not_lt)) fun ⟨hmin, hmax⟩ => ?_
  refine (lift_bind (be16_at_ok (show 0 + 1 < (body f).length by omega)) _).trans ?_
  refine (lift_bind (ip_at_ok (show 12 + 3 < (ip_hdr f).length by omega)) _).trans ?_
  exact lift_bind (slice_ok (UInt16.le_iff_toNat_le.mp hmin) hmax) _

/-! ## Segments -/

/-- An ICMP packet of the type "unreachable", whatever it quotes. -/
def Unreachable (f : List UInt8) : Prop :=
  proto f = 1 ∧ ihl f < (ip_hdr f).length ∧ (ip_hdr f).getD (ihl f) 0 = 3

instance (f : List UInt8) : Decidable (Unreachable f) := inferInstanceAs (Decidable (_ ∧ _ ∧ _))

/-- The packet without the padding of the frame. -/
def ip_body (f : List UInt8) : List UInt8 :=
  (ip_hdr f).take (min (word (ip_hdr f) 2).toNat (ip_hdr f).length)

/-- The segment of the job's connection that a frame carries. -/
def segment_of (job : TcpJob) (f : List UInt8) : Option Segment :=
  if proto f = 6 ∧ ip_src f = job.ip ∧ ip_dst f = MY_IP ∧ ihl f ≤ (ip_body f).length then
    (segment ((ip_body f).drop (ihl f))).filter fun seg =>
      decide (seg.src_port = job.port ∧ seg.dst_port = job.src_port)
  else none

theorem take_four {d : List UInt8} {i : ℕ} (h : i + 4 ≤ d.length) :
    (d.drop i).take 4 = (addr d i).bytes := by
  have hstep : ∀ k, k < d.length → d.drop k = d.getD k 0 :: d.drop (k + 1) := by
    intro k hk
    rw [drop_eq_getElem_cons hk, getD_eq_getElem _ _ hk]
  rw [hstep i (by omega), hstep (i + 1) (by omega), hstep (i + 1 + 1) (by omega),
    hstep (i + 1 + 1 + 1) (by omega)]
  rfl

theorem Ip.bytes_inj {p q : Ip} : p.bytes = q.bytes ↔ p = q := by
  refine ⟨fun h => ?_, fun h => h ▸ rfl⟩
  unfold Ip.bytes at h
  simp only [List.cons.injEq, and_true] at h
  obtain ⟨ha, hb, hc, hd⟩ := h
  exact Ip.mk.injEq .. ▸ ⟨ha, hb, hc, hd⟩

theorem process_tcp_eq (h : IsIp f) (job : TcpJob) :
    process_tcp job (ip_hdr f) = if Unreachable f then pure (.Done "wget: unreachable", job)
      else match segment_of job f with
        | none => pure (.Pending, job)
        | some seg => if seg.flags &&& TCP_RST ≠ 0 then pure (.Done "wget: connection refused", job)
          else tcp_input job seg := by
  have hlen := h.2.2
  have hother : proto f ≠ 1 → ¬ Unreachable f := fun hne hu => hne hu.1
  have hnone : proto f ≠ 6 → segment_of job f = none := fun hne => if_neg fun hs => hne hs.1
  unfold process_tcp
  rw [lift_bind (idx_ok (by omega)), lift_bind (idx_ok (by omega))]
  -- the tests in the source's order
  by_cases hicmp : proto f = 1
  · refine (if_pos hicmp).trans ?_
    rw [hnone (by rw [hicmp]; decide)]
    by_cases hroom : ihl f < (ip_hdr f).length
    · refine (if_pos hroom).trans ((lift_bind (idx_ok hroom) _).trans ?_)
      by_cases hkind : (ip_hdr f).getD (ihl f) 0 = 3
      · rw [if_pos (show Unreachable f from ⟨hicmp, hroom, hkind⟩)]
        exact if_pos hkind
      · rw [if_neg fun hu : Unreachable f => hkind hu.2.2]
        exact if_neg hkind
    · rw [if_neg fun hu : Unreachable f => hroom hu.2.1]
      exact if_neg hroom
  refine (if_neg hicmp).trans ?_
  rw [if_neg (hother hicmp)]
  by_cases hproto : proto f = 6
  swap
  · rw [hnone hproto]
    exact if_pos hproto
  refine (if_neg (not_not.mpr hproto)).trans ?_
  rw [lift_bind (ip_at_ok (by omega)), lift_bind (slice_ok (by omega) hlen), take_four (by omega)]
  -- from here on the frame is TCP
  by_cases haddr : addr (ip_hdr f) 12 ≠ job.ip ∨ (addr (ip_hdr f) 16).bytes ≠ MY_IP.bytes
  · have hnot : segment_of job f = none :=
      if_neg fun hs => haddr.elim (fun hsrc => hsrc hs.2.1)
        (fun hdst => hdst (Ip.bytes_inj.mpr hs.2.2.1))
    rw [hnot]
    exact if_pos haddr
  obtain ⟨hsrc, hdst⟩ := not_or.mp haddr
  rw [if_neg haddr, lift_bind (be16_at_ok (by omega)),
    lift_bind (slice_ok (Nat.zero_le _) (Nat.min_le_right _ _))]
  by_cases hshort : (ip_body f).length < ihl f
  · have hnot : segment_of job f = none := if_neg fun hs => absurd hshort (Nat.not_lt.mpr hs.2.2.2)
    rw [hnot]
    exact if_pos hshort
  refine (if_neg hshort).trans ?_
  refine (lift_bind (slice_from_ok (Nat.not_lt.mp hshort)) _).trans ?_
  refine (lift_bind (tcp_parse_eq _) _).trans ?_
  have hseg : segment_of job f = (segment ((ip_body f).drop (ihl f))).filter fun seg =>
      decide (seg.src_port = job.port ∧ seg.dst_port = job.src_port) :=
    if_pos ⟨hproto, not_not.mp hsrc, Ip.bytes_inj.mp (not_not.mp hdst), Nat.not_lt.mp hshort⟩
  rw [hseg]
  cases segment ((ip_body f).drop (ihl f)) with
  | none => rfl
  | some seg =>
    by_cases hports : seg.src_port = job.port ∧ seg.dst_port = job.src_port
    · rw [filter_some, if_pos (decide_eq_true hports)]
      refine if_neg ?_
      rw [not_or, not_not, not_not]
      exact hports
    · rw [filter_some, if_neg (by rwa [decide_eq_true_eq])]
      exact if_pos (by rwa [← not_and_or])

end HepOS.Net
