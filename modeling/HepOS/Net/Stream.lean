/-
The receiving side of a TCP connection.

A server has a stream of bytes and sends it in segments, cut as it likes and as often as it likes: a
segment is a piece of the stream with the sequence number of its first byte, and FIN stands on a
piece that reaches the end. The network brings segments in any order, any number of times, or not at
all. All other frames may come in between.

`process_frame` appends the payload of every segment to `rx` without a look at its sequence number,
and takes the first FIN for the end. So the buffer is right as long as the segments come in order,
each starting where the last one stored ended (`intact_of_in_order`); a segment that comes twice is
stored twice.

Sequence numbers are 32 bits wide and wrap around; positions in the stream are natural numbers.
-/
import HepOS.Lib.Trace
import HepOS.Net.Safety

set_option autoImplicit false

namespace HepOS.Net

open Hoare Trace List

variable {a : UInt32} {s : NetState} {seg : Segment} {job : TcpJob}

/-! ## The server -/

section

variable (stream : List UInt8) (isn : UInt32)

/-- The sequence number of a byte of the stream. -/
def seq_of (off : ℕ) : UInt32 := isn + 1 + UInt32.ofNat off

/-- The answer to our SYN. -/
structure SynAck (seg : Segment) : Prop where
  seq : seg.seq = isn
  syn : seg.flags &&& (TCP_SYN ||| TCP_ACK) = TCP_SYN ||| TCP_ACK
  fin : seg.flags &&& TCP_FIN = 0
  payload : seg.payload = []

/-- A piece of the stream. -/
structure Data (off : ℕ) (seg : Segment) : Prop where
  seq : seg.seq = seq_of isn off
  bytes : seg.payload <+: stream.drop off
  syn : seg.flags &&& (TCP_SYN ||| TCP_ACK) ≠ TCP_SYN ||| TCP_ACK
  fin : seg.flags &&& TCP_FIN ≠ 0 → seg.payload = stream.drop off ∧ off ≤ stream.length

/-- What the server may send, a reset included. -/
def Sends (seg : Segment) : Prop :=
  seg.flags &&& TCP_RST ≠ 0 ∨ SynAck isn seg ∨ ∃ off, Data stream isn off seg

/-! ## Connections -/

structure Conn where
  net : NetState
  job : TcpJob
  out : JobOutcome

/-- A frame arrives. If it is a segment of the connection, the server has sent it. -/
structure Arrives (c : Conn) (f : List UInt8) (c' : Conn) : Prop where
  pending : c.out = .Pending
  run : process_frame (.Tcp c.job) f c.net = .ok (c'.out, .Tcp c'.job) c'.net
  server : ∀ seg, segment_of c.job f = some seg → Sends stream isn seg

/-- A segment that brings something starts where the bytes stored so far end. -/
def InOrder (c : Conn) (f : List UInt8) : Prop :=
  ∀ seg, segment_of c.job f = some seg → c.job.state = 1 →
    (seg.payload ≠ [] ∨ seg.flags &&& TCP_FIN ≠ 0) →
    Data stream isn c.job.rx.length seg

/-- The acknowledgement number of a frame with a TCP segment, if the segment has one. -/
def ack_of (g : List UInt8) : Option UInt32 :=
  let seg := g.drop 34
  if seg.getD 13 0 &&& TCP_ACK ≠ 0 then
    some (be32 (seg.getD 8 0) (seg.getD 9 0) (seg.getD 10 0) (seg.getD 11 0))
  else none

/-- The acknowledgements that were sent after the first `base` frames. -/
def acks (base : ℕ) (s : NetState) : List UInt32 := (s.sent.drop base).filterMap ack_of

/-- The number acknowledges bytes that are stored, or the FIN when they all are. -/
def Covers (rx : List UInt8) (a : UInt32) : Prop :=
  (∃ k ≤ rx.length, a = seq_of isn k) ∨ (rx = stream ∧ a = seq_of isn (stream.length + 1))

/-- What the connection should keep: stored bytes, acknowledgements and the end. -/
structure Intact (base : ℕ) (c : Conn) : Prop where
  rx : c.job.rx <+: stream
  acks : ∀ a ∈ acks base c.net, Covers stream isn c.job.rx a
  done : ∀ msg, c.out = .Done msg → msg = "wget: unreachable" ∨ msg = "wget: connection refused"
    ∨ (c.job.rx = stream ∧ msg = format_wget_result stream)

end

/-! ## Segments that are sent -/

theorem be32_bytes32 (v : UInt32) :
    be32 (v / 16777216).toUInt8 (v / 65536).toUInt8 (v / 256).toUInt8 v.toUInt8 = v := by
  have hlt := v.toNat_lt
  rw [← UInt32.toNat_inj]
  unfold be32
  simp only [UInt32.toNat_add, UInt32.toNat_mul, UInt8.toNat_toUInt32, UInt32.toNat_toUInt8,
    UInt32.toNat_div, UInt32.reduceToNat]
  omega

/-- The frame around a segment. -/
def tcp_frame (s : NetState) (dst_ip : Ip) (dst_mac : Mac) (seg : List UInt8) : List UInt8 :=
  eth_frame dst_mac (my_mac s) 0x0800 (ip_packet dst_ip 6 seg)

theorem drop_tcp_frame (s : NetState) (dst_ip : Ip) (dst_mac : Mac) (seg : List UInt8) :
    (tcp_frame s dst_ip dst_mac seg).drop 34 = seg := by
  have heth : (dst_mac.bytes ++ (my_mac s).bytes ++ bytes16 0x0800).length = 14 := by
    rw [length_append, length_append, dst_mac.length, (my_mac s).length]
    rfl
  have hsplit : ∀ l : List UInt8, l.drop 34 = (l.drop 14).drop 20 := fun l => by rw [drop_drop]
  unfold tcp_frame eth_frame
  rw [hsplit, drop_left' heth]
  exact drop_left' rfl

theorem ack_of_tcp_frame (s : NetState) (dst_ip : Ip) (dst_mac : Mac) (src_port dst_port : UInt16)
    (seq ack : UInt32) (flags : UInt8) (cksum : UInt16) (data : List UInt8) :
    ack_of (tcp_frame s dst_ip dst_mac (tcp_segment src_port dst_port seq ack flags cksum data))
      = if flags &&& TCP_ACK ≠ 0 then some ack else none := by
  unfold ack_of
  rw [drop_tcp_frame]
  show (if flags &&& TCP_ACK ≠ 0
    then some (be32 (ack / 16777216).toUInt8 (ack / 65536).toUInt8 (ack / 256).toUInt8
    ack.toUInt8) else none) = _
  rw [be32_bytes32]

/-- Frames are added behind the others, and the only new acknowledgement is `a`. -/
def Sent (a : UInt32) (s s' : NetState) : Prop :=
  ∀ base ≤ s.sent.length, base ≤ s'.sent.length ∧ ∀ x ∈ acks base s', x ∈ acks base s ∨ x = a

theorem Sent.trans {s' s'' : NetState} (h : Sent a s s') (h' : Sent a s' s'') : Sent a s s'' := by
  intro base hbase
  obtain ⟨hbase', hacks⟩ := h base hbase
  obtain ⟨hbase'', hacks'⟩ := h' base hbase'
  refine ⟨hbase'', fun x hx => ?_⟩
  rcases hacks' x hx with hx | hx
  · exact hacks x hx
  · exact .inr hx

theorem tcp_send_seg_sent (dst_ip : Ip) (dst_mac : Mac) (src_port dst_port : UInt16)
    (seq ack : UInt32) (flags : UInt8) (data : List UInt8) (s : NetState) :
    ∃ s', tcp_send_seg dst_ip dst_mac src_port dst_port seq ack flags data s = .ok () s'
      ∧ Sent ack s s' := by
  refine ⟨_, rfl, fun base hbase => ?_⟩
  beta_reduce
  split_ifs
  · refine ⟨by rw [length_append]; omega, fun x hx => ?_⟩
    unfold acks at hx
    rw [drop_append_of_le_length hbase, filterMap_append, mem_append] at hx
    rcases hx with hx | hx
    · exact .inl hx
    · obtain ⟨g, hg, hgx⟩ := mem_filterMap.mp hx
      obtain rfl := mem_singleton.mp hg
      have hframe :=
        (ack_of_tcp_frame s dst_ip dst_mac src_port dst_port seq ack flags _ data).symm.trans hgx
      split_ifs at hframe
      exact .inr (Option.some.inj hframe).symm
  · exact ⟨hbase, fun x hx => .inl hx⟩

/-! ## One segment -/

/-- State 0. -/
theorem tcp_open_run (job : TcpJob) (seg : Segment) (s : NetState) :
    (seg.flags &&& (TCP_SYN ||| TCP_ACK) = TCP_SYN ||| TCP_ACK ∧ ∃ s' seq, tcp_open job seg s
        = .ok (.Pending, { job with seq := seq, ack := seg.seq + 1, state := 1 }) s'
          ∧ Sent (seg.seq + 1) s s')
      ∨ (seg.flags &&& (TCP_SYN ||| TCP_ACK) ≠ TCP_SYN ||| TCP_ACK
        ∧ tcp_open job seg s = .ok (.Pending, job) s) := by
  unfold tcp_open
  by_cases hsyn : seg.flags &&& (TCP_SYN ||| TCP_ACK) = TCP_SYN ||| TCP_ACK
  · obtain ⟨s1, hrun1, hsent1⟩ := tcp_send_seg_sent job.ip GW_MAC job.src_port job.port
      (job.seq + 1) (seg.seq + 1)
      TCP_ACK [] s
    obtain ⟨s2, hrun2, hsent2⟩ := tcp_send_seg_sent job.ip GW_MAC job.src_port job.port
      (job.seq + 1) (seg.seq + 1)
      (TCP_PSH ||| TCP_ACK) job.req s1
    refine .inl ⟨hsyn, s2, job.seq + 1 + UInt32.ofNat job.req.length, ?_, hsent1.trans hsent2⟩
    rw [if_pos hsyn]
    exact (bind_of_ok hrun1).trans (bind_of_ok hrun2)
  · refine .inr ⟨hsyn, ?_⟩
    rw [if_neg hsyn]
    rfl

/-- State 1, the payload. -/
theorem tcp_store_run (job : TcpJob) (seg : Segment) (s : NetState) :
    (seg.payload = [] ∧ tcp_store job seg s = .ok job s)
      ∨ (seg.payload ≠ [] ∧ ∃ s', tcp_store job seg s = .ok { job with
          rx := job.rx ++ seg.payload, ack := seg.seq + UInt32.ofNat seg.payload.length } s'
        ∧ Sent (seg.seq + UInt32.ofNat seg.payload.length) s s') := by
  unfold tcp_store
  by_cases hpay : seg.payload = []
  · refine .inl ⟨hpay, ?_⟩
    rw [if_neg (not_not.mpr hpay)]
    rfl
  · obtain ⟨s', hrun, hsent⟩ := tcp_send_seg_sent job.ip GW_MAC job.src_port job.port job.seq
      (seg.seq + UInt32.ofNat seg.payload.length) TCP_ACK [] s
    refine .inr ⟨hpay, s', ?_, hsent⟩
    rw [if_pos hpay]
    exact bind_of_ok hrun

/-- State 1, the end. -/
theorem tcp_finish_run (job : TcpJob) (seg : Segment) (s : NetState) :
    (seg.flags &&& TCP_FIN = 0 ∧ tcp_finish job seg s = .ok (.Pending, job) s)
      ∨ (seg.flags &&& TCP_FIN ≠ 0 ∧ ∃ s', tcp_finish job seg s
          = .ok (.Done (format_wget_result job.rx), { job with ack := job.ack + 1 }) s'
            ∧ Sent (job.ack + 1) s s') := by
  unfold tcp_finish
  by_cases hfin : seg.flags &&& TCP_FIN = 0
  · refine .inl ⟨hfin, ?_⟩
    rw [if_neg (not_not.mpr hfin)]
    rfl
  · obtain ⟨s', hrun, hsent⟩ :=
      tcp_send_seg_sent job.ip GW_MAC job.src_port job.port job.seq (job.ack + 1)
      (TCP_FIN ||| TCP_ACK) [] s
    refine .inr ⟨hfin, s', ?_, hsent⟩
    rw [if_pos hfin]
    exact bind_of_ok hrun

/-! ## The invariant -/

section

variable {stream : List UInt8} {isn : UInt32} {base : ℕ} {c c' : Conn} {f : List UInt8}

theorem seq_of_add (off n : ℕ) : seq_of isn off + UInt32.ofNat n = seq_of isn (off + n) := by
  unfold seq_of
  rw [UInt32.ofNat_add, UInt32.add_assoc]

theorem Covers.mono {rx rx' : List UInt8} (h : Covers stream isn rx a) (hrx : rx <+: rx')
    (hstream : rx' <+: stream) : Covers stream isn rx' a := by
  rcases h with ⟨k, hk, rfl⟩ | ⟨rfl, rfl⟩
  · exact .inl ⟨k, hk.trans hrx.length_le, rfl⟩
  · exact .inr ⟨hstream.eq_of_length_le hrx.length_le, rfl⟩

/-- Besides: nothing is stored before the connection is open, and then the next acknowledgement is
that of the bytes stored. -/
structure Inv (stream : List UInt8) (isn : UInt32) (base : ℕ) (c : Conn) : Prop where
  intact : Intact stream isn base c
  base_le : base ≤ c.net.sent.length
  phase : c.out = .Pending → (c.job.state = 0 ∧ c.job.rx = [])
    ∨ (c.job.state = 1 ∧ c.job.ack = seq_of isn c.job.rx.length)

/-- Acknowledgements after a step: those of before, and one that covers what is stored now. -/
theorem acks_of_sent {rx rx' : List UInt8} {s' : NetState} (hbase : base ≤ s.sent.length)
    (hold : ∀ x ∈ acks base s, Covers stream isn rx x) (hrx : rx <+: rx') (hstream : rx' <+: stream)
    (hnew : Covers stream isn rx' a) (hsent : Sent a s s') :
    ∀ x ∈ acks base s', Covers stream isn rx' x := by
  intro x hx
  rcases (hsent base hbase).2 x hx with hx | rfl
  · exact (hold x hx).mono hrx hstream
  · exact hnew

theorem Inv.open (h : Inv stream isn base c) (hrx : c.job.rx = []) (hsends : Sends stream isn seg)
    (hrst : seg.flags &&& TCP_RST = 0) {out : JobOutcome}
    (hrun : tcp_open c.job seg c.net = .ok (out, job) s) (hstate : c.job.state = 0) :
    Inv stream isn base ⟨s, job, out⟩ := by
  rcases tcp_open_run c.job seg c.net with ⟨hsyn, s', seq, hok, hsent⟩ | ⟨-, hok⟩
  · rw [hok] at hrun
    cases hrun
    -- only the answer to the SYN has these flags
    have hseq : seg.seq + 1 = seq_of isn 0 := by
      rcases hsends with hreset | hsynack | ⟨off, hdata⟩
      · exact absurd hrst hreset
      · rw [hsynack.seq]
        exact (UInt32.add_zero _).symm
      · exact absurd hsyn hdata.syn
    refine ⟨⟨h.intact.rx, ?_, fun msg hmsg => absurd hmsg JobOutcome.noConfusion⟩,
      (hsent base h.base_le).1, fun _ => .inr ⟨rfl, ?_⟩⟩
    · exact acks_of_sent h.base_le h.intact.acks (prefix_refl _) h.intact.rx
        (.inl ⟨0, Nat.zero_le _, hseq⟩) hsent
    · show seg.seq + 1 = seq_of isn c.job.rx.length
      rw [hrx]
      exact hseq
  · rw [hok] at hrun
    cases hrun
    exact ⟨⟨h.intact.rx, h.intact.acks, fun msg hmsg => absurd hmsg JobOutcome.noConfusion⟩,
      h.base_le, fun _ => .inl ⟨hstate, hrx⟩⟩

/-- The payload of a segment in order. -/
theorem Inv.store (h : Inv stream isn base c) (hack : c.job.ack = seq_of isn c.job.rx.length)
    (horder : seg.payload ≠ [] → Data stream isn c.job.rx.length seg)
    (hrun : tcp_store c.job seg c.net = .ok job s) :
    job.rx = c.job.rx ++ seg.payload ∧ job.state = c.job.state ∧ job.rx <+: stream
      ∧ job.ack = seq_of isn job.rx.length
      ∧ base ≤ s.sent.length ∧ ∀ a ∈ acks base s, Covers stream isn job.rx a := by
  rcases tcp_store_run c.job seg c.net with ⟨hpay, hok⟩ | ⟨hpay, s', hok, hsent⟩
  · rw [hok] at hrun
    cases hrun
    exact ⟨by rw [hpay, append_nil], rfl, h.intact.rx, hack, h.base_le, h.intact.acks⟩
  · rw [hok] at hrun
    cases hrun
    have hdata := horder hpay
    -- the piece continues the part of the stream that is stored
    have hpre : c.job.rx ++ seg.payload <+: stream := by
      obtain ⟨rest, hrest⟩ := h.intact.rx
      have hdrop : stream.drop c.job.rx.length = rest := by
        rw [← hrest]
        exact drop_left
      have hbytes := hdata.bytes
      rw [hdrop] at hbytes
      rw [← hrest]
      exact (prefix_append_right_inj _).mpr hbytes
    have hnext : seg.seq + UInt32.ofNat seg.payload.length
        = seq_of isn (c.job.rx ++ seg.payload).length := by
      rw [hdata.seq, seq_of_add, length_append]
    refine ⟨rfl, rfl, hpre, hnext, (hsent base h.base_le).1, ?_⟩
    exact acks_of_sent h.base_le h.intact.acks (prefix_append _ _) hpre
      (.inl ⟨_, le_rfl, hnext⟩) hsent

/-- A segment in state 1. -/
theorem Inv.segment (h : Inv stream isn base c) (hstate : c.job.state = 1)
    (hack : c.job.ack = seq_of isn c.job.rx.length)
    (horder : (seg.payload ≠ [] ∨ seg.flags &&& TCP_FIN ≠ 0) → Data stream isn c.job.rx.length seg)
    {out : JobOutcome}
    (hrun : (tcp_store c.job seg >>= fun job => tcp_finish job seg) c.net = .ok (out, job) s) :
    Inv stream isn base ⟨s, job, out⟩ := by
  obtain ⟨mid, s1, hstore, hrun⟩ := exists_of_bind_ok hrun
  obtain ⟨hrx, hmid, hpre, hmack, hbase, hacks⟩ :=
    h.store hack (fun hpay => horder (.inl hpay)) hstore
  rcases tcp_finish_run mid seg s1 with ⟨-, hok⟩ | ⟨hfin, s', hok, hsent⟩
  · rw [hok] at hrun
    cases hrun
    exact ⟨⟨hpre, hacks, fun msg hmsg => absurd hmsg JobOutcome.noConfusion⟩, hbase,
      fun _ => .inr ⟨hmid.trans hstate, hmack⟩⟩
  · rw [hok] at hrun
    cases hrun
    -- FIN stands on the piece that reaches the end
    have hwhole : mid.rx = stream := by
      obtain ⟨rest, hrest⟩ := h.intact.rx
      have hend := ((horder (.inr hfin)).fin hfin).1
      rw [hrx, hend, ← hrest]
      congr 1
      exact drop_left
    have hlast : mid.ack + 1 = seq_of isn (stream.length + 1) := by
      rw [hmack, hwhole]
      exact seq_of_add stream.length 1
    refine ⟨⟨hpre, ?_, fun msg hmsg => ?_⟩, (hsent base hbase).1,
      fun hpending => absurd hpending JobOutcome.noConfusion⟩
    · exact acks_of_sent hbase hacks (prefix_refl _) hpre (.inr ⟨hwhole, hlast⟩) hsent
    · obtain rfl := JobOutcome.Done.inj hmsg
      exact .inr (.inr ⟨hwhole, by rw [hwhole]⟩)

theorem Inv.arrives (h : Inv stream isn base c) (harr : Arrives stream isn c f c')
    (horder : InOrder stream isn c f) :
    Inv stream isn base c' := by
  have hphase := h.phase harr.pending
  obtain ⟨net', job', out'⟩ := c'
  have hrun := harr.run
  dsimp only at hrun
  rw [process_frame_eq] at hrun
  -- the connection is not touched
  have hsame : ∀ {out : JobOutcome},
    (.ok (out, .Tcp c.job) c.net : EStateM.Result Panic NetState (JobOutcome × NetJob))
      = .ok (out', .Tcp job') net' → (out = .Pending ∨ ∃ msg, out = .Done msg
        ∧ (msg = "wget: unreachable" ∨ msg = "wget: connection refused")) →
          Inv stream isn base ⟨net', job', out'⟩ := by
    intro out heq hout
    obtain ⟨hpair, rfl⟩ := EStateM.Result.ok.inj heq
    obtain ⟨rfl, hjob⟩ := Prod.mk.inj hpair
    obtain rfl := NetJob.Tcp.inj hjob
    refine ⟨⟨h.intact.rx, h.intact.acks, fun msg hmsg => ?_⟩, h.base_le, fun _ => hphase⟩
    rcases hout with rfl | ⟨text, rfl, htext⟩
    · exact absurd hmsg JobOutcome.noConfusion
    · obtain rfl := JobOutcome.Done.inj hmsg
      exact htext.elim .inl fun hrefused => .inr (.inl hrefused)
  by_cases hip : IsIp f
  swap
  · rw [if_neg hip] at hrun
    exact hsame hrun (.inl rfl)
  rw [if_pos hip] at hrun
  obtain ⟨⟨out, job⟩, s, htcp, hpure⟩ := exists_of_bind_ok hrun
  obtain ⟨hpair, rfl⟩ := EStateM.Result.ok.inj hpure
  obtain ⟨rfl, hjob⟩ := Prod.mk.inj hpair
  obtain rfl := NetJob.Tcp.inj hjob
  rw [process_tcp_eq hip] at htcp
  by_cases hunreach : Unreachable f
  · rw [if_pos hunreach] at htcp
    obtain ⟨hpair, rfl⟩ := EStateM.Result.ok.inj htcp
    cases hpair
    exact hsame rfl (.inr ⟨_, rfl, .inl rfl⟩)
  rw [if_neg hunreach] at htcp
  cases hseg : segment_of c.job f with
  | none =>
    rw [hseg] at htcp
    obtain ⟨hpair, rfl⟩ := EStateM.Result.ok.inj htcp
    cases hpair
    exact hsame rfl (.inl rfl)
  | some seg =>
    rw [hseg] at htcp
    dsimp only at htcp
    by_cases hrst : seg.flags &&& TCP_RST = 0
    · rw [if_neg (not_not.mpr hrst)] at htcp
      unfold tcp_input at htcp
      rcases hphase with ⟨hstate, hrx⟩ | ⟨hstate, hack⟩
      · rw [if_pos hstate] at htcp
        exact h.open hrx (harr.server seg hseg) hrst htcp hstate
      · rw [if_neg (by rw [hstate]; decide), if_pos hstate] at htcp
        exact h.segment hstate hack (horder seg hseg hstate) htcp
    · rw [if_pos hrst] at htcp
      obtain ⟨hpair, rfl⟩ := EStateM.Result.ok.inj htcp
      cases hpair
      exact hsame rfl (.inr ⟨_, rfl, .inr rfl⟩)

end

/-- A connection that has just been started: the SYN is out, and it acknowledges nothing. -/
theorem inv_start {ip : Ip} {port : UInt16} {req stream : List UInt8} {isn : UInt32} {s0 : NetState}
    (h : build_tcp_job ip port req s = .ok (.Tcp job) s0) :
    Inv stream isn s.sent.length ⟨s0, job, .Pending⟩ := by
  obtain ⟨src_port, s1, hport, h⟩ := exists_of_bind_ok h
  obtain ⟨now, s2, hnow, h⟩ := exists_of_bind_ok h
  obtain ⟨_, s3, hsend, h⟩ := exists_of_bind_ok h
  obtain ⟨deadline, s4, hdeadline, h⟩ := exists_of_bind_ok h
  obtain ⟨hjob, rfl⟩ := EStateM.Result.ok.inj h
  obtain rfl := NetJob.Tcp.inj hjob
  have hsent1 : s1.sent = s.sent := by
    unfold next_src_port at hport
    dsimp only at hport
    split_ifs at hport
    · cases hport
      rfl
    · cases hport
      rfl
  have hsent2 : s2.sent = s1.sent := by
    cases hnow
    rfl
  have hsent4 : s4.sent = s3.sent := by
    cases hdeadline
    rfl
  -- the SYN has no acknowledgement
  have hsyn : s.sent.length ≤ s3.sent.length ∧ acks s.sent.length s3 = [] := by
    cases hsend
    beta_reduce
    split_ifs
    · refine ⟨by rw [length_append, hsent2, hsent1]; omega, ?_⟩
      unfold acks
      rw [hsent2, hsent1, drop_left, filterMap_cons_none, filterMap_nil]
      exact (ack_of_tcp_frame s2 ip GW_MAC src_port port _ 0 TCP_SYN _ []).trans
        (if_neg (by decide))
    · refine ⟨by rw [hsent2, hsent1], ?_⟩
      unfold acks
      rw [hsent2, hsent1, drop_length, filterMap_nil]
  refine ⟨⟨ nil_prefix, fun a ha => ?_, fun msg hmsg => absurd hmsg JobOutcome.noConfusion⟩, ?_,
    fun _ => .inl ⟨rfl, rfl⟩⟩
  · unfold acks at ha hsyn
    rw [hsent4, hsyn.2] at ha
    simp at ha
  · dsimp only
    rw [hsent4]
    exact hsyn.1

/-- **The stream.** While the segments come in order, what is stored is a beginning of the stream,
what is acknowledged is stored, and the job ends well only with the whole of it. -/
theorem intact_of_in_order {ip : Ip} {port : UInt16} {req stream : List UInt8} {isn : UInt32}
    {s s₀ : NetState} {job : TcpJob} {frames : List (List UInt8)} {c : Conn}
    (hstart : build_tcp_job ip port req s = .ok (.Tcp job) s₀)
    (hrun : Steps (fun c f c' => Arrives stream isn c f c' ∧ InOrder stream isn c f)
      ⟨s₀, job, .Pending⟩ frames c) :
    Intact stream isn s.sent.length c := by
  have hinv : Inv stream isn s.sent.length c :=
    hrun.keeps (inv_start hstart) fun _ _ _ h hstep => h.arrives hstep.1 hstep.2
  exact hinv.intact

/-! ### Runs on given frames -/

/-- What a frame makes of a connection. -/
def deliver (c : Conn) (f : List UInt8) : Conn :=
  match process_frame (.Tcp c.job) f c.net with
  | .ok (out, .Tcp job) net => ⟨net, job, out⟩
  | _ => c

/-- A TCP job handles every frame and stays one. -/
theorem deliver_run (c : Conn) (f : List UInt8) :
    process_frame (.Tcp c.job) f c.net = .ok ((deliver c f).out, .Tcp (deliver c f).job)
        (deliver c f).net := by
  obtain ⟨⟨out, job⟩, s, hrun⟩ :=
    (show Returns (process_frame (.Tcp c.job) f) from process_frame_handled fun h => h) c.net
  have htcp : ∃ tcp, job = .Tcp tcp := by
    have hrun' := hrun
    rw [process_frame_eq] at hrun'
    split_ifs at hrun'
    · obtain ⟨⟨out', tcp⟩, s', -, hpure⟩ := exists_of_bind_ok hrun'
      obtain ⟨hpair, -⟩ := EStateM.Result.ok.inj hpure
      exact ⟨tcp, (Prod.mk.inj hpair).2.symm⟩
    · obtain ⟨hpair, -⟩ := EStateM.Result.ok.inj hrun'
      exact ⟨c.job, (Prod.mk.inj hpair).2.symm⟩
  obtain ⟨tcp, rfl⟩ := htcp
  unfold deliver
  rw [hrun]

/-- A connection from a machine with a card to port 80 of 10.0.2.2. -/
def started : Conn :=
  match build_tcp_job ⟨10, 0, 2, 2⟩ 80 [] idle with
  | .ok (.Tcp job) s₀ => ⟨s₀, job, .Pending⟩
  | _ => ⟨idle, ⟨MY_IP, 0, 0, 0, 0, 0, [], [], 0⟩, .Pending⟩

theorem started_run : build_tcp_job ⟨10, 0, 2, 2⟩ 80 [] idle = .ok (.Tcp started.job) started.net :=
  rfl

/-- A segment of the server in its frame. -/
def server_frame (seq : UInt32) (flags : UInt8) (payload : List UInt8) : List UInt8 :=
  DEFAULT_MAC.bytes ++ GW_MAC.bytes ++ [0x08, 0x00, 0x45, 0]
    ++ bytes16 (UInt16.ofNat (40 + payload.length))
    ++ [0, 1, 0x40, 0, 64, 6, 0, 0, 10, 0, 2, 2, 10, 0, 2, 15]
      ++ tcp_segment 80 49152 seq 0 flags 0 payload

/-- SYN and ACK, and then a piece of two bytes. -/
def open_frame : List UInt8 := server_frame 0 0x12 []
def piece_frame : List UInt8 := server_frame 1 0x10 [97, 98]

theorem synAck_open : SynAck 0 ⟨80, 49152, 0, 0x12, []⟩ := ⟨rfl, by decide, by decide, rfl⟩

theorem data_piece : Data [97, 98] 0 0 ⟨80, 49152, 1, 0x10, [97, 98]⟩ :=
  ⟨by decide, prefix_refl _, by decide, fun hfin => absurd hfin (by decide)⟩

theorem arrives_deliver {c : Conn} {f : List UInt8} (hout : c.out = .Pending)
    (hseg : segment_of c.job f = some seg) (hsends : Sends [97, 98] 0 seg) :
    Arrives [97, 98] 0 c f (deliver c f) := by
  refine ⟨hout, deliver_run c f, fun seg' hseg' => ?_⟩
  obtain rfl := Option.some.inj (hseg.symm.trans hseg')
  exact hsends

/-- The segment of the two bytes comes a second time, and is stored a second time. -/
theorem duplicate_stored_twice : ∃ job s₀ c, build_tcp_job ⟨10, 0, 2, 2⟩ 80 [] idle
    = .ok (.Tcp job) s₀
    ∧ Steps (Arrives [97, 98] 0) ⟨s₀, job, .Pending⟩ [open_frame, piece_frame, piece_frame] c
    ∧ ¬ Intact [97, 98] 0 idle.sent.length c := by
  have hopen := arrives_deliver (c := started) (f := open_frame) rfl (by decide +kernel)
    (.inr (.inl synAck_open))
  have hpiece := arrives_deliver (c := deliver started open_frame) (f := piece_frame)
    (by decide +kernel)
    (by decide +kernel) (.inr (.inr ⟨0, data_piece⟩))
  have hagain := arrives_deliver (c := deliver (deliver started open_frame) piece_frame)
    (f := piece_frame)
    (by decide +kernel) (by decide +kernel) (.inr (.inr ⟨0, data_piece⟩))
  refine ⟨_, _, _, started_run, .next hopen (.next hpiece (.next hagain (.done _))),
    fun hintact => ?_⟩
  have hlen := hintact.rx.length_le
  exact absurd hlen (by decide)

/-- The segment comes once. -/
theorem intact_of_in_order_piece : ∃ c, c.job.rx = [97, 98]
    ∧ Intact [97, 98] 0 idle.sent.length c := by
  have hopen := arrives_deliver (c := started) (f := open_frame) rfl (by decide +kernel)
    (.inr (.inl synAck_open))
  have hpiece := arrives_deliver (c := deliver started open_frame) (f := piece_frame)
    (by decide +kernel)
    (by decide +kernel) (.inr (.inr ⟨0, data_piece⟩))
  have horder : InOrder [97, 98] 0 started open_frame := by
    intro seg _ hstate
    exact absurd hstate (by decide +kernel)
  have horder' : InOrder [97, 98] 0 (deliver started open_frame) piece_frame := by
    intro seg hseg _ _
    have hsome : segment_of (deliver started open_frame).job piece_frame
        = some ⟨80, 49152, 1, 0x10, [97, 98]⟩ := by decide +kernel
    obtain rfl := Option.some.inj (hsome.symm.trans hseg)
    exact data_piece
  refine ⟨deliver (deliver started open_frame) piece_frame, by decide +kernel, ?_⟩
  exact intact_of_in_order started_run (.next ⟨hopen, horder⟩ (.next ⟨hpiece, horder'⟩ (.done _)))

end HepOS.Net
