/-
The network stack (`net.rs`).

An index or a slice outside of a received frame panics, so every access to one goes through `idx`,
`slice_from` or `slice`, which fail there. Functions that only read are in `Except`; those that
send, or use a static, are in `NetM`, where a panic keeps the state that was reached.

Frames that are sent are kept in `sent`, the newest last. The network card takes or drops a frame
and never panics (`Rtl8139::send`, `E1000::send`). The time stamp counter gives any values, one
after another.
-/
import HepOS.Lib.Hoare

set_option autoImplicit false

namespace HepOS.Net

/-! ## Checked access -/

inductive Panic
  | panic
deriving DecidableEq, Repr

section

variable (d : List UInt8) (data : List UInt8) (at' : ℕ)

/-- `d[i]` -/
def idx (i : ℕ) : Except Panic UInt8 :=
  if i < d.length then .ok (d.getD i 0) else .error .panic

/-- `&d[lo..]` -/
def slice_from (lo : ℕ) : Except Panic (List UInt8) :=
  if lo ≤ d.length then .ok (d.drop lo) else .error .panic

/-- `&d[lo..hi]` -/
def slice (lo hi : ℕ) : Except Panic (List UInt8) :=
  if lo ≤ hi ∧ hi ≤ d.length then .ok ((d.drop lo).take (hi - lo)) else .error .panic

/-! ## Words and addresses -/

/-- `u16::from_be_bytes` -/
def be16 (a b : UInt8) : UInt16 := a.toUInt16 * 256 + b.toUInt16

/-- `u32::from_be_bytes` -/
def be32 (a b c d : UInt8) : UInt32 :=
  ((a.toUInt32 * 256 + b.toUInt32) * 256 + c.toUInt32) * 256 + d.toUInt32

def bytes16 (v : UInt16) : List UInt8 := [(v / 256).toUInt8, v.toUInt8]

def bytes32 (v : UInt32) : List UInt8 :=
  [(v / 16777216).toUInt8, (v / 65536).toUInt8, (v / 256).toUInt8, v.toUInt8]

/-- `[u8; 4]` -/
structure Ip where
  a : UInt8
  b : UInt8
  c : UInt8
  d : UInt8
deriving DecidableEq, Repr

def Ip.bytes (ip : Ip) : List UInt8 := [ip.a, ip.b, ip.c, ip.d]

/-- `{}.{}.{}.{}` -/
def Ip.text (ip : Ip) : String :=
  toString ip.a ++ "." ++ toString ip.b ++ "." ++ toString ip.c ++ "." ++ toString ip.d

/-- `[u8; 6]` -/
structure Mac where
  bytes : List UInt8
  length : bytes.length = 6
deriving DecidableEq

def MY_IP : Ip := ⟨10, 0, 2, 15⟩
def GW_MAC : Mac := ⟨[0x52, 0x55, 0x0a, 0x00, 0x02, 0x02], rfl⟩
def DEFAULT_MAC : Mac := ⟨[0x52, 0x54, 0, 0x12, 0x34, 0x56], rfl⟩

/-- `d[at..at + 4].try_into()` -/
def ip_at : Except Panic Ip := do
  let a ← idx d at'
  let b ← idx d (at' + 1)
  let c ← idx d (at' + 2)
  let e ← idx d (at' + 3)
  pure ⟨a, b, c, e⟩

def be16_at : Except Panic UInt16 := do
  let a ← idx d at'
  let b ← idx d (at' + 1)
  pure (be16 a b)

/-! ## Jobs -/

/-- What to do once a host name is resolved. -/
inductive NextAction
  | Tcp (port : UInt16) (req : List UInt8)
  | Udp (port : UInt16) (msg : List UInt8)
deriving DecidableEq, Repr

structure TcpJob where
  ip : Ip
  port : UInt16
  src_port : UInt16
  seq : UInt32
  ack : UInt32
  state : UInt8
  rx : List UInt8
  req : List UInt8
  deadline : UInt64
deriving DecidableEq, Repr

/-- `Udp` carries where the datagram went as well (`ip`, `port`). The source does not keep these
two, and nothing below reads them. -/
inductive NetJob
  | Ping (target : Ip) (seq : UInt16) (deadline : UInt64)
  | Resolve (hostname : String) (dns_ip : Ip) (src_port txid : UInt16) (deadline : UInt64)
    (next : NextAction)
  | Tcp (job : TcpJob)
  | Udp (ip : Ip) (port : UInt16) (src_port : UInt16) (deadline : UInt64)
deriving DecidableEq, Repr

inductive JobOutcome
  | Pending
  | Done (msg : String)
  | Replace (job : NetJob)
deriving DecidableEq, Repr

structure NetState where
  /-- The card's address, if there is one. -/
  nic : Option Mac
  /-- `PING_REPLY` -/
  ping_reply : Option UInt16
  /-- `PING_SEQ` -/
  ping_seq : UInt16
  /-- `NEXT_SRC_PORT` -/
  next_src_port : UInt16
  tsc_per_ms : UInt64
  /-- What `rdtsc` will give. -/
  tsc : ℕ → UInt64
  sent : List (List UInt8)

/-- A machine with a card that has sent nothing. -/
def idle : NetState := ⟨some DEFAULT_MAC, none, 0, 49152, 0, fun _ => 0, []⟩

abbrev NetM := EStateM Panic NetState

def lift {α : Type} (x : Except Panic α) : NetM α := fun s =>
  match x with
  | .ok a => .ok a s
  | .error e => .error e s

def rdtsc : NetM UInt64 := fun s => .ok (s.tsc 0) { s with tsc := fun i => s.tsc (i + 1) }

/-- `saturating_mul` -/
def sat_mul (a b : UInt64) : UInt64 :=
  if a.toNat * b.toNat < 2 ^ 64 then a * b else 0xFFFFFFFFFFFFFFFF

def tsc_deadline (ms : UInt64) : NetM UInt64 := do
  let s ← get
  let now ← rdtsc
  pure (now + sat_mul s.tsc_per_ms ms)

/-! ## Ethernet, IP -/

def my_mac (s : NetState) : Mac := s.nic.getD DEFAULT_MAC

def eth_frame (dst src : Mac) (etype : UInt16) (payload : List UInt8) : List UInt8 :=
  dst.bytes ++ src.bytes ++ bytes16 etype ++ payload

def eth_send (dst : Mac) (etype : UInt16) (payload : List UInt8) : NetM Unit :=
  modify fun s =>
    if s.nic.isSome then { s with sent := s.sent ++ [eth_frame dst (my_mac s) etype payload] }
      else s

/-- The sum of the words, the last one filled up with a zero. -/
def sum_words : List UInt8 → UInt32 → UInt32
  | [], sum => sum
  | [a], sum => sum + a.toUInt32 * 256
  | a :: b :: rest, sum => sum_words rest (sum + (be16 a b).toUInt32)

/-- `while sum >> 16 != 0 { .. }`, at most `n` times. -/
def fold_carry : ℕ → UInt32 → UInt32
  | 0, sum => sum
  | n + 1, sum => if sum / 65536 ≠ 0 then fold_carry n (sum % 65536 + sum / 65536) else sum

/-- Two rounds leave nothing to carry, so the loop of the source ends there. -/
theorem fold_carry_done (sum : UInt32) : fold_carry 2 sum / 65536 = 0 := by
  have hlt := sum.toNat_lt
  have hsmall : ∀ x : UInt32, x.toNat < 65536 → x / 65536 = 0 := by
    intro x hx
    rw [← UInt32.toNat_inj, UInt32.toNat_div]
    exact Nat.div_eq_of_lt hx
  have hstep : ∀ x : UInt32, (x % 65536 + x / 65536).toNat = x.toNat % 65536 + x.toNat / 65536 := by
    intro x
    have hx := x.toNat_lt
    show (x.toNat % 65536 + x.toNat / 65536) % 2 ^ 32 = _
    omega
  have hzero : ∀ x : UInt32, ¬ x / 65536 ≠ 0 → x / 65536 = 0 := fun x hx => not_not.mp hx
  unfold fold_carry
  split_ifs with hfirst
  · unfold fold_carry
    split_ifs with hsecond
    · -- the first round leaves at most 2 * 65535, the second at most 65535
      refine hsmall _ ?_
      unfold fold_carry
      rw [hstep, hstep]
      omega
    · exact hzero _ hsecond
  · exact hzero _ hfirst

def ip_checksum : UInt16 := ~~~ (fold_carry 2 (sum_words data 0)).toUInt16

/-- The header with the given checksum. -/
def ip_header (total : ℕ) (dst : Ip) (proto : UInt8) (cksum : UInt16) : List UInt8 :=
  [0x45, 0] ++ bytes16 (UInt16.ofNat total) ++ [0, 1, 0x40, 0, 64, proto] ++ bytes16 cksum
    ++ MY_IP.bytes ++ dst.bytes

def ip_packet (dst : Ip) (proto : UInt8) (payload : List UInt8) : List UInt8 :=
  let total := 20 + payload.length
  ip_header total dst proto (ip_checksum (ip_header total dst proto 0)) ++ payload

def ip_send (dst : Ip) (dst_mac : Mac) (proto : UInt8) (payload : List UInt8) : NetM Unit :=
  eth_send dst_mac 0x0800 (ip_packet dst proto payload)

/-! ## ARP -/

def arp_reply (mac : Mac) (data : List UInt8) : List UInt8 :=
  [0, 1, 8, 0, 6, 4, 0, 2] ++ mac.bytes ++ MY_IP.bytes ++ (data.drop 8).take 10

/-- The six bytes from `at'` on, as an address. -/
def mac_at : Except Panic Mac := do
  let bytes ← slice d at' (at' + 6)
  if h : bytes.length = 6 then pure ⟨bytes, h⟩ else .error .panic

def handle_arp : NetM Unit :=
  if data.length < 28 then pure ()
  else do
    let op ← lift (be16_at data 6)
    let target_ip ← lift (slice data 24 28)
    if op = 1 ∧ target_ip = MY_IP.bytes then do
      let _ ← lift (slice data 8 18)
      let dst_mac ← lift (mac_at data 8)
      let s ← get
      eth_send dst_mac 0x0806 (arp_reply (my_mac s) data)
    else pure ()

/-! ## ICMP -/

/-- The reply to an echo request: its bytes with another type and a new checksum. `rep[2]` and
`rep[3]` are stored without a look at the length. -/
def echo_reply : Except Panic (List UInt8) :=
  if 4 ≤ data.length then
    let rep := [0, data.getD 1 0, 0, 0] ++ data.drop 4
    .ok ([0, data.getD 1 0] ++ bytes16 (ip_checksum rep) ++ data.drop 4)
  else .error .panic

def handle_icmp (src_ip : Ip) (src_mac : Mac) (data : List UInt8) : NetM Unit :=
  if data = [] then pure ()
  else do
    let kind ← lift (idx data 0)
    if kind = 8 then do
      let rep ← lift (echo_reply data)
      ip_send src_ip src_mac 1 rep
    else if kind = 0 then
      if 8 ≤ data.length then do
        let seq ← lift (be16_at data 6)
        modify fun s => { s with ping_reply := some seq }
      else pure ()
    else pure ()

/-- `handle_udp` does nothing. -/
def handle_udp (_data : List UInt8) : NetM Unit := pure ()

/-- The length of the header. -/
def ihl_of (first : UInt8) : ℕ := (first % 16).toNat * 4

def handle_ip (eth_src : Mac) (data : List UInt8) : NetM Unit :=
  if data.length < 20 then pure ()
  else do
    let dst_ip ← lift (ip_at data 16)
    if dst_ip ≠ MY_IP then pure ()
    else do
      let src_ip ← lift (ip_at data 12)
      let proto ← lift (idx data 9)
      let first ← lift (idx data 0)
      let ihl := ihl_of first
      if data.length < ihl then pure ()
      else if proto = 1 then do
        let body ← lift (slice_from data ihl)
        handle_icmp src_ip eth_src body
      else if proto = 17 then do
        let body ← lift (slice_from data ihl)
        handle_udp body
      else pure ()

def handle_frame (frame : List UInt8) : NetM Unit :=
  if frame.length < 14 then pure ()
  else do
    let etype ← lift (be16_at frame 12)
    let src_mac ← lift (mac_at frame 6)
    if etype = 0x0806 then do
      let body ← lift (slice_from frame 14)
      handle_arp body
    else if etype = 0x0800 then do
      let body ← lift (slice_from frame 14)
      handle_ip src_mac body
    else pure ()

/-! ## UDP and TCP -/

/-- `len` is cut to 16 bits, and the buffer is as long as that says: a message that does not fit
panics, at the first store outside or at the copy of the message. -/
def udp_send (dst_ip : Ip) (dst_mac : Mac) (src_port dst_port : UInt16)
    (data : List UInt8) : NetM Unit :=
  let len := (8 + data.length) % 65536
  if 8 ≤ len ∧ len - 8 = data.length then
    ip_send dst_ip dst_mac 17
      (bytes16 src_port ++ bytes16 dst_port ++ bytes16 (UInt16.ofNat len) ++ [0, 0] ++ data)
  else throw .panic

def TCP_FIN : UInt8 := 0x01
def TCP_SYN : UInt8 := 0x02
def TCP_RST : UInt8 := 0x04
def TCP_PSH : UInt8 := 0x08
def TCP_ACK : UInt8 := 0x10

def tcp_checksum (src_ip dst_ip : Ip) (tcp_seg : List UInt8) : UInt16 :=
  ip_checksum (src_ip.bytes ++ dst_ip.bytes ++ [0, 6]
    ++ bytes16 (UInt16.ofNat tcp_seg.length) ++ tcp_seg)

/-- A segment with the given checksum. -/
def tcp_segment (src_port dst_port : UInt16) (seq ack : UInt32) (flags : UInt8) (cksum : UInt16)
    (data : List UInt8) : List UInt8 :=
  bytes16 src_port ++ bytes16 dst_port ++ bytes32 seq ++ bytes32 ack ++ [0x50, flags]
    ++ bytes16 65535
    ++ bytes16 cksum ++ [0, 0] ++ data

def tcp_send_seg (dst_ip : Ip) (dst_mac : Mac) (src_port dst_port : UInt16) (seq ack : UInt32)
    (flags : UInt8) (data : List UInt8) : NetM Unit :=
  let cksum := tcp_checksum MY_IP dst_ip (tcp_segment src_port dst_port seq ack flags 0 data)
  ip_send dst_ip dst_mac 6 (tcp_segment src_port dst_port seq ack flags cksum data)

/-- What `tcp_parse` gives. -/
structure Segment where
  src_port : UInt16
  dst_port : UInt16
  seq : UInt32
  flags : UInt8
  payload : List UInt8
deriving DecidableEq, Repr

def be32_at : Except Panic UInt32 := do
  let a ← idx d at'
  let b ← idx d (at' + 1)
  let c ← idx d (at' + 2)
  let e ← idx d (at' + 3)
  pure (be32 a b c e)

end

def tcp_parse (data : List UInt8) : Except Panic (Option Segment) :=
  if data.length < 20 then pure none
  else do
    let src_port ← be16_at data 0
    let dst_port ← be16_at data 2
    let seq ← be32_at data 4
    let flags ← idx data 13
    let off ← idx data 12
    let doff := (off / 16).toNat * 4
    if data.length < doff then pure none
    else do
      let payload ← slice_from data doff
      pure (some ⟨src_port, dst_port, seq, flags, payload⟩)

/-! ## DNS -/

/-- `l & 0xC0 == 0xC0`: the name goes on elsewhere. -/
def pointer (l : UInt8) : Bool := 192 ≤ l

/-- The name of the question, and where it ends. -/
def skip_question (dns : List UInt8) (pos : ℕ) : Except Panic (Option ℕ) :=
  if _h : dns.length ≤ pos then pure none
  else do
    let l ← idx dns pos
    if l = 0 then pure (some (pos + 1))
    else if pointer l then pure (some (pos + 2))
    else skip_question dns (pos + 1 + l.toNat)
termination_by dns.length - pos
decreasing_by omega

/-- `while pos < dns.len() && dns[pos] != 0 { .. }` -/
def skip_labels (dns : List UInt8) (pos : ℕ) : Except Panic ℕ :=
  if _h : pos < dns.length then do
    let l ← idx dns pos
    if l ≠ 0 then skip_labels dns (pos + 1 + l.toNat) else pure pos
  else pure pos
termination_by dns.length - pos
decreasing_by omega

/-- The name of an answer. -/
def skip_name (dns : List UInt8) (pos : ℕ) : Except Panic ℕ := do
  let l ← idx dns pos
  if pointer l then pure (pos + 2)
  else do
    let pos ← skip_labels dns pos
    pure (pos + 1)

def walk_answers (dns : List UInt8) : ℕ → ℕ → Except Panic (Option Ip)
  | 0, _ => pure none
  | n + 1, pos =>
    if dns.length < pos + 10 then pure none
    else do
      let pos ← skip_name dns pos
      if dns.length < pos + 10 then pure none
      else do
        let rtype ← be16_at dns pos
        let rdlen ← be16_at dns (pos + 8)
        let pos := pos + 10
        if rtype = 1 ∧ rdlen = 4 ∧ pos + 4 ≤ dns.length then do
          let ip ← ip_at dns pos
          pure (some ip)
        else walk_answers dns n (pos + rdlen.toNat)

def parse_dns_answer (dns : List UInt8) : Except Panic (Option Ip) :=
  if dns.length < 12 then pure none
  else do
    let ancount ← be16_at dns 6
    if ancount = 0 then pure none
    else do
      match ← skip_question dns 12 with
      | none => pure none
      | some pos => walk_answers dns ancount.toNat (pos + 4)

/-! ## Starting jobs -/

def next_src_port : NetM UInt16 := fun s =>
  let p := s.next_src_port
  if p = 0 then .ok 49152 { s with next_src_port := 49153 }
    else .ok p { s with next_src_port := p + 1 }

/-- `hostname.split('.')`, each part with its length in front. -/
def dns_labels (hostname : String) : List UInt8 :=
  (hostname.splitOn ".").flatMap fun label =>
    if label.isEmpty then [] else UInt8.ofNat label.utf8ByteSize :: label.toUTF8.toList

def build_resolve_job (hostname : String) (next : NextAction) : NetM NetJob := do
  let dns_ip : Ip := ⟨10, 0, 2, 3⟩
  let src_port : UInt16 := 53000
  let now ← rdtsc
  let txid := now.toUInt16
  let q := bytes16 txid ++ [0x01, 0x00, 0x00, 0x01, 0x00, 0x00, 0x00, 0x00, 0x00, 0x00]
    ++ dns_labels hostname
    ++ [0, 0x00, 0x01, 0x00, 0x01]
  udp_send dns_ip GW_MAC src_port 53 q
  let deadline ← tsc_deadline 2000
  pure (.Resolve hostname dns_ip src_port txid deadline next)

def build_tcp_job (ip : Ip) (port : UInt16) (req : List UInt8) : NetM NetJob := do
  let src_port ← next_src_port
  let now ← rdtsc
  let isn := now.toUInt32 ||| 1
  tcp_send_seg ip GW_MAC src_port port isn 0 TCP_SYN []
  let deadline ← tsc_deadline 3000
  pure (.Tcp ⟨ip, port, src_port, isn, 0, 0, [], req, deadline⟩)

def build_udp_job (ip : Ip) (port : UInt16) (msg : List UInt8) : NetM NetJob := do
  let now ← rdtsc
  let src_port := 51000 + now.toUInt16 % 1000
  udp_send ip GW_MAC src_port port msg
  let deadline ← tsc_deadline 3000
  pure (.Udp ip port src_port deadline)

def build_next : NextAction → Ip → NetM NetJob
  | .Tcp port req, ip => build_tcp_job ip port req
  | .Udp port msg, ip => build_udp_job ip port msg

/-! ## `process_frame` -/

/-- `core::str::from_utf8` -/
def from_utf8 (bytes : List UInt8) : Option String := String.fromUTF8? ⟨bytes.toArray⟩

def format_wget_result (body : List UInt8) : String :=
  let limit := min body.length 4096
  let s := (from_utf8 (body.take limit)).getD "(non-UTF-8 response)"
  if limit < body.length then s ++ "\n[… " ++ toString (body.length - limit)
    ++ " bytes truncated]\n" else s ++ "\n"

/-- State 0: the answer to our SYN. The request goes out with the acknowledgement. -/
def tcp_open (job : TcpJob) (seg : Segment) : NetM (JobOutcome × TcpJob) :=
  if seg.flags &&& (TCP_SYN ||| TCP_ACK) = TCP_SYN ||| TCP_ACK then do
    let seq := job.seq + 1
    let ack := seg.seq + 1
    tcp_send_seg job.ip GW_MAC job.src_port job.port seq ack TCP_ACK []
    tcp_send_seg job.ip GW_MAC job.src_port job.port seq ack (TCP_PSH ||| TCP_ACK) job.req
    pure (.Pending, { job with seq := seq + UInt32.ofNat job.req.length, ack := ack, state := 1 })
  else pure (.Pending, job)

/-- State 1: the payload is appended, whatever its sequence number. -/
def tcp_store (job : TcpJob) (seg : Segment) : NetM TcpJob :=
  if seg.payload ≠ [] then do
    let ack := seg.seq + UInt32.ofNat seg.payload.length
    tcp_send_seg job.ip GW_MAC job.src_port job.port job.seq ack TCP_ACK []
    pure { job with rx := job.rx ++ seg.payload, ack := ack }
  else pure job

/-- State 1, after the payload. -/
def tcp_finish (job : TcpJob) (seg : Segment) : NetM (JobOutcome × TcpJob) :=
  if seg.flags &&& TCP_FIN ≠ 0 then do
    let ack := job.ack + 1
    tcp_send_seg job.ip GW_MAC job.src_port job.port job.seq ack (TCP_FIN ||| TCP_ACK) []
    pure (.Done (format_wget_result job.rx), { job with ack := ack })
  else pure (.Pending, job)

/-- A segment of the connection. -/
def tcp_input (job : TcpJob) (seg : Segment) : NetM (JobOutcome × TcpJob) :=
  if job.state = 0 then tcp_open job seg
  else if job.state = 1 then do
    let job ← tcp_store job seg
    tcp_finish job seg
  else pure (.Pending, job)

def process_ping (target : Ip) (seq : UInt16) (frame : List UInt8) : NetM JobOutcome := do
  handle_frame frame
  let s ← get
  if s.ping_reply = some seq
    then pure (.Done ("reply from " ++ target.text ++ ": seq=" ++ toString seq))
  else pure .Pending

def process_resolve (dns_ip : Ip) (src_port txid : UInt16) (next : NextAction)
    (ip_hdr : List UInt8) :
    NetM JobOutcome := do
  let proto ← lift (idx ip_hdr 9)
  if proto ≠ 17 then pure .Pending
  else do
    let src_ip ← lift (ip_at ip_hdr 12)
    if src_ip ≠ dns_ip then pure .Pending
    else do
      let first ← lift (idx ip_hdr 0)
      let ihl := ihl_of first
      if ip_hdr.length < ihl + 8 then pure .Pending
      else do
        let udp ← lift (slice_from ip_hdr ihl)
        let sp ← lift (be16_at udp 0)
        let dp ← lift (be16_at udp 2)
        if sp ≠ 53 then pure .Pending
        else if dp ≠ src_port then pure .Pending
        else do
          let dns ← lift (slice_from udp 8)
          if dns.length < 12 then pure .Pending
          else do
            let id ← lift (be16_at dns 0)
            let flags ← lift (idx dns 2)
            if id ≠ txid then pure .Pending
            else if flags < 128 then pure .Pending
            else do
              match ← lift (parse_dns_answer dns) with
              | none => pure (.Done "could not resolve host")
              | some ip => do
                let job ← build_next next ip
                pure (.Replace job)

def process_tcp (job : TcpJob) (ip_hdr : List UInt8) : NetM (JobOutcome × TcpJob) := do
  let proto ← lift (idx ip_hdr 9)
  let first ← lift (idx ip_hdr 0)
  let ihl := ihl_of first
  if proto = 1 then
    if ihl < ip_hdr.length then do
      let kind ← lift (idx ip_hdr ihl)
      if kind = 3 then pure (.Done "wget: unreachable", job) else pure (.Pending, job)
    else pure (.Pending, job)
  else if proto ≠ 6 then pure (.Pending, job)
  else do
    let src_ip ← lift (ip_at ip_hdr 12)
    let dst_ip ← lift (slice ip_hdr 16 20)
    if src_ip ≠ job.ip ∨ dst_ip ≠ MY_IP.bytes then pure (.Pending, job)
    else do
      let total ← lift (be16_at ip_hdr 2)
      let ip_body ← lift (slice ip_hdr 0 (min total.toNat ip_hdr.length))
      if ip_body.length < ihl then pure (.Pending, job)
      else do
        let data ← lift (slice_from ip_body ihl)
        match ← lift (tcp_parse data) with
        | none => pure (.Pending, job)
        | some seg =>
          if seg.src_port ≠ job.port ∨ seg.dst_port ≠ job.src_port then pure (.Pending, job)
          else if seg.flags &&& TCP_RST ≠ 0 then pure (.Done "wget: connection refused", job)
          else tcp_input job seg

def process_udp (src_port : UInt16) (ip_hdr : List UInt8) : NetM JobOutcome := do
  let proto ← lift (idx ip_hdr 9)
  if proto ≠ 17 then pure .Pending
  else do
    let first ← lift (idx ip_hdr 0)
    let ihl := ihl_of first
    if ip_hdr.length < ihl + 8 then pure .Pending
    else do
      let udp ← lift (slice_from ip_hdr ihl)
      let dp ← lift (be16_at udp 2)
      if dp ≠ src_port then pure .Pending
      else do
        let ulen ← lift (be16_at udp 4)
        if ulen < 8 ∨ udp.length < ulen.toNat then pure .Pending
        else do
          let sp ← lift (be16_at udp 0)
          let src_ip ← lift (ip_at ip_hdr 12)
          let payload ← lift (slice udp 8 ulen.toNat)
          pure (.Done ("Reply from " ++ src_ip.text ++ ":" ++ toString sp ++ " ("
            ++ toString payload.length
            ++ " bytes):\n" ++ (from_utf8 payload).getD "(non-UTF-8)" ++ "\n"))

/-- One frame for the job: what comes of it, and the job. After `Replace` the old job is dropped. -/
def process_frame (job : NetJob) (frame : List UInt8) : NetM (JobOutcome × NetJob) :=
  if frame.length < 14 then pure (.Pending, job)
  else do
    let etype ← lift (be16_at frame 12)
    if etype ≠ 0x0800 then pure (.Pending, job)
    else do
      let ip_hdr ← lift (slice_from frame 14)
      if ip_hdr.length < 20 then pure (.Pending, job)
      else
        match job with
        | .Ping target seq _ => do
          let out ← process_ping target seq frame
          pure (out, job)
        | .Resolve _ dns_ip src_port txid _ next => do
          let out ← process_resolve dns_ip src_port txid next ip_hdr
          pure (out, job)
        | .Tcp tcp => do
          let (out, tcp) ← process_tcp tcp ip_hdr
          pure (out, .Tcp tcp)
        | .Udp _ _ src_port _ => do
          let out ← process_udp src_port ip_hdr
          pure (out, job)

end HepOS.Net
