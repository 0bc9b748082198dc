/-
What the stack puts on the wire: its checksums, and the reply to an echo request.

The value of `ip_checksum` is pinned down by two facts that do not mention its loops
(`ip_checksum_spec`): together with the words it is a multiple of 65535, and it is 65535 exactly for
zeros. So the checksum, stored at an even offset over a field of zeros, makes the data verify,
whatever the parity of the length.

`handle_ip` cuts the header off, and nothing else: what the card delivers behind the end of a
packet, as it does for every packet shorter than a minimal frame, counts as data of an echo request
and is sent back.
-/
import HepOS.Net.Peers

set_option autoImplicit false

namespace HepOS.Net

open Hoare List UInt16

/-! ## The sum of the words -/

/-- The sum that `sum_words` computes, without the bound of a `u32`. -/
def words : List UInt8 → ℕ
  | [] => 0
  | [a] => a.toNat * 256
  | a :: b :: rest => a.toNat * 256 + b.toNat + words rest

theorem toNat_be16 (a b : UInt8) : (be16 a b).toNat = a.toNat * 256 + b.toNat := by
  have ha := a.toNat_lt
  have hb := b.toNat_lt
  simp only [be16, UInt16.toNat_add, UInt16.toNat_mul, UInt8.toNat_toUInt16, UInt16.reduceToNat]
  omega

theorem be16_of_bytes (v : UInt16) : be16 (v / 256).toUInt8 v.toUInt8 = v := by
  have hv := v.toNat_lt
  rw [← UInt16.toNat_inj, toNat_be16, toNat_toUInt8, toNat_toUInt8, UInt16.toNat_div]
  simp only [UInt16.reduceToNat]
  omega

theorem words_le (l : List UInt8) : words l ≤ 65535 * ((l.length + 1) / 2) := by
  induction l using words.induct with
  | case1 => simp [words]
  | case2 a =>
    have ha := a.toNat_lt
    simp only [words, length_singleton]
    omega
  | case3 a b rest ih =>
    have ha := a.toNat_lt
    have hb := b.toNat_lt
    simp only [words, length_cons]
    omega

theorem toNat_sum_words (l : List UInt8) : ∀ sum : UInt32, sum.toNat + words l < 2 ^ 32 →
    (sum_words l sum).toNat = sum.toNat + words l := by
  induction l using words.induct with
  | case1 =>
    intro sum _
    simp [sum_words, words]
  | case2 a =>
    intro sum h
    simp only [words] at h
    simp only [sum_words, words, UInt32.toNat_add, UInt32.toNat_mul, UInt8.toNat_toUInt32,
      UInt32.reduceToNat]
    omega
  | case3 a b rest ih =>
    intro sum h
    simp only [words] at h
    have hsum : (sum + (be16 a b).toUInt32).toNat = sum.toNat + (a.toNat * 256 + b.toNat) := by
      rw [UInt32.toNat_add, toNat_toUInt32, toNat_be16]
      omega
    rw [sum_words, ih _ (by omega), hsum, words]
    omega

/-- Words are cut off at even offsets. -/
theorem words_append {pre : List UInt8} (heven : pre.length % 2 = 0) (l : List UInt8) :
    words (pre ++ l) = words pre + words l := by
  induction pre using words.induct with
  | case1 => simp [words]
  | case2 a => simp at heven
  | case3 a b rest ih =>
    simp only [length_cons] at heven
    simp only [cons_append, words, ih (by omega)]
    omega

theorem words_bytes16 (v : UInt16) (l : List UInt8) :
    words (bytes16 v ++ l) = v.toNat + words l := by
  have hv := v.toNat_lt
  simp only [bytes16, cons_append, nil_append, words, toNat_toUInt8, UInt16.toNat_div,
    UInt16.reduceToNat]
  omega

/-! ## `ip_checksum` -/

/-- A round keeps the sum modulo 65535, and does not turn it into zero. -/
theorem fold_carry_keeps (n : ℕ) : ∀ x : UInt32,
    (fold_carry n x).toNat % 65535 = x.toNat % 65535
      ∧ ((fold_carry n x).toNat = 0 ↔ x.toNat = 0) := by
  induction n with
  | zero => exact fun x => ⟨rfl, Iff.rfl⟩
  | succ n ih =>
    intro x
    have hx := x.toNat_lt
    have hround : (x % 65536 + x / 65536).toNat = x.toNat % 65536 + x.toNat / 65536 := by
      rw [UInt32.toNat_add, UInt32.toNat_mod, UInt32.toNat_div]
      show (x.toNat % 65536 + x.toNat / 65536) % 2 ^ 32 = _
      omega
    unfold fold_carry
    split_ifs
    · obtain ⟨hmod, hzero⟩ := ih (x % 65536 + x / 65536)
      rw [hround] at hmod hzero
      omega
    · exact ⟨rfl, Iff.rfl⟩

variable {data : List UInt8}

theorem ip_checksum_spec (hlen : data.length ≤ 131000) :
    (words data + (ip_checksum data).toNat) % 65535 = 0
      ∧ ((ip_checksum data).toNat = 65535 ↔ words data = 0) := by
  have hle := words_le data
  have hsum : (sum_words data 0).toNat = words data := by
    rw [toNat_sum_words data 0 (by simp only [UInt32.reduceToNat]; omega)]
    simp
  have hdone := congrArg UInt32.toNat (fold_carry_done (sum_words data 0))
  obtain ⟨hmod, hzero⟩ := fold_carry_keeps 2 (sum_words data 0)
  rw [hsum] at hmod hzero
  simp only [UInt32.toNat_div, UInt32.reduceToNat] at hdone
  have hvalue : (ip_checksum data).toNat = 65535 - (fold_carry 2 (sum_words data 0)).toNat := by
    rw [ip_checksum, toNat_not, UInt32.toNat_toUInt16, Nat.mod_eq_of_lt (by omega)]
    rfl
  omega

/-- The checksum in the place of the zeros it was computed with. `f` is the data with any value in
this place. -/
theorem ip_checksum_insert {f : UInt16 → List UInt8} {l r : List UInt8}
    (hf : ∀ v, f v = l ++ (bytes16 v ++ r)) (heven : l.length % 2 = 0)
    (hlen : l.length + r.length ≤ 130000) : ip_checksum (f (ip_checksum (f 0))) = 0 := by
  have hlen' : ∀ v, (f v).length ≤ 131000 := by
    intro v
    simp only [hf, bytes16, length_append, length_cons, length_nil]
    omega
  have hwords : ∀ v, words (f v) = words l + (v.toNat + words r) := by
    intro v
    rw [hf, words_append heven, words_bytes16]
  obtain ⟨hmod, hzero⟩ := ip_checksum_spec (hlen' 0)
  generalize ip_checksum (f 0) = ck at hmod hzero ⊢
  obtain ⟨hmod', hzero'⟩ := ip_checksum_spec (hlen' ck)
  rw [hwords] at hmod hzero hmod' hzero'
  have hlt := (ip_checksum (f ck)).toNat_lt
  simp only [UInt16.reduceToNat] at hmod hzero
  rw [← UInt16.toNat_inj]
  simp only [UInt16.reduceToNat]
  -- a second checksum of 65535 would be one of zeros, and zeros have a first checksum of 65535
  omega

/-! ## Frames that verify -/

/-- A call that returns and sends one frame. -/
def Emits {α : Type} (x : NetM α) (s : NetState) (f : List UInt8) : Prop :=
  ∃ a s', x s = .ok a s' ∧ s'.sent = s.sent ++ [f]

theorem Emits.unique {α : Type} {x : NetM α} {s : NetState} {f g : List UInt8} (hf : Emits x s f)
    (hg : Emits x s g) : f = g := by
  obtain ⟨a, t, hrun, hsent⟩ := hf
  obtain ⟨b, u, hrun', hsent'⟩ := hg
  cases hrun.symm.trans hrun'
  exact singleton_inj.mp (append_cancel_left (hsent.symm.trans hsent'))

/-- The header of the frame verifies. -/
def HeaderOk (f : List UInt8) : Prop := ip_checksum ((ip_hdr f).take (ihl f)) = 0

/-- A frame of `ip_send`, as the receiver takes it apart. -/
structure Packet (f : List UInt8) (dst : Ip) (pr : UInt8) (p : List UInt8) : Prop where
  header : HeaderOk f
  proto : proto f = pr
  src : ip_src f = MY_IP
  dst : ip_dst f = dst
  total : word (ip_hdr f) 2 = UInt16.ofNat (20 + p.length)
  body : body f = p

theorem ip_header_verifies (total : ℕ) (dst : Ip) (pr : UInt8) :
    ip_checksum (ip_header total dst pr (ip_checksum (ip_header total dst pr 0))) = 0 := by
  refine ip_checksum_insert (f := ip_header total dst pr)
    (l := [0x45, 0] ++ bytes16 (UInt16.ofNat total) ++ [0, 1, 0x40, 0, 64, pr])
      (r := MY_IP.bytes ++ dst.bytes)
    (fun _ => rfl) ?_ ?_
  · simp [bytes16]
  · simp [bytes16, Ip.bytes]

theorem packet_frame (dst : Ip) (mac src : Mac) (pr : UInt8) (p : List UInt8) :
    Packet (eth_frame mac src 0x0800 (ip_packet dst pr p)) dst pr p := by
  have hdrop : ip_hdr (eth_frame mac src 0x0800 (ip_packet dst pr p)) = ip_packet dst pr p := by
    simp only [ip_hdr, eth_frame, bytes16]
    exact drop_left' (by simp [mac.length, src.length])
  have hck := ip_header_verifies (20 + p.length) dst pr
  have hihl : ihl_of 0x45 = 20 := by decide
  unfold ip_packet at hdrop ⊢
  dsimp only at hdrop ⊢
  -- the fields do not depend on the checksum
  generalize ip_checksum (ip_header (20 + p.length) dst pr 0) = ck at hck hdrop ⊢
  constructor
  all_goals simp only [HeaderOk, proto, ip_src, ip_dst, body, ihl, hdrop]
  · show ip_checksum (List.take (ihl_of 0x45) _) = 0
    rw [hihl]
    exact hck
  · rfl
  · rfl
  · rfl
  · exact be16_of_bytes _
  · show List.drop (ihl_of 0x45) _ = p
    rw [hihl]
    rfl

/-- The field of a segment is at 28 behind the start of the pseudo-header. -/
theorem tcp_segment_verifies (dst : Ip) (src_port dst_port : UInt16) (seq ack : UInt32)
    (flags : UInt8) (hlen : 40 + data.length ≤ 65535) :
    tcp_checksum MY_IP dst (tcp_segment src_port dst_port seq ack flags
      (tcp_checksum MY_IP dst (tcp_segment src_port dst_port seq ack flags 0 data)) data) = 0 := by
  have hseg : ∀ v, (tcp_segment src_port dst_port seq ack flags v data).length
      = 20 + data.length := by
    intro v
    simp [tcp_segment, bytes16, bytes32]
    omega
  simp only [tcp_checksum, hseg]
  refine ip_checksum_insert
    (f := fun v => MY_IP.bytes ++ dst.bytes ++ [0, 6] ++ bytes16 (UInt16.ofNat (20 + data.length))
      ++ tcp_segment src_port dst_port seq ack flags v data)
    (l := MY_IP.bytes ++ dst.bytes ++ [0, 6] ++ bytes16 (UInt16.ofNat (20 + data.length))
      ++ bytes16 src_port
      ++ bytes16 dst_port ++ bytes32 seq ++ bytes32 ack ++ [0x50, flags] ++ bytes16 65535)
    (r := [0, 0] ++ data) (fun _ => rfl) ?_ ?_
  · simp [bytes16, bytes32, Ip.bytes]
  · simp [bytes16, bytes32, Ip.bytes]
    omega

/-- The message of `ping_send` with the given checksum. -/
def echo_request (seq ck : UInt16) : List UInt8 :=
  [8, 0] ++ bytes16 ck ++ [0, 1] ++ bytes16 seq ++ [0x48, 0x65, 0x70, 0x4F, 0x53, 0x21, 0x20, 0x20]

theorem echo_request_verifies (seq : UInt16) :
    ip_checksum (echo_request seq (ip_checksum (echo_request seq 0))) = 0 := by
  refine ip_checksum_insert (f := echo_request seq) (l := [8, 0])
    (r := [0, 1] ++ bytes16 seq ++ [0x48, 0x65, 0x70, 0x4F, 0x53, 0x21, 0x20, 0x20])
      (fun _ => rfl) ?_ ?_
  · simp
  · simp [bytes16]

theorem echo_reply_verifies {rep : List UInt8} (hlen : 20 + data.length ≤ 65535)
    (h : echo_reply data = .ok rep) :
    ip_checksum rep = 0 := by
  unfold echo_reply at h
  split_ifs at h
  cases h
  refine ip_checksum_insert (f := fun v => [0, data.getD 1 0] ++ bytes16 v ++ data.drop 4)
    (l := [0, data.getD 1 0])
    (r := data.drop 4) (fun _ => rfl) ?_ ?_
  · simp
  · simp
    omega

section

variable {s : NetState} (hnic : s.nic.isSome)

include hnic

theorem emits_ip_send (dst : Ip) (mac : Mac) (pr : UInt8) (p : List UInt8) :
    ∃ f, Emits (ip_send dst mac pr p) s f ∧ Packet f dst pr p := by
  refine ⟨_, ⟨(), _, rfl, ?_⟩, packet_frame dst mac (my_mac s) pr p⟩
  dsimp only
  rw [if_pos hnic]

theorem emits_start_ping (target : Ip) : ∃ f, Emits (start_ping target) s f
    ∧ Packet f target 1 (echo_request s.ping_seq (ip_checksum (echo_request s.ping_seq 0))) := by
  refine ⟨_, ⟨_, _, rfl, ?_⟩, packet_frame target GW_MAC (my_mac s) 1 _⟩
  show NetState.sent (if s.nic.isSome = true then _ else _) = _
  rw [if_pos hnic]
  rfl

theorem emits_handle_icmp (src : Ip) (mac : Mac) (hkind : data.getD 0 0 = 8)
    (hlen : 4 ≤ data.length) : ∃ rep f, echo_reply data = .ok rep
      ∧ Emits (handle_icmp src mac data) s f
      ∧ Packet f src 1 rep := by
  have hrep : echo_reply data = .ok _ := if_pos hlen
  have hne : data ≠ [] := ne_nil_of_length_pos (by omega)
  obtain ⟨f, hemits, hf⟩ := emits_ip_send hnic src mac 1 _
  refine ⟨_, f, hrep, ?_, hf⟩
  rw [handle_icmp, if_neg hne, lift_bind (idx_ok (by omega)), if_pos hkind, lift_bind hrep]
  exact hemits

end

/-- Every frame verifies: the IP header that `ip_send` builds, the requests of `ping_send`, the
replies to echo requests of four bytes or more, and the segments of `tcp_send_seg`. -/
theorem frames_verify {s : NetState} (hnic : s.nic.isSome) :
    (∀ dst mac pr (payload : List UInt8), 20 + payload.length ≤ 65535 →
      ∃ f, Emits (ip_send dst mac pr payload) s f ∧ HeaderOk f)
    ∧ (∀ target, ∃ f, Emits (start_ping target) s f ∧ HeaderOk f ∧ proto f = 1
      ∧ ip_checksum (body f) = 0)
    ∧ (∀ src mac (data : List UInt8), data.getD 0 0 = 8 → 4 ≤ data.length →
      20 + data.length ≤ 65535 →
      ∃ f, Emits (handle_icmp src mac data) s f ∧ HeaderOk f ∧ proto f = 1
        ∧ ip_checksum (body f) = 0)
    ∧ ∀ dst mac src_port dst_port seq ack flags (data : List UInt8), 40 + data.length ≤ 65535 →
      ∃ f, Emits (tcp_send_seg dst mac src_port dst_port seq ack flags data) s f
        ∧ HeaderOk f ∧ proto f = 6
        ∧ tcp_checksum (ip_src f) (ip_dst f) (body f) = 0 := by
  refine ⟨?_, ?_, ?_, ?_⟩
  · intro dst mac pr payload _
    obtain ⟨f, hemits, hf⟩ := emits_ip_send hnic dst mac pr payload
    exact ⟨f, hemits, hf.header⟩
  · intro target
    obtain ⟨f, hemits, hf⟩ := emits_start_ping hnic target
    refine ⟨f, hemits, hf.header, hf.proto, ?_⟩
    rw [hf.body, echo_request_verifies]
  · intro src mac data hkind hfour hlen
    obtain ⟨rep, f, hrep, hemits, hf⟩ := emits_handle_icmp hnic src mac hkind hfour
    refine ⟨f, hemits, hf.header, hf.proto, ?_⟩
    rw [hf.body, echo_reply_verifies hlen hrep]
  · intro dst mac src_port dst_port seq ack flags data hlen
    obtain ⟨f, hemits, hf⟩ := emits_ip_send hnic dst mac 6
      (tcp_segment src_port dst_port seq ack flags
      (tcp_checksum MY_IP dst (tcp_segment src_port dst_port seq ack flags 0 data)) data)
    refine ⟨f, hemits, hf.header, hf.proto, ?_⟩
    rw [hf.src, hf.dst, hf.body, tcp_segment_verifies dst src_port dst_port seq ack flags hlen]

theorem frames_verify_idle : idle.nic.isSome ∧ ∃ f, Emits (start_ping MY_IP) idle f
    ∧ HeaderOk f ∧ proto f = 1
    ∧ ip_checksum (body f) = 0 :=
  ⟨rfl, (frames_verify rfl).2.1 MY_IP⟩

/-! ## The echo law -/

/-- The length of the header and of the packet, as the header gives them. The rest of `data` is
padding. -/
def hdr_len (data : List UInt8) : ℕ := ihl_of (data.getD 0 0)
def total (data : List UInt8) : ℕ := (word data 2).toNat

/-- An echo request to this host, with or without padding. -/
structure EchoRequest (data : List UInt8) : Prop where
  version : data.getD 0 0 / 16 = 4
  header : 20 ≤ hdr_len data
  long : hdr_len data + 8 ≤ total data
  fits : total data ≤ data.length
  ours : addr data 16 = MY_IP
  icmp : data.getD 9 0 = 1
  kind : data.getD (hdr_len data) 0 = 8
  code : data.getD (hdr_len data + 1) 0 = 0

/-- The message of the request. -/
def message (data : List UInt8) : List UInt8 := (data.take (total data)).drop (hdr_len data)

/-- The frame gives back identifier, sequence number and data of the request, and is as long as
these are. -/
structure EchoLaw (data f : List UInt8) : Prop where
  same : (body f).drop 4 = (message data).drop 4
  length : (body f).length = total data - hdr_len data
  total : (word (ip_hdr f) 2).toNat = 20 + (total data - hdr_len data)

theorem length_echo_reply {rep : List UInt8} (h : echo_reply data = .ok rep) :
    rep.length = data.length ∧ rep.drop 4 = data.drop 4 := by
  unfold echo_reply at h
  split_ifs at h
  cases h
  refine ⟨?_, rfl⟩
  simp [bytes16]
  omega

section

variable {s : NetState} (hnic : s.nic.isSome) (eth_src : Mac) {data : List UInt8}
    (hreq : EchoRequest data)

include hnic hreq

/-- The reply to a request: everything behind the header of the request is in it. -/
theorem emits_handle_ip : ∃ f, Emits (handle_ip eth_src data) s f
    ∧ (body f).length = data.length - hdr_len data
    ∧ (body f).drop 4 = (data.drop (hdr_len data)).drop 4
    ∧ word (ip_hdr f) 2 = UInt16.ofNat (20 + (body f).length) := by
  have hhdr : hdr_len data + 8 ≤ data.length := hreq.long.trans hreq.fits
  have hlen : 28 ≤ data.length := le_trans (Nat.add_le_add_right hreq.header 8) hhdr
  have hkind : (data.drop (hdr_len data)).getD 0 0 = 8 := by
    rw [← hreq.kind]
    simp [getD_eq_getElem?_getD]
  obtain ⟨rep, f, hrep, hemits, hf⟩ := emits_handle_icmp hnic (addr data 12) eth_src hkind
    (by rw [length_drop]; omega)
  obtain ⟨hrlen, hdrop⟩ := length_echo_reply hrep
  rw [length_drop] at hrlen
  refine ⟨f, ?_, by rw [hf.body, hrlen], by rw [hf.body, hdrop], by rw [hf.total, hf.body]⟩
  rw [handle_ip, if_neg (by omega), lift_bind (ip_at_ok (by omega)), if_neg (not_not.mpr hreq.ours),
    lift_bind (ip_at_ok (by omega)), lift_bind (idx_ok (by omega)), lift_bind (idx_ok (by omega))]
  rw [show ihl_of (data.getD 0 0) = hdr_len data from rfl,
    if_neg (show ¬ data.length < hdr_len data by omega),
    if_pos hreq.icmp, lift_bind (slice_from_ok (show hdr_len data ≤ data.length by omega))]
  exact hemits

theorem length_of_echo_law {f : List UInt8} (hemits : Emits (handle_ip eth_src data) s f)
    (hlaw : EchoLaw data f) :
    data.length = total data := by
  obtain ⟨f', hemits', hlen, -⟩ := emits_handle_ip hnic eth_src hreq
  rw [← hemits.unique hemits', hlaw.length] at hlen
  have hlong := hreq.long
  omega

end

/-- The echo law holds for a request exactly if there is no padding behind it. -/
theorem echo_law_iff {s : NetState} (hnic : s.nic.isSome) (eth_src : Mac) {data : List UInt8}
    (hreq : EchoRequest data) :
    (∃ f, Emits (handle_ip eth_src data) s f ∧ EchoLaw data f) ↔ data.length = total data := by
  constructor
  · rintro ⟨f, hemits, hlaw⟩
    exact length_of_echo_law hnic eth_src hreq hemits hlaw
  · intro hlen
    obtain ⟨f, hemits, hflen, hdrop, htotal⟩ := emits_handle_ip hnic eth_src hreq
    have hheader := hreq.header
    have hsmall : total data < 65536 := (word data 2).toNat_lt
    rw [hlen] at hflen
    refine ⟨f, hemits, ?_, hflen, ?_⟩
    · rw [hdrop, message, ← hlen, take_length]
    · rw [htotal, toNat_ofNat', hflen]
      omega

/-- A request without data, in a frame of the smallest size: 18 bytes of padding follow. -/
def padded_request : List UInt8 :=
  [0x45, 0, 0, 28, 0, 1, 0x40, 0, 64, 1, 0x22, 0xD0, 10, 0, 2, 2, 10, 0, 2, 15]
    ++ [8, 0, 0xF7, 0xFD, 0, 1, 0, 1]
    ++ List.replicate 18 0

theorem echo_law_unpadded : EchoRequest (padded_request.take 28)
    ∧ ∃ f, Emits (handle_ip GW_MAC (padded_request.take 28)) idle f
    ∧ EchoLaw (padded_request.take 28) f := by
  have hreq : EchoRequest (padded_request.take 28) := by constructor <;> decide
  exact ⟨hreq, (echo_law_iff rfl GW_MAC hreq).mpr (by decide)⟩

/-- Its checksums are right, and the reply does not keep the law. -/
theorem padding_echoed : EchoRequest padded_request ∧ ip_checksum (padded_request.take 20) = 0
    ∧ ip_checksum (message padded_request) = 0
    ∧ ¬ ∃ f, Emits (handle_ip GW_MAC padded_request) idle f ∧ EchoLaw padded_request f := by
  have hreq : EchoRequest padded_request := by constructor <;> decide
  refine ⟨hreq, by decide, by decide, ?_⟩
  rintro ⟨f, hemits, hlaw⟩
  exact absurd (length_of_echo_law rfl GW_MAC hreq hemits hlaw) (by decide)

end HepOS.Net
