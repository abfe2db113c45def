import OsnMp2.Shark.Scan

/-!
# Decoding undoes encoding

Frames are built from their fields: an Ethernet header, IPv4 with options or IPv6, TCP with
options or UDP, a payload and padding. What `packet_handler` prints of such a frame are the
fields it was built from.

## Main definitions

* `Ipv4`, `Ipv6`, `Tcp`, `Udp`, `Frame`: well formed frames, and their bytes
* `Frame.report`: the fields, as they are to be printed

## Main results

* `value_liveIp`, `value_liveIp6`, `value_liveTcp`, `value_liveUdp`: each layer is read back
* `packetHandler_encode`: the whole frame is
-/

namespace CShark

open Reads

/-! ## Bits -/

/-- A number in network order. -/
def be16 (x : BitVec 16) : List Byte := [x.extractLsb' 8 8, x.extractLsb' 0 8]

def be32 (x : BitVec 32) : List Byte :=
  [x.extractLsb' 24 8, x.extractLsb' 16 8, x.extractLsb' 8 8, x.extractLsb' 0 8]

theorem be16_append (x : BitVec 16) : x.extractLsb' 8 8 ++ x.extractLsb' 0 8 = x := by
  have h : x.extractLsb' 8 8 ++ x.extractLsb' 0 8 = x.extractLsb' 0 (8 + 8) :=
    BitVec.extractLsb'_append_extractLsb'_eq_extractLsb' rfl
  exact h.trans BitVec.extractLsb'_eq_self

theorem be32_append (x : BitVec 32) :
    x.extractLsb' 24 8 ++ x.extractLsb' 16 8 ++ x.extractLsb' 8 8 ++ x.extractLsb' 0 8 = x := by
  have h₁ : x.extractLsb' 24 8 ++ x.extractLsb' 16 8 = x.extractLsb' 16 (8 + 8) :=
    BitVec.extractLsb'_append_extractLsb'_eq_extractLsb' rfl
  have h₂ : x.extractLsb' 16 (8 + 8) ++ x.extractLsb' 8 8 = x.extractLsb' 8 (8 + 8 + 8) :=
    BitVec.extractLsb'_append_extractLsb'_eq_extractLsb' rfl
  have h₃ : x.extractLsb' 8 (8 + 8 + 8) ++ x.extractLsb' 0 8 = x.extractLsb' 0 (8 + 8 + 8 + 8) :=
    BitVec.extractLsb'_append_extractLsb'_eq_extractLsb' rfl
  rw [h₁, h₂, h₃]
  exact BitVec.extractLsb'_eq_self

/-- A mask of one bit. -/
theorem and_twoPow_ne_zero {w : Nat} (x : BitVec w) {i : Nat} (hi : i < w) :
    x &&& BitVec.twoPow w i ≠ 0 ↔ x.getLsbD i = true := by
  rw [BitVec.and_twoPow]
  split
  · next h =>
    refine iff_of_true (fun hzero => ?_) h
    have := congrArg (BitVec.getLsbD · i) hzero
    simp [hi] at this
  · next h => exact iff_of_false (fun hne => hne rfl) h

theorem ntohs_and (x y : BitVec 16) : ntohs (x &&& y) = ntohs x &&& ntohs y := by
  unfold ntohs
  rw [BitVec.extractLsb'_and, BitVec.extractLsb'_and, BitVec.and_append]

theorem ntohs_ntohs (x : BitVec 16) : ntohs (ntohs x) = x := by
  have h : ntohs (ntohs x) = x.extractLsb' 8 8 ++ x.extractLsb' 0 8 := ntohs_append _ _
  exact h.trans (be16_append x)

/-- A mask may be applied in either byte order. -/
theorem and_htons_ne_zero (x y : BitVec 16) : x &&& htons y ≠ 0 ↔ ntohs x &&& y ≠ 0 := by
  have h : ntohs (x &&& htons y) = ntohs x &&& y := by rw [ntohs_and, htons, ntohs_ntohs]
  rw [not_iff_not, ← h]
  constructor
  · intro hzero
    rw [hzero]
    rfl
  · intro hzero
    rw [← ntohs_ntohs (x &&& htons y), hzero]
    rfl

/-- The lower bits of a number. -/
theorem toNat_append_mod {k l : Nat} (x : BitVec k) (y : BitVec l) :
    (x ++ y).toNat % 2 ^ l = y.toNat := by
  have := congrArg BitVec.toNat (BitVec.setWidth_append_eq_right (a := x) (b := y))
  rwa [BitVec.toNat_setWidth] at this

theorem getLsbD_append_add {k l : Nat} (x : BitVec k) (y : BitVec l) (i : Nat) :
    (x ++ y).getLsbD (l + i) = x.getLsbD i := by
  rw [BitVec.getLsbD_append, if_neg (by omega), Nat.add_sub_cancel_left]

theorem getLsbD_append_ofBool {k : Nat} (x : BitVec k) (b : Bool) :
    (x ++ BitVec.ofBool b).getLsbD 0 = b := by
  rw [BitVec.getLsbD_append, if_pos Nat.zero_lt_one]
  simp

/-! ## Frames -/

/-- An IPv4 header, with `words` words of options. -/
structure Ipv4 where
  tos : Byte
  id : BitVec 16
  flag : IpFlag → Bool
  fragOff : BitVec 13
  ttl : Byte
  check : BitVec 16
  src : Vector Byte 4
  dst : Vector Byte 4
  words : Nat
  options : List Byte
  words_le : words ≤ 10
  options_length : options.length = 4 * words

/-- The flags and the fragment offset. -/
def Ipv4.fragWord (h : Ipv4) : BitVec 16 :=
  BitVec.ofBool (h.flag .rf) ++ BitVec.ofBool (h.flag .df) ++ BitVec.ofBool (h.flag .mf) ++
    h.fragOff

/-- The length of the header, in words. -/
def Ipv4.ihl (h : Ipv4) : Nat := 5 + h.words

def Ipv4.bytes (h : Ipv4) (protocol : Byte) (totLen : BitVec 16) : List Byte :=
  [4#4 ++ BitVec.ofNat 4 h.ihl, h.tos] ++ be16 totLen ++ be16 h.id ++ be16 h.fragWord ++
    [h.ttl, protocol] ++ be16 h.check ++ h.src.toList ++ h.dst.toList ++ h.options

/-- An IPv6 header. -/
structure Ipv6 where
  trafficClass : BitVec 8
  flowLabel : BitVec 20
  hopLimit : Byte
  src : Vector Byte 16
  dst : Vector Byte 16

/-- The version, the traffic class and the flow label. -/
def Ipv6.flowWord (h : Ipv6) : BitVec 32 := 6#4 ++ h.trafficClass ++ h.flowLabel

def Ipv6.bytes (h : Ipv6) (nxt : Byte) (plen : BitVec 16) : List Byte :=
  be32 h.flowWord ++ be16 plen ++ [nxt, h.hopLimit] ++ h.src.toList ++ h.dst.toList

/-- A TCP header, with `words` words of options. -/
structure Tcp where
  sport : BitVec 16
  dport : BitVec 16
  seq : BitVec 32
  ack : BitVec 32
  reserved : BitVec 4
  flag : TcpFlag → Bool
  ecn : BitVec 2
  window : BitVec 16
  checksum : BitVec 16
  urgent : BitVec 16
  words : Nat
  options : List Byte
  words_le : words ≤ 10
  options_length : options.length = 4 * words

/-- The byte of the flags. -/
def Tcp.flagByte (t : Tcp) : Byte :=
  t.ecn ++ BitVec.ofBool (t.flag .urg) ++ BitVec.ofBool (t.flag .ack) ++
    BitVec.ofBool (t.flag .psh) ++
    BitVec.ofBool (t.flag .rst) ++ BitVec.ofBool (t.flag .syn) ++ BitVec.ofBool (t.flag .fin)

/-- The length of the header, in words. -/
def Tcp.off (t : Tcp) : Nat := 5 + t.words

def Tcp.bytes (t : Tcp) : List Byte :=
  be16 t.sport ++ be16 t.dport ++ be32 t.seq ++ be32 t.ack ++ [BitVec.ofNat 4 t.off ++ t.reserved,
    t.flagByte] ++ be16 t.window ++ be16 t.checksum ++ be16 t.urgent ++ t.options

/-- A UDP header. -/
structure Udp where
  sport : BitVec 16
  dport : BitVec 16
  checksum : BitVec 16

def Udp.bytes (u : Udp) (ulen : BitVec 16) : List Byte :=
  be16 u.sport ++ be16 u.dport ++ be16 ulen ++ be16 u.checksum

/-- The network header. -/
inductive Net
  | ipv4 (h : Ipv4)
  | ipv6 (h : Ipv6)

/-- The bytes of the network header that its length field counts. -/
def Net.counted : Net → Nat
  | ipv4 h => h.ihl * 4
  | ipv6 _ => 0

def Net.etherType : Net → BitVec 16
  | ipv4 _ => etherTypeIp
  | ipv6 _ => etherTypeIpv6

def Net.bytes : Net → Byte → BitVec 16 → List Byte
  | ipv4 h => h.bytes
  | ipv6 h => h.bytes

/-- The transport header. -/
inductive Transport
  | tcp (t : Tcp)
  | udp (u : Udp)

def Transport.protocol : Transport → Byte
  | tcp _ => protoTcp
  | udp _ => protoUdp

def Transport.length : Transport → Nat
  | tcp t => t.off * 4
  | udp _ => 8

def Transport.bytes : Transport → Nat → List Byte
  | tcp t, _ => t.bytes
  | udp u, payloadLen => u.bytes (BitVec.ofNat 16 (8 + payloadLen))

/-- **A well formed frame**: its length fits in the length field of IP. -/
structure Frame where
  dhost : Vector Byte 6
  shost : Vector Byte 6
  net : Net
  transport : Transport
  payload : List Byte
  padding : List Byte
  fits : net.counted + transport.length + payload.length < 2 ^ 16

/-- The value of the length field of IP. -/
def Frame.ipLength (f : Frame) : Nat := f.net.counted + f.transport.length + f.payload.length

/-- **The bytes of a frame**. -/
def Frame.encode (f : Frame) : List Byte :=
  f.dhost.toList ++ f.shost.toList ++ be16 f.net.etherType ++
    f.net.bytes f.transport.protocol (BitVec.ofNat 16 f.ipLength) ++
    f.transport.bytes f.payload.length ++ f.payload ++ f.padding

/-! ## What is to be printed -/

/-- The fields of IPv4. -/
def Ipv4.report (h : Ipv4) (protocol : Byte) (totLen : BitVec 16) : List Item :=
  [{ field := .srcIp, value := .addr h.src.toList },
    { field := .dstIp, value := .addr h.dst.toList },
    { field := .protocol, value := .bits protocol, name := liveProtocol protocol },
    { field := .ttl, value := .bits h.ttl }, { field := .identification, value := .bits h.id },
    { field := .totalLength, value := .bits totLen },
    { field := .ipHeaderLength, value := .num (h.ihl * 4 : Nat) },
    { field := .ipFlags, value := .ipFlags ([.rf, .df, .mf].filter fun f => h.flag f) },
    { field := .fragmentOffset, value := .bits h.fragOff }]

/-- The fields of IPv6. -/
def Ipv6.report (h : Ipv6) (nxt : Byte) (plen : BitVec 16) : List Item :=
  [{ field := .srcIp, value := .addr h.src.toList },
    { field := .dstIp, value := .addr h.dst.toList },
    { field := .nextHeader, value := .bits nxt, name := liveProtocol nxt },
    { field := .hopLimit, value := .bits h.hopLimit },
    { field := .trafficClass, value := .bits h.trafficClass },
    { field := .flowLabel, value := .bits h.flowLabel },
    { field := .ip6PayloadLength, value := .bits plen }]

def Net.report : Net → Byte → BitVec 16 → List Item
  | ipv4 h => h.report
  | ipv6 h => h.report

/-- The payload: its length, and a dump of its first 64 bytes. -/
def payloadReport (application : String) (port : BitVec 16) (payload : List Byte) : List Item :=
  if payload = [] then []
  else
    [{ field := .application, value := .text application },
      { field := .applicationPort, value := .bits port },
      { field := .payloadLength, value := .num payload.length },
      { field := .payload, value := .dump (hexRows (payload.take 64)) }]

/-- The fields of TCP. -/
def Tcp.report (t : Tcp) (payload : List Byte) : List Item :=
  [{ field := .srcPort, value := .bits t.sport, name := portName t.sport },
    { field := .dstPort, value := .bits t.dport, name := portName t.dport },
    { field := .seq, value := .bits t.seq }, { field := .ack, value := .bits t.ack },
    { field := .tcpFlags, value := .tcpFlags ([.fin, .syn, .rst, .psh, .ack, .urg].filter fun f =>
      t.flag f) },
    { field := .window, value := .bits t.window },
    { field := .checksum, value := .bits t.checksum },
    { field := .tcpHeaderLength, value := .num (t.off * 4 : Nat) }] ++
    payloadReport (tcpApplication t.sport t.dport)
      (if t.dport = 443 ∨ t.dport = 80 ∨ t.dport = 53 then t.dport else t.sport) payload

/-- The fields of UDP. -/
def Udp.report (u : Udp) (payload : List Byte) : List Item :=
  [{ field := .srcPort, value := .bits u.sport, name := portName u.sport },
    { field := .dstPort, value := .bits u.dport, name := portName u.dport },
    { field := .udpLength, value := .num (8 + payload.length : Nat) },
    { field := .checksum, value := .bits u.checksum }] ++
    payloadReport (udpApplication u.sport u.dport) (if u.dport = 53 then u.dport
      else u.sport) payload

def Transport.report : Transport → List Byte → List Item
  | tcp t => t.report
  | udp u => u.report

/-- **What is to be printed** of a frame: the fields that it was built from. -/
def Frame.report (f : Frame) (packetId : Int) (header : PktHdr) : List Item :=
  [{ field := .packetId, value := .num packetId },
    { field := .timestamp, value := .time header.tvSec header.tvUsec },
    { field := .capturedLength, value := .num header.caplen.toInt },
    { field := .dstMac, value := .addr f.dhost.toList },
    { field := .srcMac, value := .addr f.shost.toList },
    { field := .etherType, value := .bits f.net.etherType, name := etherName f.net.etherType }] ++
    f.net.report f.transport.protocol (BitVec.ofNat 16 f.ipLength) ++ f.transport.report f.payload

/-! ## The layers -/

variable {m : Nat → Byte} {p : Nat}

theorem holds_be16 {x : BitVec 16} (h : Holds m p (be16 x)) : m p ++ m (p + 1) = x := by
  simp only [be16, holds_cons] at h
  rw [h.1, h.2.1]
  exact be16_append x

theorem holds_be32 {x : BitVec 32} (h : Holds m p (be32 x)) :
    m p ++ m (p + 1) ++ m (p + 2) ++ m (p + 3) = x := by
  simp only [be32, holds_cons, Nat.add_assoc, Nat.reduceAdd] at h
  rw [h.1, h.2.1, h.2.2.1, h.2.2.2.1]
  exact be32_append x

@[simp] theorem length_be16 (x : BitVec 16) : (be16 x).length = 2 := rfl

@[simp] theorem length_be32 (x : BitVec 32) : (be32 x).length = 4 := rfl

theorem holds_vector {k : Nat} {v : Vector Byte k} (h : Holds m p v.toList) :
    cells m p k = v.toList :=
  h.cells (by simp)

/-- A length in words fits in four bits. -/
theorem toNat_words {k : Nat} (hk : k ≤ 10) : (BitVec.ofNat 4 (5 + k)).toNat = 5 + k := by
  rw [BitVec.toNat_ofNat]
  omega

/-- The flags of IPv4 are those that are set in the word. -/
theorem Ipv4.flag_iff (h : Ipv4) (f : IpFlag) : h.fragWord &&& f.mask ≠ 0 ↔ h.flag f = true := by
  have hbit : ∀ i, i < 16 → (h.fragWord &&& BitVec.twoPow 16 i ≠ 0 ↔ h.fragWord.getLsbD i = true) :=
    fun i hi => and_twoPow_ne_zero _ hi
  have hhigh : ∀ i, h.fragWord.getLsbD (13 + i) =
      (BitVec.ofBool (h.flag .rf) ++ BitVec.ofBool (h.flag .df) ++
       BitVec.ofBool (h.flag .mf)).getLsbD i :=
    fun i => getLsbD_append_add _ _ i
  cases f with
  | rf =>
    refine (hbit 15 (by decide)).trans (Bool.eq_iff_iff.mp ((hhigh 2).trans ?_))
    exact (getLsbD_append_add _ _ 1).trans ((getLsbD_append_add _ _ 0).trans (by simp))
  | df =>
    refine (hbit 14 (by decide)).trans (Bool.eq_iff_iff.mp ((hhigh 1).trans ?_))
    exact (getLsbD_append_add _ _ 0).trans (getLsbD_append_ofBool _ _)
  | mf =>
    refine (hbit 13 (by decide)).trans (Bool.eq_iff_iff.mp ((hhigh 0).trans ?_))
    exact getLsbD_append_ofBool _ _

theorem Ipv4.fragOff_eq (h : Ipv4) : (h.fragWord &&& ipOffmask).toNat = h.fragOff.toNat := by
  rw [BitVec.toNat_and]
  show h.fragWord.toNat &&& (2 ^ 13 - 1) = h.fragOff.toNat
  rw [Nat.and_two_pow_sub_one_eq_mod]
  exact toNat_append_mod _ _

/-- **IPv4 is read back**. -/
theorem value_liveIp {h : Ipv4} {protocol : Byte} {totLen : BitVec 16}
    (hm : Holds m p (h.bytes protocol totLen)) : (liveIp p).value m = (h.report protocol totLen,
      { protocol := protocol, packet := some (p + h.ihl * 4),
        length := totLen.toNat - (h.ihl * 4 : Nat) }) := by
  unfold Ipv4.bytes at hm
  simp only [holds_append, holds_cons, List.length_append, List.length_cons, List.length_nil,
    length_be16, Vector.length_toList, Nat.add_assoc, Nat.reduceAdd] at hm
  obtain ⟨⟨⟨⟨⟨⟨⟨⟨⟨hvihl, -⟩, htot⟩, hid⟩, hfrag⟩, httl, hproto, -⟩, -⟩, hsrc⟩, hdst⟩, -⟩ := hm
  have hihl : ((m p).extractLsb' 0 4).toNat = h.ihl := by
    rw [hvihl]
    have : (4#4 ++ BitVec.ofNat 4 h.ihl).extractLsb' 0 4 = BitVec.ofNat 4 h.ihl :=
      BitVec.extractLsb'_append_eq_right
    exact (congrArg BitVec.toNat this).trans (toNat_words h.words_le)
  have hword := holds_be16 hfrag
  have htot' := holds_be16 htot
  have hid' := holds_be16 hid
  simp only [Nat.add_assoc, Nat.reduceAdd] at hword htot' hid'
  have hflags : printIpFlags (m (p + 7) ++ m (p + 6)) =
      [{ field := .ipFlags, value := .ipFlags ([.rf, .df, .mf].filter fun f => h.flag f) },
        { field := .fragmentOffset, value := .bits h.fragOff }] := by
    unfold printIpFlags
    simp only [and_htons_ne_zero, ntohs_append, hword, h.flag_iff, Value.bits, h.fragOff_eq,
      Bool.decide_eq_true]
  unfold liveIp
  simp only [value_bind, value_inetNtop, value_load, value_net16, value_lowNibble, value_load16,
    value_pure, hihl, Nat.add_assoc, Nat.reduceAdd, holds_vector hsrc, holds_vector hdst, hproto,
    httl, htot', hid', hflags]
  rfl

/-- The traffic class and the flow label are read back. -/
theorem Ipv6.trafficClass_eq (h : Ipv6) : CShark.trafficClass h.flowWord = h.trafficClass := by
  have hbits : ∀ i : Fin 8, (0x0FF00000#32).getLsbD (20 + i) = true := by decide
  apply BitVec.eq_of_getLsbD_eq
  intro i hi
  have hmask : BitVec.getLsbD (0x0FF00000 : BitVec 32) (20 + i) = true := hbits ⟨i, hi⟩
  have hword : h.flowWord.getLsbD (20 + i) = (6#4 ++ h.trafficClass).getLsbD i :=
    getLsbD_append_add _ _ i
  rw [BitVec.getLsbD_append, if_pos hi] at hword
  unfold CShark.trafficClass
  rw [BitVec.getLsbD_setWidth, BitVec.getLsbD_ushiftRight, BitVec.getLsbD_and, hword, hmask]
  simp [hi]

theorem Ipv6.flowLabel_eq (h : Ipv6) : (CShark.flowLabel h.flowWord).toNat = h.flowLabel.toNat := by
  unfold CShark.flowLabel
  rw [BitVec.toNat_and]
  show h.flowWord.toNat &&& (2 ^ 20 - 1) = h.flowLabel.toNat
  rw [Nat.and_two_pow_sub_one_eq_mod]
  exact toNat_append_mod _ _

/-- **IPv6 is read back**. -/
theorem value_liveIp6 {h : Ipv6} {nxt : Byte} {plen : BitVec 16}
    (hm : Holds m p (h.bytes nxt plen)) : (liveIp6 p).value m = (h.report nxt plen,
      { protocol := nxt, packet := some (p + ip6Len), length := plen.toNat }) := by
  unfold Ipv6.bytes at hm
  simp only [holds_append, holds_cons, List.length_append, List.length_cons, List.length_nil,
    length_be16, length_be32, Vector.length_toList, Nat.add_assoc, Nat.reduceAdd] at hm
  obtain ⟨⟨⟨⟨hflow, hplen⟩, hnxt, hhop, -⟩, hsrc⟩, hdst⟩ := hm
  have hflow' := holds_be32 hflow
  have hplen' := holds_be16 hplen
  simp only [Nat.add_assoc, Nat.reduceAdd] at hplen'
  unfold liveIp6
  simp only [value_bind, value_inetNtop, value_load, value_net16, value_net32, value_pure,
    Nat.add_assoc, Nat.reduceAdd, holds_vector hsrc, holds_vector hdst, hnxt, hhop, hplen', hflow',
    Value.bits, h.trafficClass_eq, h.flowLabel_eq]
  rfl

/-- The flags of TCP are those that are set in the byte. -/
theorem Tcp.flag_iff (t : Tcp) (f : TcpFlag) : t.flagByte &&& f.mask ≠ 0 ↔ t.flag f = true := by
  have hbit : ∀ i, i < 8 → (t.flagByte &&& BitVec.twoPow 8 i ≠ 0 ↔ t.flagByte.getLsbD i = true) :=
    fun i hi => and_twoPow_ne_zero _ hi
  cases f with
  | fin =>
    refine (hbit 0 (by decide)).trans (Bool.eq_iff_iff.mp ?_)
    exact getLsbD_append_ofBool _ _
  | syn =>
    refine (hbit 1 (by decide)).trans (Bool.eq_iff_iff.mp ((getLsbD_append_add _ _ 0).trans ?_))
    exact getLsbD_append_ofBool _ _
  | rst =>
    refine (hbit 2 (by decide)).trans (Bool.eq_iff_iff.mp ((getLsbD_append_add _ _ 1).trans ?_))
    exact (getLsbD_append_add _ _ 0).trans (getLsbD_append_ofBool _ _)
  | psh =>
    refine (hbit 3 (by decide)).trans (Bool.eq_iff_iff.mp ((getLsbD_append_add _ _ 2).trans ?_))
    exact (getLsbD_append_add _ _ 1).trans ((getLsbD_append_add _ _ 0).trans
      (getLsbD_append_ofBool _ _))
  | ack =>
    refine (hbit 4 (by decide)).trans (Bool.eq_iff_iff.mp ((getLsbD_append_add _ _ 3).trans ?_))
    exact (getLsbD_append_add _ _ 2).trans ((getLsbD_append_add _ _ 1).trans
      ((getLsbD_append_add _ _ 0).trans (getLsbD_append_ofBool _ _)))
  | urg =>
    refine (hbit 5 (by decide)).trans (Bool.eq_iff_iff.mp ((getLsbD_append_add _ _ 4).trans ?_))
    exact (getLsbD_append_add _ _ 3).trans ((getLsbD_append_add _ _ 2).trans
      ((getLsbD_append_add _ _ 1).trans
      ((getLsbD_append_add _ _ 0).trans (getLsbD_append_ofBool _ _))))

/-- **The payload is shown** with its length, and its first bytes. -/
theorem value_livePayload (application : String) (port : BitVec 16) {payload : List Byte}
    (hm : Holds m p payload) {payloadLen : Int} (hlen : payloadLen = payload.length) :
    (livePayload application port p payloadLen).value m =
    payloadReport application port payload := by
  have hcells := hm.cells rfl
  unfold livePayload payloadReport
  rw [hlen]
  by_cases hnil : payload = []
  · rw [if_pos hnil, hnil, List.length_nil, if_neg (by omega)]
    rfl
  · have hpos := List.length_pos_of_ne_nil hnil
    have hdump : cells m p (if (payload.length : Int) < 64 then (payload.length : Int)
      else 64).toNat =
        payload.take 64 := by
      conv_rhs => rw [← hcells, take_cells]
      congr 1
      split <;> omega
    rw [if_neg hnil, if_pos (by omega), value_bind, value_printHexDump, hdump]
    rfl

/-- **TCP is read back**, with the payload behind it. -/
theorem value_liveTcp {t : Tcp} {payload : List Byte} (hm : Holds m p t.bytes)
    (hpayload : Holds m (p + t.off * 4) payload) {l4Length : Int}
    (hlen : l4Length = (t.off * 4 : Nat) + payload.length) :
    (liveTcp p l4Length).value m = t.report payload := by
  unfold Tcp.bytes at hm
  simp only [holds_append, holds_cons, List.length_append, List.length_cons, List.length_nil,
    length_be16, length_be32, Nat.add_assoc, Nat.reduceAdd] at hm
  obtain ⟨⟨⟨⟨⟨⟨⟨⟨hsport, hdport⟩, hseq⟩, hack⟩, hoff, hflags, -⟩, hwin⟩, hsum⟩, -⟩, -⟩ := hm
  have hoff' : ((m (p + 12)).extractLsb' 4 4).toNat = t.off := by
    rw [hoff]
    have : (BitVec.ofNat 4 t.off ++ t.reserved).extractLsb' 4 4 = BitVec.ofNat 4 t.off :=
      BitVec.extractLsb'_append_eq_left
    exact (congrArg BitVec.toNat this).trans (toNat_words t.words_le)
  have hset : setFlags t.flagByte = [.fin, .syn, .rst, .psh, .ack, .urg].filter fun f =>
    t.flag f := by
    unfold setFlags
    simp only [t.flag_iff, Bool.decide_eq_true]
  have hsport' := holds_be16 hsport
  have hdport' := holds_be16 hdport
  have hseq' := holds_be32 hseq
  have hack' := holds_be32 hack
  have hwin' := holds_be16 hwin
  have hsum' := holds_be16 hsum
  simp only [Nat.add_assoc, Nat.reduceAdd] at hdport' hseq' hack' hwin' hsum'
  unfold liveTcp
  simp only [value_bind, value_load, value_net16, value_net32, value_highNibble, value_pure,
    Nat.add_assoc, Nat.reduceAdd, hsport', hdport', hseq', hack', hwin', hsum', hoff', hflags,
    printTcpFlags, hset]
  rw [value_livePayload _ _ hpayload (by omega)]
  rfl

/-- **UDP is read back**, with the payload behind it. -/
theorem value_liveUdp {u : Udp} {payload : List Byte}
    (hm : Holds m p (u.bytes (BitVec.ofNat 16 (8 + payload.length))))
    (hpayload : Holds m (p + 8) payload) (hfits : 8 + payload.length < 2 ^ 16) {l4Length : Int}
    (hlen : l4Length = 8 + payload.length) : (liveUdp p l4Length).value m = u.report payload := by
  unfold Udp.bytes at hm
  simp only [holds_append, List.length_append, length_be16, Nat.reduceAdd] at hm
  obtain ⟨⟨⟨hsport, hdport⟩, hulen⟩, hsum⟩ := hm
  have hsport' := holds_be16 hsport
  have hdport' := holds_be16 hdport
  have hulen' := holds_be16 hulen
  have hsum' := holds_be16 hsum
  simp only [Nat.add_assoc, Nat.reduceAdd] at hdport' hulen' hsum'
  have hnat : Value.bits (BitVec.ofNat 16 (8 + payload.length)) =
    .num (8 + payload.length : Nat) := by
    rw [Value.bits, BitVec.toNat_ofNat, Nat.mod_eq_of_lt hfits]
  unfold liveUdp
  simp only [value_bind, value_net16, value_pure, Nat.add_assoc, Nat.reduceAdd, hsport', hdport',
    hulen', hsum', hnat]
  rw [value_livePayload _ _ hpayload (by omega)]
  rfl

/-! ## The frame -/

theorem Tcp.length_bytes (t : Tcp) : t.bytes.length = t.off * 4 := by
  simp only [Tcp.bytes, List.length_append, List.length_cons, List.length_nil, length_be16,
    length_be32, t.options_length, Tcp.off]
  omega

theorem Ipv4.length_bytes (h : Ipv4) (protocol : Byte) (totLen : BitVec 16) :
    (h.bytes protocol totLen).length = h.ihl * 4 := by
  simp only [Ipv4.bytes, List.length_append, List.length_cons, List.length_nil, length_be16,
    Vector.length_toList, h.options_length, Ipv4.ihl]
  omega

theorem Ipv6.length_bytes (h : Ipv6) (nxt : Byte) (plen : BitVec 16) :
    (h.bytes nxt plen).length = ip6Len := by
  simp [Ipv6.bytes]

theorem Transport.length_bytes (t : Transport) (payloadLen : Nat) :
    (t.bytes payloadLen).length = t.length := by
  cases t with
  | tcp t => exact t.length_bytes
  | udp u => rfl

/-- **The transport layer is read back**, with the payload behind it. -/
theorem value_liveL4 {t : Transport} {payload : List Byte} (hm : Holds m p (t.bytes payload.length))
    (hpayload : Holds m (p + t.length) payload) (hfits : t.length + payload.length < 2 ^ 16)
    {l4Length : Int} (hlen : l4Length = t.length + payload.length) :
    (liveL4 { protocol := t.protocol, packet := some p, length := l4Length }).value m =
    t.report payload := by
  unfold liveL4
  cases t with
  | tcp t => exact value_liveTcp hm hpayload hlen
  | udp u => exact value_liveUdp hm hpayload hfits hlen

/-- **The network layer is read back**, and says where the transport layer is. -/
theorem value_liveL3 {net : Net} {protocol : Byte} {k : Nat} (hk : k < 2 ^ 16)
    (hm : Holds m 14 (net.bytes protocol (BitVec.ofNat 16 k))) :
    (liveL3 net.etherType).value m = (net.report protocol (BitVec.ofNat 16 k),
      { protocol := protocol
        packet := some (14 + (net.bytes protocol (BitVec.ofNat 16 k)).length)
        length := (k : Int) - net.counted }) := by
  have hnat : (BitVec.ofNat 16 k).toNat = k := by rw [BitVec.toNat_ofNat, Nat.mod_eq_of_lt hk]
  cases net with
  | ipv4 h =>
    have hbytes : (Net.bytes (.ipv4 h) protocol (BitVec.ofNat 16 k)).length = h.ihl * 4 :=
      h.length_bytes _ _
    have hval := value_liveIp (h := h) hm
    rw [hnat] at hval
    rw [hbytes]
    exact hval
  | ipv6 h =>
    have hbytes : (Net.bytes (.ipv6 h) protocol (BitVec.ofNat 16 k)).length = ip6Len :=
      h.length_bytes _ _
    have hval := value_liveIp6 (h := h) hm
    rw [hnat] at hval
    rw [hbytes, show ((k : Int) - (Net.counted (.ipv6 h) : Nat)) = k from Int.sub_zero _]
    exact hval

theorem value_liveView {f : Frame} (hm : Holds m 0 f.encode) (packetId : Int) (header : PktHdr) :
    (liveView packetId header).value m = f.report packetId header := by
  unfold Frame.encode at hm
  simp only [holds_append, List.length_append, length_be16, Vector.length_toList,
    f.transport.length_bytes, Nat.zero_add, Nat.reduceAdd] at hm
  obtain ⟨⟨⟨⟨⟨⟨hdhost, hshost⟩, htype⟩, hnet⟩, htransport⟩, hpayload⟩, -⟩ := hm
  have hfits : f.ipLength < 2 ^ 16 := f.fits
  have hlen : f.ipLength = f.net.counted + f.transport.length + f.payload.length := rfl
  have htype' := holds_be16 htype
  simp only [Nat.reduceAdd] at htype'
  unfold liveView
  simp only [value_bind, value_printMacAddress, value_net16, value_pure, Nat.reduceAdd, htype',
    holds_vector hdhost, holds_vector hshost]
  rw [value_liveL3 hfits hnet]
  dsimp only
  rw [value_liveL4 htransport hpayload (by omega) (by omega)]
  rfl

/-- **Decoding undoes encoding**: of every well formed frame that was captured, `packet_handler`
prints the fields that it was built from, the length of its payload and the first 64 bytes of it. -/
theorem packetHandler_encode (f : Frame) (header : PktHdr) (packet : Nat → Byte) (malloc : Bool)
    (s : Shark)
    (hcaptured : cells packet 0 header.caplen.toNat = f.encode) (hs : s.stopSniffing = false) :
    (packetHandler header packet malloc s).announced = s.announced ++
      [{
        id := s.packetId + 1
        header
        packet
        items := f.report (s.packetId + 1).toInt header }] := by
  have hm : Holds packet 0 f.encode := by
    rw [← hcaptured]
    exact holds_cells
  rw [packetHandler, if_neg (by rw [hs]; exact Bool.false_ne_true)]
  dsimp only
  rw [value_liveView hm, announced_storePacket]

/-- A segment with options in both headers, three bytes of payload and two of padding. -/
def sampleFrame : Frame where
  dhost := ⟨#[1, 2, 3, 4, 5, 6], rfl⟩
  shost := ⟨#[7, 8, 9, 10, 11, 12], rfl⟩
  net := .ipv4
    { tos := 0, id := 0x1234, flag := fun f => f = .df, fragOff := 0, ttl := 64, check := 0
      src := ⟨#[10, 0, 0, 1], rfl⟩, dst := ⟨#[10, 0, 0, 2], rfl⟩, words := 1, options :=
        [1, 1, 1, 0]
      words_le := by decide, options_length := rfl }
  transport := .tcp
    { sport := 50000, dport := 80, seq := 0x01020304, ack := 0x05060708, reserved := 0
      flag := fun f => f = .ack || f = .psh, ecn := 0, window := 512, checksum := 0, urgent := 0
      words := 1, options := [1, 1, 1, 0], words_le := by decide, options_length := rfl }
  payload := [71, 69, 84]
  padding := [0, 0]
  fits := by decide

theorem packetHandler_encode_sample :
    (packetHandler { tvSec := 0, tvUsec := 0, caplen := 67, len := 67 }
      (memoryAt sampleFrame.encode fun _ => 0) true Shark.init).announced.map Announcement.items =
    [sampleFrame.report 1 { tvSec := 0, tvUsec := 0, caplen := 67, len := 67 }] := by
  rw [packetHandler_encode sampleFrame _ _ _ _ (by decide +kernel) rfl]
  rfl

end CShark
