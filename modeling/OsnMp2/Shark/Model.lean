import OsnMp2.Lib.Reads
import Mathlib.Algebra.Group.Nat.Defs
import Mathlib.Logic.Function.Basic

/-!
# C-Shark

The packet sniffer: `packet_handler` shows a frame as it comes in and stores it,
`list_stored_packets` and `inspect_packet_detailed` show what is stored.

A frame is in a memory, with the place of its first byte as zero; the functions read the memory byte
by byte, and what they find behind the captured bytes is whatever is there. The host is little
endian, as `ntohs` and the bit fields of the headers take it. What is printed is a list of items:
the field, its value, and the name in words that stands beside it. An address is given by its bytes.

## Main definitions

* `Field`, `Value`, `Item`: what is shown
* `printHexDump`, `printIpFlags`, `portName`, `printTcpFlags`: `utils.c`
* `liveView`: what `packet_handler` prints
* `listLine`, `detailedView`: what `list_stored_packets` and `inspect_packet_detailed` print of a
  frame
* `Shark`, `clearPacketStorage`, `storePacket`, `packetHandler`,
  `inspectPacketDetailed`: the stored frames
-/

namespace CShark

abbrev Byte := BitVec 8

/-- A program that reads the memory at a frame. -/
abbrev Scan := Reads Nat Byte

open Reads

/-! ## Numbers in memory -/

/-- A number of two bytes, in the byte order of the host. -/
def load16 (p : Nat) : Scan (BitVec 16) := do
  let b₀ ← load p
  let b₁ ← load (p + 1)
  return b₁ ++ b₀

/-- A number of four bytes, in the byte order of the host. -/
def load32 (p : Nat) : Scan (BitVec 32) := do
  let b₀ ← load p
  let b₁ ← load (p + 1)
  let b₂ ← load (p + 2)
  let b₃ ← load (p + 3)
  return b₃ ++ b₂ ++ b₁ ++ b₀

def ntohs (x : BitVec 16) : BitVec 16 := x.extractLsb' 0 8 ++ x.extractLsb' 8 8

def htons (x : BitVec 16) : BitVec 16 := ntohs x

def ntohl (x : BitVec 32) : BitVec 32 :=
  x.extractLsb' 0 8 ++ x.extractLsb' 8 8 ++ x.extractLsb' 16 8 ++ x.extractLsb' 24 8

/-- A number of two bytes that is in network order. -/
def net16 (p : Nat) : Scan (BitVec 16) := do
  let x ← load16 p
  return ntohs x

def net32 (p : Nat) : Scan (BitVec 32) := do
  let x ← load32 p
  return ntohl x

/-- A bit field in the lower half of a byte. -/
def lowNibble (p : Nat) : Scan Nat := do
  let b ← load p
  return (b.extractLsb' 0 4).toNat

/-- A bit field in the upper half of a byte. -/
def highNibble (p : Nat) : Scan Nat := do
  let b ← load p
  return (b.extractLsb' 4 4).toNat

/-! ## What is shown -/

/-- The fields. -/
inductive Field
  | packetId | timestamp | capturedLength | originalLength
  | dstMac | srcMac | etherType | rawEthernet
  | ipVersion | ipHeaderLength | typeOfService | totalLength | identification | ipFlags
  | fragmentOffset | ttl
  | protocol | headerChecksum | srcIp | dstIp | rawIp
  | trafficClass | flowLabel | ip6PayloadLength | nextHeader | hopLimit
  | hwType | protoType | hwLen | protoLen | operation | senderMac | senderIp | targetMac
  | targetIp | rawArp
  | srcPort | dstPort | seq | ack | tcpFlags | window | checksum | tcpHeaderLength | urgentPointer
  | rawTcp
  | udpLength | rawUdp
  | application | applicationPort | payloadLength | payload
  | completeDump
deriving DecidableEq

/-- `IP_RF`, `IP_DF` and `IP_MF`. -/
inductive IpFlag
  | rf | df | mf
deriving DecidableEq

def IpFlag.mask : IpFlag → BitVec 16
  | rf => 0x8000
  | df => 0x4000
  | mf => 0x2000

/-- `IP_OFFMASK`. -/
def ipOffmask : BitVec 16 := 0x1fff

/-- The flags of `th_flags` that are shown. -/
inductive TcpFlag
  | fin | syn | rst | psh | ack | urg
deriving DecidableEq

def TcpFlag.mask : TcpFlag → Byte
  | fin => 0x01
  | syn => 0x02
  | rst => 0x04
  | psh => 0x08
  | ack => 0x10
  | urg => 0x20

/-- A line of a hex dump. -/
structure Row where
  hex : List Byte
  ascii : List Char
deriving DecidableEq

inductive Value
  | num (n : Int)
  | time (sec usec : Int)
  | addr (bytes : List Byte)
  | ipFlags (flags : List IpFlag)
  | tcpFlags (flags : List TcpFlag)
  | text (name : String)
  | dump (rows : List Row)
deriving DecidableEq

/-- A field with its value, and the name in words that is printed beside it. -/
structure Item where
  field : Field
  value : Value
  name : String := ""
deriving DecidableEq

/-- `%d` of an unsigned number that is smaller than an `int`. -/
def Value.bits {w : Nat} (x : BitVec w) : Value := .num x.toNat

/-! ## Helpers -/

/-- A byte as the right half of a hex dump shows it. -/
def printable (b : Byte) : Char := if 32 ≤ b.toNat ∧ b.toNat ≤ 126 then Char.ofNat b.toNat else '.'

/-- A line of `print_hex_dump`: the bytes are read once for each half. -/
def dumpRow (p n : Nat) : Scan Row := do
  let hex ← loads p n
  let ascii ← loads p n
  return { hex, ascii := ascii.map printable }

/-- `print_hex_dump`: lines of 16 bytes, and one with the rest. -/
def printHexDump (p : Nat) (len : Int) : Scan (List Row) :=
  each (fun r => dumpRow (p + 16 * r) (min 16 (len.toNat - 16 * r)))
    (List.range ((len.toNat + 15) / 16))

/-- `print_mac_address`. -/
def printMacAddress (p : Nat) : Scan Value := do
  let mac ← loads p 6
  return .addr mac

/-- `inet_ntop`, of an address of `n` bytes. -/
def inetNtop (p n : Nat) : Scan Value := do
  let addr ← loads p n
  return .addr addr

/-- `print_ip_flags`: the flags are tested in network order. -/
def printIpFlags (fragOff : BitVec 16) : List Item :=
  -- `ip_off` is tested as it lies in memory, against masks in network order.
  [{ field := .ipFlags, value := .ipFlags ([.rf, .df, .mf].filter fun f => fragOff &&& htons
    f.mask ≠ 0) }, { field := .fragmentOffset, value := .bits (ntohs fragOff &&& ipOffmask) }]

/-- `port_name`. -/
def portName (port : BitVec 16) : String :=
  if port = 53 then "(DNS)" else if port = 80 then "(HTTP)" else if port = 443 then "(HTTPS)"
    else ""

/-- The flags of TCP that are set, as both views list them. -/
def setFlags (flags : Byte) : List TcpFlag :=
  [.fin, .syn, .rst, .psh, .ack, .urg].filter fun f => flags &&& f.mask ≠ 0

/-- `print_tcp_flags`. -/
def printTcpFlags (flags : Byte) :
    List Item := [{ field := .tcpFlags, value := .tcpFlags (setFlags flags) }]

/-! ## The headers -/

/-- The length of `struct ether_header`. -/
abbrev etherLen : Nat := 14

/-- The length of `struct ip6_hdr`. -/
abbrev ip6Len : Nat := 40

abbrev etherTypeIp : BitVec 16 := 0x0800

abbrev etherTypeIpv6 : BitVec 16 := 0x86DD

abbrev etherTypeArp : BitVec 16 := 0x0806

abbrev protoTcp : Byte := 6

abbrev protoUdp : Byte := 17

abbrev protoIcmp : Byte := 1

abbrev protoIcmpv6 : Byte := 58

/-! ## The live view -/

/-- What the network layer says about the transport layer. -/
structure L4 where
  protocol : Byte
  packet : Option Nat
  length : Int

/-- The name of a transport protocol in the live view. -/
def liveProtocol (protocol : Byte) : String :=
  if protocol = protoTcp then "TCP" else if protocol = protoUdp then "UDP" else "Unknown"

/-- The case `ETHERTYPE_IP`. -/
def liveIp (ip : Nat) : Scan (List Item × L4) := do
  let srcIp ← inetNtop (ip + 12) 4
  let dstIp ← inetNtop (ip + 16) 4
  let protocol ← load (ip + 9)
  let ttl ← load (ip + 8)
  let id ← net16 (ip + 4)
  let totLen ← net16 (ip + 2)
  -- The addresses come before the header length is known, so options do not move them.
  let ihl ← lowNibble ip
  let fragOff ← load16 (ip + 6)
  let items : List Item :=
    [{ field := .srcIp, value := srcIp }, { field := .dstIp, value := dstIp },
      { field := .protocol, value := .bits protocol, name := liveProtocol protocol },
      { field := .ttl, value := .bits ttl }, { field := .identification, value := .bits id },
      { field := .totalLength, value := .bits totLen },
      { field := .ipHeaderLength, value := .num (ihl * 4 : Nat) }]
  return (items ++ printIpFlags fragOff,
    -- The length may be negative; then no payload is shown.
    { protocol, packet := some (ip + ihl * 4), length := (totLen.toNat : Int) - (ihl * 4 : Nat) })

/-- The traffic class in the first word of an IPv6 header. -/
def trafficClass (vtcFlow : BitVec 32) : BitVec 8 := ((vtcFlow &&& 0x0FF00000) >>> 20).setWidth 8

/-- The flow label in the first word of an IPv6 header. -/
def flowLabel (vtcFlow : BitVec 32) : BitVec 32 := vtcFlow &&& 0x000FFFFF

/-- The case `ETHERTYPE_IPV6`. -/
def liveIp6 (ip6 : Nat) : Scan (List Item × L4) := do
  let srcIp ← inetNtop (ip6 + 8) 16
  let dstIp ← inetNtop (ip6 + 24) 16
  let vtcFlow ← net32 ip6
  let nxt ← load (ip6 + 6)
  let hlim ← load (ip6 + 7)
  let plen ← net16 (ip6 + 4)
  let items : List Item :=
    [{ field := .srcIp, value := srcIp }, { field := .dstIp, value := dstIp },
      { field := .nextHeader, value := .bits nxt, name := liveProtocol nxt },
      { field := .hopLimit, value := .bits hlim },
      { field := .trafficClass, value := .bits (trafficClass vtcFlow) },
      { field := .flowLabel, value := .bits (flowLabel vtcFlow) },
      { field := .ip6PayloadLength, value := .bits plen }]
  -- Extension headers are not followed: `ip6_nxt` counts as the protocol.
  return (items, { protocol := nxt, packet := some (ip6 + ip6Len), length := plen.toNat })

/-- The name of an ARP operation. -/
def arpName (op : BitVec 16) : String := if op = 1 then "Request" else if op = 2 then "Reply"
    else "Unknown"

/-- The case `ETHERTYPE_ARP`. -/
def liveArp (arp : Nat) : Scan (List Item) := do
  let senderIp ← inetNtop (arp + 14) 4
  let targetIp ← inetNtop (arp + 24) 4
  let op ← net16 (arp + 6)
  let senderMac ← printMacAddress (arp + 8)
  let targetMac ← printMacAddress (arp + 18)
  let hrd ← net16 arp
  let pro ← net16 (arp + 2)
  let hln ← load (arp + 4)
  let pln ← load (arp + 5)
  -- As they are printed, not as they are read.
  return [{ field := .operation, value := .bits op, name := arpName op },
    { field := .senderIp, value := senderIp },
    { field := .targetIp, value := targetIp }, { field := .senderMac, value := senderMac },
    { field := .targetMac, value := targetMac }, { field := .hwType, value := .bits hrd },
    { field := .protoType, value := .bits pro }, { field := .hwLen, value := .bits hln },
    { field := .protoLen, value := .bits pln }]

/-- The network layer in the live view; `l4_packet` stays null without IP. -/
def liveL3 (ethType : BitVec 16) : Scan (List Item × L4) :=
  if ethType = etherTypeIp then liveIp etherLen
  else if ethType = etherTypeIpv6 then liveIp6 etherLen
  else if ethType = etherTypeArp then do
    let items ← liveArp etherLen
    return (items, { protocol := 0, packet := none, length := 0 })
  else return ([], { protocol := 0, packet := none, length := 0 })

/-- The application of a TCP connection. -/
def tcpApplication (sport dport : BitVec 16) : String :=
  if sport = 80 ∨ dport = 80 then "HTTP" else if sport = 443 ∨ dport = 443 then "HTTPS/TLS"
  else if sport = 53 ∨ dport = 53 then "DNS" else "Unknown"

/-- The application of a UDP datagram. -/
def udpApplication (sport dport : BitVec 16) : String := if sport = 53 ∨ dport = 53 then "DNS"
    else "Unknown"

/-- The payload in the live view: its application and its first bytes. -/
def livePayload (application : String) (port : BitVec 16) (payload : Nat) (payloadLen : Int) :
    Scan (List Item) :=
  if 0 < payloadLen then do
    -- At most 64 bytes.
    let rows ← printHexDump payload (if payloadLen < 64 then payloadLen else 64)
    return [{ field := .application, value := .text application },
      { field := .applicationPort, value := .bits port },
      { field := .payloadLength, value := .num payloadLen },
      { field := .payload, value := .dump rows }]
  else return []

/-- TCP in the live view. -/
def liveTcp (tcp : Nat) (l4Length : Int) : Scan (List Item) := do
  let sport ← net16 tcp
  let dport ← net16 (tcp + 2)
  let seq ← net32 (tcp + 4)
  let ack ← net32 (tcp + 8)
  let flags ← load (tcp + 13)
  let win ← net16 (tcp + 14)
  let sum ← net16 (tcp + 16)
  let off ← highNibble (tcp + 12)
  -- The port that the application is known by.
  let port := if dport = 443 ∨ dport = 80 ∨ dport = 53 then dport else sport
  let rest ← livePayload (tcpApplication sport dport) port (tcp + off * 4)
    (l4Length - (off * 4 : Nat))
  return [{ field := .srcPort, value := .bits sport, name := portName sport },
      { field := .dstPort, value := .bits dport, name := portName dport },
      { field := .seq, value := .bits seq }, { field := .ack, value := .bits ack }] ++
      printTcpFlags flags ++
    [{ field := .window, value := .bits win }, { field := .checksum, value := .bits sum },
      { field := .tcpHeaderLength, value := .num (off * 4 : Nat) }] ++ rest

/-- UDP in the live view. -/
def liveUdp (udp : Nat) (l4Length : Int) : Scan (List Item) := do
  let sport ← net16 udp
  let dport ← net16 (udp + 2)
  let ulen ← net16 (udp + 4)
  let sum ← net16 (udp + 6)
  let port := if dport = 53 then dport else sport
  let rest ← livePayload (udpApplication sport dport) port (udp + 8) (l4Length - 8)
  return [{ field := .srcPort, value := .bits sport, name := portName sport },
      { field := .dstPort, value := .bits dport, name := portName dport },
      { field := .udpLength, value := .bits ulen }, { field := .checksum, value := .bits sum }] ++
      rest

/-- The transport layer in the live view. -/
def liveL4 (l4 : L4) : Scan (List Item) :=
  match l4.packet with
  -- `l4_packet` is null for ARP and for unknown EtherTypes.
  | none => return []
  | some p =>
    if l4.protocol = protoTcp then liveTcp p l4.length
    else if l4.protocol = protoUdp then liveUdp p l4.length
    else return []

/-- `struct pcap_pkthdr`. -/
structure PktHdr where
  tvSec : Int
  tvUsec : Int
  caplen : BitVec 32
  len : BitVec 32
deriving DecidableEq

/-- The name of an EtherType. -/
def etherName (ethType : BitVec 16) : String :=
  if ethType = etherTypeIp then "IPv4" else if ethType = etherTypeIpv6 then "IPv6"
  else if ethType = etherTypeArp then "ARP" else "Unknown"

/-- **The live view**: what `packet_handler` prints of a frame. -/
def liveView (packetId : Int) (header : PktHdr) : Scan (List Item) := do
  let dhost ← printMacAddress 0
  let shost ← printMacAddress 6
  let ethType ← net16 12
  let ether : List Item :=
    -- `caplen` is printed with `%d`.
    [{ field := .packetId, value := .num packetId },
      { field := .timestamp, value := .time header.tvSec header.tvUsec },
      { field := .capturedLength, value := .num header.caplen.toInt },
      { field := .dstMac, value := dhost }, { field := .srcMac, value := shost },
      { field := .etherType, value := .bits ethType, name := etherName ethType }]
  let (l3, l4) ← liveL3 ethType
  let rest ← liveL4 l4
  return ether ++ l3 ++ rest

/-! ## The stored frames -/

/-- **The line of a frame** in `list_stored_packets`. -/
def listLine (packetId : Int) (header : PktHdr) : Scan (List Item) := do
  let ethType ← net16 12
  let line : List Item :=
    [{ field := .packetId, value := .num packetId },
      { field := .timestamp, value := .time header.tvSec header.tvUsec },
      { field := .capturedLength, value := .num header.caplen.toInt },
      { field := .etherType, value := .text (etherName ethType) }]
  if ethType = etherTypeIp then
    let srcIp ← inetNtop (etherLen + 12) 4
    let dstIp ← inetNtop (etherLen + 16) 4
    let protocol ← load (etherLen + 9)
    return line ++ [{ field := .srcIp, value := srcIp }, { field := .dstIp, value := dstIp },
      { field := .protocol, value := .bits protocol }]
  else return line

/-- The flags of IPv4 in the inspection, which are tested in host order. -/
def detailedIpFlags (fragOff : BitVec 16) : List Item :=
  -- Here `ntohs` was applied before.
  [{ field := .ipFlags, value := .ipFlags ([.rf, .df, .mf].filter fun f =>
    fragOff &&& f.mask ≠ 0) }, { field := .fragmentOffset, value := .bits (fragOff &&& ipOffmask) }]

/-- The payload in the inspection; the application is shown for IPv4. -/
def detailedPayload (application : Option String) (payload : Nat) (payloadLen : Int) :
    Scan (List Item) :=
  if 0 < payloadLen then do
    -- All of it, not only 64 bytes.
    let rows ← printHexDump payload payloadLen
    return { field := .payloadLength, value := .num payloadLen } ::
      (application.toList.map (fun name => { field := .application, value := .text name }) ++
        [{ field := .payload, value := .dump rows }])
  else return []

/-- The urgent pointer is shown for IPv4. -/
def detailedUrgent (v4 : Bool) (tcp : Nat) : Scan (List Item) :=
  if v4 then do
    let urp ← net16 (tcp + 18)
    return [{ field := .urgentPointer, value := .bits urp }]
  else return []

/-- TCP in the inspection: over IPv4 the urgent pointer and the application are shown too. -/
def detailedTcp (v4 : Bool) (tcp : Nat) (l4Length : Int) : Scan (List Item) := do
  let sport ← net16 tcp
  let dport ← net16 (tcp + 2)
  let seq ← net32 (tcp + 4)
  let ack ← net32 (tcp + 8)
  let off ← highNibble (tcp + 12)
  let flags ← load (tcp + 13)
  let win ← net16 (tcp + 14)
  let sum ← net16 (tcp + 16)
  let urg ← detailedUrgent v4 tcp
  let raw ← printHexDump tcp (off * 4 : Nat)
  let application := if v4 then some (tcpApplication sport dport) else none
  let rest ← detailedPayload application (tcp + off * 4) (l4Length - (off * 4 : Nat))
  return [{ field := .srcPort, value := .bits sport, name := portName sport },
      { field := .dstPort, value := .bits dport, name := portName dport },
      { field := .seq, value := .bits seq }, { field := .ack, value := .bits ack },
      { field := .tcpHeaderLength, value := .num (off * 4 : Nat) },
      { field := .tcpFlags, value := .tcpFlags (setFlags flags) },
      { field := .window, value := .bits win }, { field := .checksum, value := .bits sum }] ++
      urg ++
    [{ field := .rawTcp, value := .dump raw }] ++ rest

/-- UDP in the inspection. -/
def detailedUdp (v4 : Bool) (udp : Nat) (l4Length : Int) : Scan (List Item) := do
  let sport ← net16 udp
  let dport ← net16 (udp + 2)
  let ulen ← net16 (udp + 4)
  let sum ← net16 (udp + 6)
  let raw ← printHexDump udp 8
  let application := if v4 then some (udpApplication sport dport) else none
  let rest ← detailedPayload application (udp + 8) (l4Length - 8)
  return [{ field := .srcPort, value := .bits sport, name := portName sport },
      { field := .dstPort, value := .bits dport, name := portName dport },
      { field := .udpLength, value := .bits ulen }, { field := .checksum, value := .bits sum },
      { field := .rawUdp, value := .dump raw }] ++ rest

/-- The transport layer in the inspection. -/
def detailedL4 (v4 : Bool) (protocol : Byte) (p : Nat) (l4Length : Int) : Scan (List Item) :=
  if protocol = protoTcp then detailedTcp v4 p l4Length
  else if protocol = protoUdp then detailedUdp v4 p l4Length
  else return []

/-- The names of protocols in the inspection. -/
def detailedProtocol (icmp : Byte) (icmpName : String) (protocol : Byte) : String :=
  if protocol = protoTcp then "TCP" else if protocol = protoUdp then "UDP"
  else if protocol = icmp then icmpName else "Unknown"

/-- IPv4 in the inspection. -/
def detailedIp (ip : Nat) : Scan (List Item) := do
  let version ← highNibble ip
  let ihl ← lowNibble ip
  let tos ← load (ip + 1)
  let totLen ← net16 (ip + 2)
  let id ← net16 (ip + 4)
  let fragOff ← net16 (ip + 6)
  let ttl ← load (ip + 8)
  let protocol ← load (ip + 9)
  let check ← net16 (ip + 10)
  let srcIp ← inetNtop (ip + 12) 4
  let dstIp ← inetNtop (ip + 16) 4
  let raw ← printHexDump ip (ihl * 4 : Nat)
  let rest ← detailedL4 true protocol (ip + ihl * 4) ((totLen.toNat : Int) - (ihl * 4 : Nat))
  return [{ field := .ipVersion, value := .num version },
      { field := .ipHeaderLength, value := .num (ihl * 4 : Nat) },
      { field := .typeOfService, value := .bits tos },
      { field := .totalLength, value := .bits totLen },
      { field := .identification, value := .bits id }] ++ detailedIpFlags fragOff ++
    [{ field := .ttl, value := .bits ttl },
      { field := .protocol, value := .bits protocol,
        name := detailedProtocol protoIcmp "ICMP" protocol },
      { field := .headerChecksum, value := .bits check }, { field := .srcIp, value := srcIp },
      { field := .dstIp, value := dstIp }, { field := .rawIp, value := .dump raw }] ++ rest

/-- IPv6 in the inspection. -/
def detailedIp6 (ip6 : Nat) : Scan (List Item) := do
  let vtcFlow ← net32 ip6
  let plen ← net16 (ip6 + 4)
  let nxt ← load (ip6 + 6)
  let hlim ← load (ip6 + 7)
  let srcIp ← inetNtop (ip6 + 8) 16
  let dstIp ← inetNtop (ip6 + 24) 16
  let raw ← printHexDump ip6 40
  let rest ← detailedL4 false nxt (ip6 + ip6Len) plen.toNat
  return [{ field := .ipVersion, value := .num 6 },
      { field := .trafficClass, value := .bits (trafficClass vtcFlow) },
      { field := .flowLabel, value := .bits (flowLabel vtcFlow) },
      { field := .ip6PayloadLength, value := .bits plen },
      { field := .nextHeader, value := .bits nxt,
        name := detailedProtocol protoIcmpv6 "ICMPv6" nxt },
      { field := .hopLimit, value := .bits hlim }, { field := .srcIp, value := srcIp },
      { field := .dstIp, value := dstIp }, { field := .rawIp, value := .dump raw }] ++ rest

/-- ARP in the inspection. -/
def detailedArp (arp : Nat) : Scan (List Item) := do
  let hrd ← net16 arp
  let pro ← net16 (arp + 2)
  let hln ← load (arp + 4)
  let pln ← load (arp + 5)
  let op ← net16 (arp + 6)
  let senderMac ← printMacAddress (arp + 8)
  let senderIp ← inetNtop (arp + 14) 4
  let targetIp ← inetNtop (arp + 24) 4
  let targetMac ← printMacAddress (arp + 18)
  let raw ← printHexDump arp 28
  return [{ field := .hwType, value := .bits hrd }, { field := .protoType, value := .bits pro },
    { field := .hwLen, value := .bits hln }, { field := .protoLen, value := .bits pln },
    { field := .operation, value := .bits op, name := arpName op },
    { field := .senderMac, value := senderMac },
    { field := .senderIp, value := senderIp }, { field := .targetMac, value := targetMac },
    { field := .targetIp, value := targetIp }, { field := .rawArp, value := .dump raw }]

/-- The network layer in the inspection, with what is above it. -/
def detailedL3 (ethType : BitVec 16) : Scan (List Item) :=
  if ethType = etherTypeIp then detailedIp etherLen
  else if ethType = etherTypeIpv6 then detailedIp6 etherLen
  else if ethType = etherTypeArp then detailedArp etherLen
  else return []

/-- **The inspection**: what `inspect_packet_detailed` prints of the frame that it has found. -/
def detailedView (packetId : Int) (header : PktHdr) : Scan (List Item) := do
  let dhost ← printMacAddress 0
  let shost ← printMacAddress 6
  let ethType ← net16 12
  -- The header again, as bytes.
  let rawEther ← printHexDump 0 14
  let ether : List Item :=
    [{ field := .packetId, value := .num packetId },
      { field := .timestamp, value := .time header.tvSec header.tvUsec },
      { field := .capturedLength, value := .num header.caplen.toInt },
      { field := .originalLength, value := .num header.len.toInt },
      { field := .dstMac, value := dhost }, { field := .srcMac, value := shost },
      { field := .etherType, value := .bits ethType, name := etherName ethType },
      { field := .rawEthernet, value := .dump rawEther }]
  let l3 ← detailedL3 ethType
  -- The whole frame, as far as it was captured.
  let complete ← printHexDump 0 header.caplen.toInt
  return ether ++ l3 ++ [{ field := .completeDump, value := .dump complete }]

/-! ## Storage -/

/-- `MAX_PACKETS`. -/
abbrev maxPackets : Nat := 10000

/-- `stored_packet_t`; the data is the block that was allocated for it. -/
structure StoredPacket where
  header : PktHdr
  packetData : Option (List Byte)
  packetId : BitVec 32

/-- What `packet_handler` has printed of a frame. -/
structure Announcement where
  id : BitVec 32
  header : PktHdr
  packet : Nat → Byte
  items : List Item

/-- **The state** of the program: the static counter of `packet_handler`, the storage, the
flag that the signal handler sets, and the frames that were announced so far. The counter
is an `int`; it wraps. -/
structure Shark where
  packetId : BitVec 32 := 0
  packetStorage : Nat → StoredPacket
  storedPacketCount : Nat := 0
  stopSniffing : Bool := false
  announced : List Announcement := []

/-- The state at the start of the program, with its static variables zero. -/
def Shark.init : Shark where
  packetStorage _ :=
    { header := { tvSec := 0, tvUsec := 0, caplen := 0, len := 0 }, packetData := none,
      packetId := 0 }

/-- The packets that are stored. -/
def Shark.stored (s : Shark) :
    List StoredPacket := (List.range s.storedPacketCount).map s.packetStorage

def clearPacketStorage (s : Shark) : Shark :=
  { s with
    -- `free` and a null pointer, for the entries in use.
    packetStorage := fun i =>
      if i < s.storedPacketCount then { s.packetStorage i with packetData := none }
        else s.packetStorage i
    storedPacketCount := 0 }

/-- `store_packet`; `malloc` says whether there is memory for the copy. -/
def storePacket (header : PktHdr) (packet : Nat → Byte) (packetId : BitVec 32) (malloc : Bool)
    (s : Shark) : Shark :=
  -- A full storage drops the frame without a word.
  if maxPackets ≤ s.storedPacketCount then s
  else
    let slot := { s.packetStorage s.storedPacketCount with header := header }
    if malloc then
      { s with
        packetStorage := Function.update s.packetStorage s.storedPacketCount
          { slot with
            packetData := some (cells packet 0 header.caplen.toNat)
            packetId := packetId }
        storedPacketCount := s.storedPacketCount + 1 }
    else
      { s with
        packetStorage := Function.update s.packetStorage s.storedPacketCount
          { slot with packetData := none } }

/-- `packet_handler`, with what it prints. -/
def packetHandler (header : PktHdr) (packet : Nat → Byte) (malloc : Bool) (s : Shark) : Shark :=
  if s.stopSniffing then s
  else
    -- The counter goes up also when the frame is not stored.
    let packetId := s.packetId + 1
    let s := storePacket header packet packetId malloc { s with packetId := packetId }
    { s with announced := s.announced ++
        [{ id := packetId, header, packet, items := (liveView packetId.toInt header).value packet }]
        }

/-- The memory at a block, with what is behind it. -/
def memoryAt (data : List Byte) (behind : Nat → Byte) : Nat → Byte := fun i =>
    data[i]?.getD (behind i)

/-- The packet that `inspect_packet_detailed` finds. -/
def findPacket (packetId : BitVec 32) (s : Shark) : Option StoredPacket :=
  s.stored.find? fun sp => sp.packetId = packetId

/-- `inspect_packet_detailed`, with what is behind the block in memory; nothing when
there is no such packet. -/
def inspectPacketDetailed (packetId : BitVec 32) (behind : Nat → Byte) (s : Shark) :
    Option (List Item) :=
  (findPacket packetId s).map fun sp =>
    (detailedView sp.packetId.toInt sp.header).value (memoryAt (sp.packetData.getD []) behind)

/-! ## Sessions -/

/-- A frame that comes in, and whether there is memory to store it. -/
structure Arrival where
  header : PktHdr
  packet : Nat → Byte
  malloc : Bool

/-- What happens during a session: a frame comes in, or the user stops it. -/
inductive Delivery
  | frame (a : Arrival)
  | sigint

def deliver (s : Shark) : Delivery → Shark
  | .frame a => packetHandler a.header a.packet a.malloc s
  | .sigint => { s with stopSniffing := true }

/-- `start_sniffing_all` and `start_sniffing_filtered`, up to the capture loop. -/
def startSniffing (s : Shark) : Shark := { clearPacketStorage s with stopSniffing := false }

/-- A session. -/
def session (s : Shark) (ds : List Delivery) : Shark := ds.foldl deliver (startSniffing s)

/-- **A run of the program**: its sessions, one after the other. -/
def sessions (s : Shark) (ss : List (List Delivery)) : Shark := ss.foldl session s

end CShark
