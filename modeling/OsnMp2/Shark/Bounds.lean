import OsnMp2.Shark.Scan

/-!
# Which bytes of a frame are read

None of the views looks at the captured length before it reads. How far a frame reaches, by
what its own headers say, is computed here; the views stay inside the captured bytes
exactly when the frame does.

## Main definitions

* `extent`: how far the frame reaches, by its headers

## Main results

* `within_detailedView`: the bytes that the inspection reads are those of the frame
* `within_liveView`, `within_listLine`: the other views read a part of them
* `reads_captured_iff`: all bytes read are captured exactly when the frame is
-/

namespace CShark

open Reads

variable {m m' : Nat → Byte} {n p : Nat} {l4Length : Int}

/-! ## How far a frame reaches -/

/-- How far the transport header at `p` reaches, with what it carries. Over IPv6 the urgent
pointer of TCP is not shown. -/
def transportExtent (v4 : Bool) (protocol : Byte) (p : Nat) (l4Length : Int)
    (m : Nat → Byte) : Nat :=
  if protocol = protoTcp then
    max (p + if v4 then 20 else 18) (max (p + ((m (p + 12)).extractLsb' 4 4).toNat * 4)
      (p + l4Length.toNat))
  else if protocol = protoUdp then max (p + 8) (p + l4Length.toNat)
  else p

/-- The length of the IPv4 header, in bytes. -/
def ipHeaderLen (m : Nat → Byte) : Nat := ((m 14).extractLsb' 0 4).toNat * 4

/-- **How far the frame reaches**, by its EtherType, the length of its IPv4 header, the length
fields of IP and the data offset of TCP. -/
def extent (m : Nat → Byte) : Nat :=
  if m 12 ++ m 13 = etherTypeIp then
    max 34 (transportExtent true (m 23) (14 + ipHeaderLen m)
      ((m 16 ++ m 17).toNat - ipHeaderLen m) m)
  else if m 12 ++ m 13 = etherTypeIpv6 then
    max 54 (transportExtent false (m 20) 54 (m 18 ++ m 19).toNat m)
  else if m 12 ++ m 13 = etherTypeArp then 42
  else 14

/-! ## The inspection -/

theorem within_detailedPayload (application : Option String) (payloadLen : Int) :
    Within n (detailedPayload application p payloadLen) m ↔ payloadLen ≤ 0 ∨
    p + payloadLen.toNat ≤ n := by
  unfold detailedPayload
  split
  · rw [within_bind, within_printHexDump, within_pure, and_true]
  · next hlen => exact iff_of_true ((within_pure []).mpr trivial) (Or.inl (by omega))

theorem within_detailedUrgent (v4 : Bool) : Within n (detailedUrgent v4 p) m ↔
    (v4 = true → p + 20 ≤ n) := by
  cases v4 with
  | true => simp [detailedUrgent, within_bind, within_net16, within_pure]
  | false => simp [detailedUrgent, within_pure]

theorem within_detailedTcp (v4 : Bool) :
    Within n (detailedTcp v4 p l4Length) m ↔ transportExtent v4 protoTcp p l4Length m ≤ n := by
  unfold detailedTcp transportExtent
  rw [if_pos rfl]
  simp only [within_bind, within_net16, within_net32, within_highNibble, within_load, within_pure,
    and_true, within_printHexDump, within_detailedPayload, within_detailedUrgent, value_highNibble,
    Int.toNat_natCast]
  cases v4 with
  | true =>
    simp only [if_true, forall_const]
    omega
  | false =>
    simp only [Bool.false_eq_true, if_false, false_implies, true_and]
    omega

theorem within_detailedUdp (v4 : Bool) :
    Within n (detailedUdp v4 p l4Length) m ↔ transportExtent v4 protoUdp p l4Length m ≤ n := by
  unfold detailedUdp transportExtent
  rw [if_neg (by decide), if_pos rfl]
  simp only [within_bind, within_net16, within_pure, and_true, within_printHexDump,
    within_detailedPayload]
  omega

/-- **The transport layer** of the inspection. -/
theorem within_detailedL4 (v4 : Bool) (protocol : Byte) (hp : p ≤ n) :
    Within n (detailedL4 v4 protocol p l4Length) m ↔
    transportExtent v4 protocol p l4Length m ≤ n := by
  unfold detailedL4
  split
  · next h => rw [within_detailedTcp, h]
  · split
    · next h => rw [within_detailedUdp, h]
    · next htcp hudp =>
      rw [transportExtent, if_neg htcp, if_neg hudp, within_pure]
      exact iff_of_true trivial hp

theorem le_transportExtent (v4 : Bool) (protocol : Byte) :
    p ≤ transportExtent v4 protocol p l4Length m := by
  unfold transportExtent
  split
  · omega
  · split <;> omega

theorem within_detailedIp : Within n (detailedIp 14) m ↔
    max 34 (transportExtent true (m 23) (14 + ipHeaderLen m) ((m 16 ++ m 17).toNat - ipHeaderLen m)
      m) ≤ n := by
  have hle : 14 + ipHeaderLen m ≤
      transportExtent true (m 23) (14 + ipHeaderLen m) ((m 16 ++ m 17).toNat - ipHeaderLen m) m :=
    le_transportExtent true (m 23)
  have hl4 : 14 + ipHeaderLen m ≤ n →
      (Within n (detailedL4 true (m 23) (14 + ipHeaderLen m) ((m 16 ++ m 17).toNat - ipHeaderLen m))
       m ↔
        transportExtent true (m 23) (14 + ipHeaderLen m) ((m 16 ++ m 17).toNat - ipHeaderLen m)
        m ≤ n) :=
    within_detailedL4 true (m 23)
  unfold detailedIp
  simp only [within_bind, within_net16, within_highNibble, within_lowNibble, within_load,
    within_pure, and_true, within_inetNtop (Nat.zero_lt_succ 3), within_printHexDump,
    value_lowNibble, value_net16, value_load, Int.toNat_natCast]
  unfold ipHeaderLen at *
  by_cases hp : 14 + ((m 14).extractLsb' 0 4).toNat * 4 ≤ n
  · rw [hl4 hp]
    omega
  · omega

theorem within_detailedIp6 : Within n (detailedIp6 14) m ↔
    max 54 (transportExtent false (m 20) 54 (m 18 ++ m 19).toNat m) ≤ n := by
  unfold detailedIp6
  simp only [within_bind, within_net16, within_net32, within_load, within_pure, and_true,
    within_inetNtop (Nat.zero_lt_succ 15), within_printHexDump, value_net16, value_load, ip6Len,
    Nat.reduceAdd]
  by_cases hp : 54 ≤ n
  · rw [within_detailedL4 false (m 20) hp]
    omega
  · omega

theorem within_detailedArp : Within n (detailedArp 14) m ↔ 42 ≤ n := by
  unfold detailedArp
  simp only [within_bind, within_net16, within_load, within_pure, and_true, within_printMacAddress,
    within_inetNtop (Nat.zero_lt_succ 3), within_printHexDump]
  omega

/-- **The inspection** reads the bytes up to where the frame reaches. -/
theorem within_detailedView (packetId : Int) (header : PktHdr) :
    Within header.caplen.toNat (detailedView packetId header) m ↔
    extent m ≤ header.caplen.toNat := by
  have hcap : header.caplen.toInt ≤ 0 ∨ 0 + header.caplen.toInt.toNat ≤ header.caplen.toNat := by
    rw [BitVec.toInt_eq_toNat_cond]
    split <;> omega
  unfold detailedView
  simp only [within_bind, within_net16, within_pure, and_true, within_printMacAddress,
    within_printHexDump, value_net16, hcap]
  unfold detailedL3 extent
  split
  · rw [within_detailedIp]
    omega
  · split
    · rw [within_detailedIp6]
      omega
    · split
      · rw [within_detailedArp]
        omega
      · rw [within_pure, and_true]
        omega

/-! ## The other views -/

theorem within_livePayload (application : String) (port : BitVec 16) {payloadLen : Int}
    (h : p + payloadLen.toNat ≤ n) : Within n (livePayload application port p payloadLen) m := by
  unfold livePayload
  split
  · rw [within_bind, within_printHexDump, within_pure, and_true]
    split <;> omega
  · exact (within_pure []).mpr trivial

/-- **The transport layer** of the live view reads no further. -/
theorem within_liveL4 (v4 : Bool) (protocol : Byte)
    (h : transportExtent v4 protocol p l4Length m ≤ n) :
    Within n (liveL4 { protocol := protocol, packet := some p, length := l4Length }) m := by
  unfold liveL4
  dsimp only
  unfold transportExtent at h
  split at h
  · next htcp =>
    rw [if_pos htcp, liveTcp]
    have h18 : 18 ≤ if v4 then 20 else 18 := by cases v4 <;> decide
    simp only [within_bind, within_net16, within_net32, within_highNibble, within_load,
      within_pure, and_true, value_highNibble]
    refine ⟨by omega, by omega, by omega, by omega, by omega, by omega, by omega, by omega, ?_⟩
    apply within_livePayload
    omega
  · next htcp =>
    rw [if_neg htcp]
    split at h
    · next hudp =>
      rw [if_pos hudp, liveUdp]
      simp only [within_bind, within_net16, within_pure, and_true]
      refine ⟨by omega, by omega, by omega, by omega, ?_⟩
      apply within_livePayload
      omega
    · next hudp =>
      rw [if_neg hudp, within_pure]
      trivial

theorem within_liveView (packetId : Int) (header : PktHdr) (h : extent m ≤ n) :
    Within n (liveView packetId header) m := by
  have h14 : 14 ≤ n := by
    unfold extent at h
    repeat' split at h
    all_goals omega
  unfold liveView
  simp only [within_bind, within_net16, within_pure, and_true, within_printMacAddress, value_net16]
  refine ⟨by omega, by omega, by omega, ?_⟩
  unfold liveL3
  unfold extent at h
  split at h
  · next hip =>
    rw [if_pos hip]
    have hl4 : transportExtent true (m 23) (14 + ipHeaderLen m) ((m 16 ++ m 17).toNat - ipHeaderLen
      m) m ≤ n := by
      omega
    unfold liveIp
    simp only [within_bind, within_net16, within_load16, within_lowNibble, within_load, within_pure,
      and_true, within_inetNtop (Nat.zero_lt_succ 3), value_bind, value_net16, value_load,
      value_lowNibble, value_pure, etherLen]
    refine ⟨by omega, within_liveL4 true _ hl4⟩
  · next hip =>
    rw [if_neg hip]
    split at h
    · next hip6 =>
      rw [if_pos hip6]
      have hl4 : transportExtent false (m 20) 54 (m 18 ++ m 19).toNat m ≤ n := by omega
      unfold liveIp6
      simp only [within_bind, within_net16, within_net32, within_load, within_pure, and_true,
        within_inetNtop (Nat.zero_lt_succ 15), value_bind, value_net16, value_load,
        value_pure, etherLen]
      refine ⟨by omega, within_liveL4 false _ hl4⟩
    · next hip6 =>
      rw [if_neg hip6]
      split at h
      · next harp =>
        rw [if_pos harp]
        unfold liveArp
        simp only [within_bind, within_net16, within_load, within_pure, and_true,
          within_printMacAddress, within_inetNtop (Nat.zero_lt_succ 3), value_bind, value_pure,
          etherLen]
        refine ⟨by omega, ?_⟩
        exact (within_pure []).mpr trivial
      · next harp =>
        rw [if_neg harp, within_pure, true_and]
        exact (within_pure []).mpr trivial

theorem within_listLine (packetId : Int) (header : PktHdr) (h : extent m ≤ n) :
    Within n (listLine packetId header) m := by
  unfold extent at h
  unfold listLine
  simp only [within_bind, within_net16, value_net16]
  split at h
  · next hip =>
    rw [if_pos hip]
    simp only [within_bind, within_load, within_pure, and_true,
      within_inetNtop (Nat.zero_lt_succ 3), etherLen]
    omega
  · next hip =>
    rw [if_neg hip, within_pure, and_true]
    repeat' split at h
    all_goals omega

/-- **All bytes read are captured exactly when the frame is**: for every content of a frame,
every header that the capture gives it and whatever is behind the stored copy, the bytes that
`packet_handler` reads of the frame and that `list_stored_packets` and
`inspect_packet_detailed` read of the copy are captured if and only if the captured bytes reach
to where the headers say that the frame ends. -/
theorem reads_captured_iff (packetId : Int) (header : PktHdr) (packet behind : Nat → Byte) :
    (Within header.caplen.toNat (liveView packetId header) packet ∧
      Within header.caplen.toNat (listLine packetId header)
        (memoryAt (cells packet 0 header.caplen.toNat) behind) ∧
      Within header.caplen.toNat (detailedView packetId header)
        (memoryAt (cells packet 0 header.caplen.toNat) behind)) ↔
    extent packet ≤ header.caplen.toNat := by
  have hagree : ∀ i, i < header.caplen.toNat →
      memoryAt (cells packet 0 header.caplen.toNat) behind i = packet i := by
    intro i hi
    rw [memoryAt, getElem?_cells hi, Nat.zero_add]
    rfl
  constructor
  · rintro ⟨-, -, hview⟩
    -- the inspection of the frame itself reads the same bytes
    obtain ⟨-, htrace⟩ := hview.agree hagree
    rw [← within_detailedView packetId header]
    unfold Within at hview ⊢
    rw [htrace]
    exact hview
  · intro h
    have hview := (within_detailedView packetId header).mpr h
    obtain ⟨-, htrace⟩ := hview.agree fun i hi => (hagree i hi).symm
    have hcopy : extent (memoryAt (cells packet 0 header.caplen.toNat) behind) ≤
      header.caplen.toNat := by
      rw [← within_detailedView packetId header]
      unfold Within at hview ⊢
      rw [htrace]
      exact hview
    exact ⟨within_liveView _ _ h, within_listLine _ _ hcopy, (within_detailedView _ _).mpr hcopy⟩

/-- A frame that was cut behind its Ethernet header, which says IPv4. -/
def shortFrame (i : Nat) : Byte := if i = 12 then 8 else 0

/-- The live view of the short frame reads an address that is not there. -/
theorem short_frame_read_behind :
    ¬ ∀ (packetId : Int) (header : PktHdr) (packet behind : Nat → Byte),
    header.caplen.toNat ≤ 65535 →
    Within header.caplen.toNat (liveView packetId header) packet ∧
      Within header.caplen.toNat (listLine packetId header)
        (memoryAt (cells packet 0 header.caplen.toNat) behind) ∧
      Within header.caplen.toNat (detailedView packetId header)
        (memoryAt (cells packet 0 header.caplen.toNat) behind) := by
  intro h
  have hlive := (h 1 { tvSec := 0, tvUsec := 0, caplen := 14, len := 60 } shortFrame (fun _ => 0)
    (by decide)).1
  have hsrc : 26 < 14 := hlive 26 (by decide +kernel)
  exact absurd hsrc (by decide)

end CShark
