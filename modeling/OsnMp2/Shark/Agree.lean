import OsnMp2.Shark.Bounds
import OsnMp2.Shark.Encode
import OsnMp2.Shark.Storage

/-!
# The live view and the inspection agree

The two views are written independently of each other. On one memory, each item of the live view
has its counterpart in the inspection, and no field is shown twice there; so the values of the
fields that both show are the same. The inspection reads a copy, and stays inside it when the frame
was captured as a whole.

## Main definitions

* `Item.Fits`: two items show the same of a field
* `Agrees`: the views agree

## Main results

* `agrees_views`: on one memory
* `inspection_agrees`: for every frame that is stored, after any sessions
-/

namespace CShark

open Reads

/-! ## Agreement of two lists of items -/

/-- Two items are of one field and show the same value; of the payload, the second may show more. -/
def Item.Fits (i j : Item) : Prop :=
  i.field = j.field ∧
    (i.value = j.value ∨ i.field = .payload ∧ ∃ rows rows', i.value = .dump rows ∧
     j.value = .dump rows' ∧
      rows.flatMap Row.hex <+: rows'.flatMap Row.hex)

/-- **The views agree**: of every field that both show they show the same, and all
fields of the live view are inspected, except for the port of the application and,
without IPv4, the application. -/
structure Agrees (v4 : Prop) (live shown : List Item) : Prop where
  same : ∀ i ∈ live, ∀ j ∈ shown, i.field = j.field → i.Fits j
  inspected : ∀ i ∈ live, i.field ≠ .applicationPort → (i.field = .application → v4) →
    ∃ j ∈ shown, i.field = j.field

variable {v4 : Prop} {live live' shown shown' : List Item}

/-- Every item of the live view has its counterpart, unless it is not to be inspected. -/
def Covered (v4 : Prop) (live shown : List Item) : Prop :=
  ∀ i ∈ live, i.field = .applicationPort ∨ (i.field = .application ∧ ¬ v4) ∨ ∃ j ∈ shown, i.Fits j

theorem Covered.append (h : Covered v4 live shown) (h' : Covered v4 live' shown') :
    Covered v4 (live ++ live') (shown ++ shown') := by
  intro i hi
  rcases List.mem_append.mp hi with hi | hi
  · exact (h i hi).imp_right fun h => h.imp_right fun ⟨j, hj, hfit⟩ =>
      ⟨j, List.mem_append_left _ hj, hfit⟩
  · exact (h' i hi).imp_right fun h => h.imp_right fun ⟨j, hj, hfit⟩ =>
      ⟨j, List.mem_append_right _ hj, hfit⟩

theorem Covered.mono (h : Covered v4 live shown) (hsub : ∀ j ∈ shown, j ∈ shown') :
    Covered v4 live shown' :=
  fun i hi => (h i hi).imp_right fun h => h.imp_right fun ⟨j, hj, hfit⟩ => ⟨j, hsub j hj, hfit⟩

theorem covered_nil : Covered v4 [] shown := fun _ hi => absurd hi List.not_mem_nil

/-- The item without the name that stands beside it. -/
def Item.bare (i : Item) : Field × Value := (i.field, i.value)

/-- Items that are shown as they are. -/
theorem covered_of_bare (h : live.map Item.bare ⊆ shown.map Item.bare) : Covered v4 live shown := by
  intro i hi
  obtain ⟨j, hj, heq⟩ := List.mem_map.mp (h (List.mem_map_of_mem hi))
  obtain ⟨hfield, hvalue⟩ := Prod.mk.inj heq
  exact Or.inr (Or.inr ⟨j, hj, hfield.symm, Or.inl hvalue.symm⟩)

/-- **Agreement**, from counterparts: a field is inspected once. -/
theorem agrees_of_covered (h : Covered v4 live shown) (hnodup : (shown.map Item.field).Nodup)
    (hport : .applicationPort ∉ shown.map Item.field)
    (happ : ¬ v4 → .application ∉ shown.map Item.field) : Agrees v4 live shown where
  same i hi j hj hfield := by
    rcases h i hi with hi' | ⟨hi', hv4⟩ | ⟨j', hj', hfit⟩
    · exact absurd (List.mem_map.mpr ⟨j, hj, hfield.symm.trans hi'⟩) hport
    · exact absurd (List.mem_map.mpr ⟨j, hj, hfield.symm.trans hi'⟩) (happ hv4)
    · have heq : j' = j := List.inj_on_of_nodup_map hnodup hj' hj (hfit.1.symm.trans hfield)
      rw [← heq]
      exact hfit
  inspected i hi hne hv4 := by
    rcases h i hi with hi' | ⟨hi', hn⟩ | ⟨j, hj, hfit⟩
    · exact absurd hi' hne
    · exact absurd (hv4 hi') hn
    · exact ⟨j, hj, hfit.1⟩

/-! ## The layers -/

variable {m : Nat → Byte} {p : Nat} {l4Length : Int}

theorem prefix_cells {k n : Nat} (h : k ≤ n) : cells m p k <+: cells m p n := by
  have := take_cells (m := m) (n := n) p k
  rw [Nat.min_eq_left h] at this
  rw [← this]
  exact List.take_prefix _ _

/-- The payload: the inspection shows all of it. -/
theorem covered_payload (name : String) (port : BitVec 16) (payloadLen : Int) (app : Bool)
    (hv4 : v4 → app = true) : Covered v4 ((livePayload name port p payloadLen).value m)
      ((detailedPayload (if app then some name else none) p payloadLen).value m) := by
  unfold livePayload detailedPayload
  by_cases hlen : 0 < payloadLen
  · rw [if_pos hlen, if_pos hlen]
    simp only [value_bind, value_printHexDump, value_pure]
    intro i hi
    simp only [List.mem_cons, List.not_mem_nil, or_false] at hi
    rcases hi with rfl | rfl | rfl | rfl
    · by_cases happ : app = true
      · rw [if_pos happ]
        exact Or.inr (Or.inr ⟨_, by simp, rfl, Or.inl rfl⟩)
      · exact Or.inr (Or.inl ⟨rfl, fun h => happ (hv4 h)⟩)
    · exact Or.inl rfl
    · exact Or.inr (Or.inr ⟨_, List.mem_cons_self, rfl, Or.inl rfl⟩)
    · refine Or.inr (Or.inr ⟨_, List.mem_cons_of_mem _
        (List.mem_append_right _ (List.mem_singleton_self _)), rfl,
        Or.inr ⟨rfl, _, _, rfl, rfl, ?_⟩⟩)
      rw [hexRows_bytes, hexRows_bytes]
      apply prefix_cells
      split <;> omega
  · rw [if_neg hlen, if_neg hlen]
    exact covered_nil

theorem covered_tcp (app : Bool) (hv4 : v4 → app = true) :
    Covered v4 ((liveTcp p l4Length).value m) ((detailedTcp app p l4Length).value m) := by
  unfold liveTcp detailedTcp
  simp only [value_bind, value_net16, value_net32, value_load, value_highNibble, value_pure]
  refine Covered.append (covered_of_bare ?_) (covered_payload _ _ _ app hv4)
  simp [Item.bare, printTcpFlags]

theorem covered_udp (app : Bool) (hv4 : v4 → app = true) :
    Covered v4 ((liveUdp p l4Length).value m) ((detailedUdp app p l4Length).value m) := by
  unfold liveUdp detailedUdp
  simp only [value_bind, value_net16, value_pure]
  refine Covered.append (covered_of_bare ?_) (covered_payload _ _ _ app hv4)
  simp [Item.bare]

/-- **The transport layer**: the two branches of the inspection show what the one of the live view
does. -/
theorem covered_l4 (app : Bool) (hv4 : v4 → app = true) (protocol : Byte) :
    Covered v4 ((liveL4 { protocol := protocol, packet := some p, length := l4Length }).value m)
      ((detailedL4 app protocol p l4Length).value m) := by
  unfold liveL4 detailedL4
  dsimp only
  split
  · exact covered_tcp app hv4
  · split
    · exact covered_udp app hv4
    · exact covered_nil

/-- The flags of IPv4 are the same in both byte orders. -/
theorem detailedIpFlags_eq (b₀ b₁ : Byte) :
    detailedIpFlags (b₀ ++ b₁) = printIpFlags (b₁ ++ b₀) := by
  unfold detailedIpFlags printIpFlags
  simp only [and_htons_ne_zero, ntohs_append]

/-- **IPv4**, with what is above it. -/
theorem covered_ip :
    Covered v4 (((liveIp p).value m).1 ++ (liveL4 ((liveIp p).value m).2).value m)
    ((detailedIp p).value m) := by
  unfold liveIp detailedIp
  simp only [value_bind, value_net16, value_load16, value_load, value_lowNibble, value_highNibble,
    value_inetNtop, value_printHexDump, value_pure, detailedIpFlags_eq]
  refine Covered.append (covered_of_bare ?_) (covered_l4 true (fun _ => rfl) _)
  simp [Item.bare, printIpFlags]

/-- **IPv6**, with what is above it. -/
theorem covered_ip6 (hv4 : ¬ v4) :
    Covered v4 (((liveIp6 p).value m).1 ++ (liveL4 ((liveIp6 p).value m).2).value m)
    ((detailedIp6 p).value m) := by
  unfold liveIp6 detailedIp6
  simp only [value_bind, value_net16, value_net32, value_load, value_inetNtop, value_printHexDump,
    value_pure]
  refine Covered.append (covered_of_bare ?_) (covered_l4 false (fun h => absurd h hv4) _)
  simp [Item.bare]

theorem covered_arp : Covered v4 ((liveArp p).value m) ((detailedArp p).value m) := by
  unfold liveArp detailedArp
  simp only [value_bind, value_net16, value_load, value_inetNtop, value_printMacAddress,
    value_printHexDump, value_pure]
  apply covered_of_bare
  simp [Item.bare]

/-! ## The fields of the inspection -/

/-- The fields of the transport layer and what is above it: for TCP and UDP, with and without a
payload. -/
def l4Fields (app : Bool) : List (List Field) :=
  let application : List Field := if app then [.application] else []
  let urgent : List Field := if app then [.urgentPointer] else []
  let tcp : List Field := ([.srcPort, .dstPort, .seq, .ack, .tcpHeaderLength, .tcpFlags, .window,
    .checksum] : List Field) ++ urgent ++ [Field.rawTcp]
  let udp : List Field := [.srcPort, .dstPort, .udpLength, .checksum, .rawUdp]
  let payload : List Field := .payloadLength :: (application ++ [Field.payload])
  [[], tcp, tcp ++ payload, udp, udp ++ payload]

theorem fields_detailedPayload (app : Bool) (name : String) (payloadLen : Int) :
    ((detailedPayload (if app then some name else none) p payloadLen).value m).map Item.field =
      if 0 < payloadLen then .payloadLength :: ((if app then [.application] else []) ++ [.payload])
        else [] := by
  unfold detailedPayload
  split
  · cases app with
    | true => simp
    | false => simp
  · rfl

theorem fields_detailedL4 (app : Bool) (protocol : Byte) :
    ((detailedL4 app protocol p l4Length).value m).map Item.field ∈ l4Fields app := by
  unfold detailedL4
  split
  · unfold detailedTcp detailedUrgent
    simp only [value_bind, value_ite, value_pure, List.map_append, fields_detailedPayload]
    cases app with
    | true =>
      simp only [reduceIte]
      split
      · simp [l4Fields]
      · simp [l4Fields]
    | false =>
      simp only [Bool.false_eq_true, reduceIte]
      split
      · simp [l4Fields]
      · simp [l4Fields]
  · split
    · unfold detailedUdp
      simp only [value_bind, value_pure, List.map_append, fields_detailedPayload]
      cases app with
      | true =>
        simp only [reduceIte]
        split
        · simp [l4Fields]
        · simp [l4Fields]
      | false =>
        simp only [Bool.false_eq_true, reduceIte]
        split
        · simp [l4Fields]
        · simp [l4Fields]
    · simp [l4Fields]

/-- The fields of the inspection. -/
def detailedFields (l3 : List Field) : List Field :=
  ([.packetId, .timestamp, .capturedLength, .originalLength, .dstMac, .srcMac, .etherType,
    .rawEthernet] : List Field) ++ l3 ++ [Field.completeDump]

def ipFields : List Field :=
  [.ipVersion, .ipHeaderLength, .typeOfService, .totalLength, .identification, .ipFlags,
    .fragmentOffset, .ttl, .protocol, .headerChecksum, .srcIp, .dstIp, .rawIp]

def ip6Fields : List Field :=
  [.ipVersion, .trafficClass, .flowLabel, .ip6PayloadLength, .nextHeader, .hopLimit, .srcIp,
    .dstIp, .rawIp]

/-- **No field is inspected twice**, and the port of the application not at all. -/
theorem fields_distinct :
    (∀ l ∈ l4Fields true, (detailedFields (ipFields ++ l)).Nodup ∧ .applicationPort ∉
      detailedFields (ipFields ++ l)) ∧
    ∀ l ∈ l4Fields false, (detailedFields (ip6Fields ++ l)).Nodup ∧
      .applicationPort ∉ detailedFields (ip6Fields ++ l) ∧ .application ∉
      detailedFields (ip6Fields ++ l) := by
  decide

theorem fields_detailedIp :
    ∃ l ∈ l4Fields true, ((detailedIp p).value m).map Item.field = ipFields ++ l := by
  unfold detailedIp
  simp only [value_bind, value_pure, List.map_append]
  exact ⟨_, fields_detailedL4 true _, rfl⟩

theorem fields_detailedIp6 :
    ∃ l ∈ l4Fields false, ((detailedIp6 p).value m).map Item.field = ip6Fields ++ l := by
  unfold detailedIp6
  simp only [value_bind, value_pure, List.map_append]
  exact ⟨_, fields_detailedL4 false _, rfl⟩

theorem fields_detailedView (packetId : Int) (header : PktHdr) :
    ((detailedView packetId header).value m).map Item.field =
      detailedFields (((detailedL3 (m 12 ++ m 13)).value m).map Item.field) := by
  unfold detailedView
  simp only [value_bind, value_net16, value_pure, List.map_append]
  rfl

/-- **The network layer**, with what is above it. -/
theorem covered_l3 (ethType : BitVec 16) :
    Covered (ethType = etherTypeIp)
      (((liveL3 ethType).value m).1 ++ (liveL4 ((liveL3 ethType).value m).2).value m)
      ((detailedL3 ethType).value m) := by
  unfold liveL3 detailedL3
  by_cases hip : ethType = etherTypeIp
  · simp only [if_pos hip]
    exact covered_ip
  · simp only [if_neg hip]
    by_cases hip6 : ethType = etherTypeIpv6
    · simp only [if_pos hip6]
      exact covered_ip6 hip
    · simp only [if_neg hip6]
      by_cases harp : ethType = etherTypeArp
      · simp only [if_pos harp, value_bind, value_pure]
        -- there is no transport layer
        have harp' : Covered (ethType = etherTypeIp) ((liveArp etherLen).value m ++ [])
            ((detailedArp etherLen).value m ++ []) := covered_arp.append covered_nil
        rw [List.append_nil ((detailedArp etherLen).value m)] at harp'
        exact harp'
      · simp only [if_neg harp, value_pure]
        exact covered_nil

/-- **The views agree**, on one memory. -/
theorem agrees_views (packetId : Int) (header : PktHdr) :
    Agrees (m 12 ++ m 13 = etherTypeIp) ((liveView packetId header).value m)
      ((detailedView packetId header).value m) := by
  have hfields := fields_detailedView (m := m) packetId header
  have hcovered : Covered (m 12 ++ m 13 = etherTypeIp) ((liveView packetId header).value m)
      ((detailedView packetId header).value m) := by
    unfold liveView detailedView
    simp only [value_bind, value_net16, value_printMacAddress, value_printHexDump, value_pure]
    rw [List.append_assoc, List.append_assoc]
    refine Covered.append (covered_of_bare (by simp [Item.bare]))
      ((covered_l3 _).mono fun j hj => ?_)
    exact List.mem_append_left _ hj
  obtain ⟨hdist, hdist6⟩ := fields_distinct
  unfold detailedL3 at hfields
  by_cases hip : m 12 ++ m 13 = etherTypeIp
  · rw [if_pos hip] at hfields
    obtain ⟨l, hl, heq⟩ := fields_detailedIp (p := etherLen) (m := m)
    rw [heq] at hfields
    obtain ⟨hnodup, hport⟩ := hdist l hl
    rw [← hfields] at hnodup hport
    exact agrees_of_covered hcovered hnodup hport fun hn => absurd hip hn
  · rw [if_neg hip] at hfields
    split at hfields
    · obtain ⟨l, hl, heq⟩ := fields_detailedIp6 (p := etherLen) (m := m)
      rw [heq] at hfields
      obtain ⟨hnodup, hport, happ⟩ := hdist6 l hl
      rw [← hfields] at hnodup hport happ
      exact agrees_of_covered hcovered hnodup hport fun _ => happ
    · split at hfields
      · apply agrees_of_covered hcovered
        · rw [hfields]
          simp [detailedArp, detailedFields]
        · rw [hfields]
          simp [detailedArp, detailedFields]
        · intro _
          rw [hfields]
          simp [detailedArp, detailedFields]
      · apply agrees_of_covered hcovered
        · rw [hfields]
          simp [detailedFields]
        · rw [hfields]
          simp [detailedFields]
        · intro _
          rw [hfields]
          simp [detailedFields]

/-! ## Stored frames -/

/-- The frame that was announced is stored. -/
def Announcement.IsStored (x : Announcement) (s : Shark) : Prop :=
  ∃ sp ∈ s.stored, sp.packetId = x.id ∧ sp.header = x.header ∧
    sp.packetData = some (cells x.packet 0 x.header.caplen.toNat)

/-- The inspection of a copy, when the frame was captured as a whole. -/
theorem value_detailedView_copy {packetId : Int} {header : PktHdr} {packet : Nat → Byte}
    (hcaptured : extent packet ≤ header.caplen.toNat) (behind : Nat → Byte) :
    (detailedView packetId header).value (memoryAt (cells packet 0 header.caplen.toNat) behind) =
      (detailedView packetId header).value packet := by
  have hwithin := (within_detailedView packetId header).mpr hcaptured
  refine (hwithin.agree fun i hi => ?_).1
  rw [memoryAt, getElem?_cells hi, Nat.zero_add]
  rfl

theorem items_of_mem {as : List Arrival} {x : Announcement} (hx : x ∈ announcements as) :
    x.items = (liveView x.id.toInt x.header).value x.packet := by
  obtain ⟨p, -, rfl⟩ := List.mem_map.mp hx
  rfl

/-- **The live view and the inspection agree**: after any sessions in which fewer frames were
handled than an `int` can number, for every frame that was announced, was captured as a whole and is
stored, the inspection of its id shows what the live view has shown. -/
theorem inspection_agrees (ss : List (List Delivery)) (hn : (ss.flatMap arrivals).length < 2 ^ 31)
    {x : Announcement} (hx : x ∈ (sessions Shark.init ss).announced)
    (hcaptured : extent x.packet ≤ x.header.caplen.toNat)
    (hstored : x.IsStored (sessions Shark.init ss)) (behind : Nat → Byte) :
    ∃ shown, inspectPacketDetailed x.id behind (sessions Shark.init ss) = some shown ∧
      Agrees (x.packet 12 ++ x.packet 13 = etherTypeIp) x.items shown := by
  have h := described_sessions ss
  obtain ⟨sp₀, hsp₀, hid₀, -⟩ := hstored
  have hsome : (findPacket x.id (sessions Shark.init ss)).isSome := by
    unfold findPacket
    rw [List.find?_isSome]
    exact ⟨sp₀, hsp₀, by simpa using hid₀⟩
  obtain ⟨sp, hfind⟩ := Option.isSome_iff_exists.mp hsome
  rw [← flatMap_dropLast ss] at hn
  obtain ⟨hpid, hheader, hdata⟩ := h.inspected hn hfind hx rfl
  have hitems := items_of_mem (h.announced ▸ hx)
  refine ⟨_, by rw [inspectPacketDetailed, hfind]; rfl, ?_⟩
  dsimp only
  rw [hpid, hheader, hdata, Option.getD_some, value_detailedView_copy hcaptured, hitems]
  exact agrees_views _ _

/-- The capture of the sample frame. -/
def sampleArrival : Arrival where
  header := { tvSec := 0, tvUsec := 0, caplen := 67, len := 67 }
  packet := memoryAt sampleFrame.encode fun _ => 0
  malloc := true

/-- Two sessions; in the second one the sample frame comes in between two others. -/
def sampleSessions : List (List Delivery) :=
  [[.frame (plainFrame 0 true)], [.frame (plainFrame 1 true), .frame sampleArrival,
    .frame (plainFrame 1 false)]]

/-- What was announced of it. -/
def sampleAnnouncement : Announcement where
  id := 3
  header := sampleArrival.header
  packet := sampleArrival.packet
  items := (liveView 3 sampleArrival.header).value sampleArrival.packet

/-- A TCP segment with a payload is handled in a second session, and inspected. -/
theorem inspection_agrees_segment :
    ∃ shown, inspectPacketDetailed 3 (fun _ => 0) (sessions Shark.init sampleSessions) =
    some shown ∧
      Agrees (sampleArrival.packet 12 ++ sampleArrival.packet 13 = etherTypeIp)
      sampleAnnouncement.items shown := by
  have hx : sampleAnnouncement ∈ (sessions Shark.init sampleSessions).announced := by
    rw [(described_sessions _).announced]
    exact List.mem_cons_of_mem _ (List.mem_cons_of_mem _ (List.mem_cons_self ..))
  refine inspection_agrees _ (by decide) hx (by decide +kernel) ⟨entryOf sampleArrival 3, ?_,
    rfl, rfl, rfl⟩ _
  rw [(described_sessions _).stored]
  exact List.mem_cons_of_mem _ (List.mem_cons_self ..)

/-- One frame of zeros is stored, the next ones fill the counter until it starts again, and a frame
of ones is stored under the same id. -/
def wrapSession : List Delivery :=
  .frame (plainFrame 0 true) ::
    (List.replicate (2 ^ 32 - 1) (Delivery.frame (plainFrame 0 false)) ++
      [Delivery.frame (plainFrame 1 true)])

theorem arrivals_wrapSession : arrivals wrapSession =
    plainFrame 0 true :: List.replicate (2 ^ 32 - 1) (plainFrame 0 false) ++
    [plainFrame 1 true] := by
  rw [wrapSession, arrivals, arrivals_replicate, arrivals, arrivals, List.cons_append]

/-- What is stored of the session: the ids of the two packets are the same. -/
theorem kept_wrapSession : kept 0 (arrivals wrapSession) =
    [entryOf (plainFrame 0 true) 1, entryOf (plainFrame 1 true) (2 ^ 32 + 1)] := by
  have hnone : ∀ n k, ((List.replicate n (plainFrame 0 false)).zipIdx k).filter
    (fun p => p.1.malloc) = [] := by
    intro n k
    rw [List.filter_eq_nil_iff]
    intro p hp
    rw [List.eq_of_mem_replicate (List.fst_mem_of_mem_zipIdx hp)]
    exact Bool.false_ne_true
  rw [arrivals_wrapSession, kept, List.cons_append, List.zipIdx_cons, List.zipIdx_append,
    List.length_replicate,
    List.filter_cons_of_pos rfl, List.filter_append, hnone, List.nil_append, List.zipIdx_singleton,
    List.filter_cons_of_pos rfl, List.filter_nil, List.map_cons, List.map_singleton,
    List.take_of_length_le (show 2 ≤ maxPackets by decide), show 0 + 1 + 1 + (2 ^ 32 - 1) =
    2 ^ 32 + 1 by omega]

/-- **A counter that has run over**: the inspection of the id of the last frame shows another
one. -/
theorem inspection_disagrees : ¬ ∀ (ss : List (List Delivery)),
  ∀ x ∈ (sessions Shark.init ss).announced,
    extent x.packet ≤ x.header.caplen.toNat → x.IsStored (sessions Shark.init ss) → ∀ behind,
      ∃ shown, inspectPacketDetailed x.id behind (sessions Shark.init ss) = some shown ∧
        Agrees (x.packet 12 ++ x.packet 13 = etherTypeIp) x.items shown := by
  intro hall
  have h := described_sessions [wrapSession]
  have hstored : (sessions Shark.init [wrapSession]).stored =
      [entryOf (plainFrame 0 true) 1,
        entryOf (plainFrame 1 true) (2 ^ 32 + 1)] := h.stored.trans kept_wrapSession
  have hannounced : (sessions Shark.init [wrapSession]).announced =
      announcements (arrivals wrapSession) := h.announced
  have hx : ({
      id := BitVec.ofNat 32 (2 ^ 32 + 1)
      header := (plainFrame 1 true).header
      packet := fun _ => 1
      items := (liveView (BitVec.ofNat 32 (2 ^ 32 + 1)).toInt (plainFrame 1 true).header).value
        fun _ => 1 } : Announcement) ∈ (sessions Shark.init [wrapSession]).announced := by
    rw [hannounced, arrivals_wrapSession, announcements_concat, List.length_cons,
      List.length_replicate]
    exact List.mem_append_right _ (List.mem_singleton_self _)
  obtain ⟨shown, hshown, hagrees⟩ := hall [wrapSession] _ hx (by decide +kernel)
    ⟨entryOf (plainFrame 1 true) (2 ^ 32 + 1),
      by rw [hstored]; exact List.mem_cons_of_mem _ (List.mem_singleton_self _),
      rfl, rfl, rfl⟩ fun _ => 0
  -- the first packet with the id is the frame of zeros
  have hfind : findPacket (BitVec.ofNat 32 (2 ^ 32 + 1)) (sessions Shark.init [wrapSession]) =
      some (entryOf (plainFrame 0 true) 1) := by
    rw [findPacket, hstored]
    rfl
  rw [inspectPacketDetailed, hfind] at hshown
  have hmac := hagrees.same { field := .dstMac, value := .addr [1, 1, 1, 1, 1, 1] }
    (by decide +kernel)
    { field := .dstMac, value := .addr [0, 0, 0, 0, 0, 0] }
    (by rw [← Option.some.inj hshown]; decide +kernel) rfl
  rcases hmac.2 with heq | ⟨heq, -⟩
  · exact absurd heq (by decide)
  · exact absurd heq (by decide)

end CShark
