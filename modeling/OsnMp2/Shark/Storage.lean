import OsnMp2.Shark.Scan
import Mathlib.Data.List.Nodup

/-!
# The storage of C-Shark

What is stored is described by the frames that came in: those of the latest session, before it was
stopped, for which there was memory, up to the capacity. The counter of `packet_handler` numbers the
frames of all sessions; it is an `int`, and runs over when there are too many of them.

## Main definitions

* `arrivals`: the frames of a session that are handled
* `kept`: what is stored of them
* `LastSession`: the storage holds the last session, and ids identify frames

## Main results

* `Described.frame`: the storage after one frame
* `described_sessions`: the state after all sessions
* `lastSession_iff`: when the storage is as it should be
-/

namespace CShark

open Reads

/-! ## One frame -/

variable {s : Shark} {a : Arrival}

/-- What is stored of a frame. -/
def entryOf (a : Arrival) (id : Nat) : StoredPacket :=
  { header := a.header, packetData := some (cells a.packet 0 a.header.caplen.toNat),
    packetId := BitVec.ofNat 32 id }

theorem length_stored : s.stored.length = s.storedPacketCount := by simp [Shark.stored]

/-- A slot behind the stored packets does not count. -/
theorem stored_update (f : Nat → StoredPacket) (n : Nat) (sp : StoredPacket) :
    (List.range n).map (Function.update f n sp) = (List.range n).map f := by
  apply List.map_congr_left
  intro i hi
  exact Function.update_of_ne (Nat.ne_of_lt (List.mem_range.mp hi)) _ _

/-- **The storage after a frame**: a copy is added when there is room and memory for it. -/
theorem stored_storePacket (header : PktHdr) (packet : Nat → Byte) (packetId : BitVec 32)
    (malloc : Bool) :
    (storePacket header packet packetId malloc s).stored =
      if malloc = true ∧ s.stored.length < maxPackets then
        s.stored ++ [{
          header := header
          packetData := some (cells packet 0 header.caplen.toNat)
          packetId := packetId }]
      else s.stored := by
  rw [length_stored]
  unfold storePacket
  by_cases hfull : maxPackets ≤ s.storedPacketCount
  · rw [if_pos hfull, if_neg (by omega)]
  · rw [if_neg hfull]
    cases malloc with
    | true =>
      rw [if_pos rfl, if_pos ⟨rfl, by omega⟩]
      unfold Shark.stored
      dsimp only
      rw [List.range_succ, List.map_append, stored_update, List.map_singleton, Function.update_self]
    | false =>
      -- the slot has been overwritten, but it is behind the last one
      rw [if_neg Bool.false_ne_true, if_neg (fun h => Bool.false_ne_true h.1)]
      unfold Shark.stored
      exact stored_update _ _ _

theorem packetId_storePacket (header : PktHdr) (packet : Nat → Byte) (packetId : BitVec 32)
    (malloc : Bool) : (storePacket header packet packetId malloc s).packetId = s.packetId ∧
    (storePacket header packet packetId malloc s).stopSniffing = s.stopSniffing := by
  unfold storePacket
  split
  · exact ⟨rfl, rfl⟩
  · cases malloc with
    | true => exact ⟨rfl, rfl⟩
    | false => exact ⟨rfl, rfl⟩

/-! ## What is to be stored -/

/-- **The frames of a session that are handled**: those before it is stopped. -/
def arrivals : List Delivery → List Arrival
  | [] => []
  | .frame a :: ds => a :: arrivals ds
  | .sigint :: _ => []

/-- **What is stored** of the frames of a session, when the frames before it were numbered up to
`base`: the first of those for which there was memory. -/
def kept (base : Nat) (as : List Arrival) : List StoredPacket :=
  (((as.zipIdx (base + 1)).filter fun p => p.1.malloc).map fun p => entryOf p.1 p.2).take maxPackets

/-- What is announced of the frames, in the order in which they came. -/
def announcements (as : List Arrival) : List Announcement :=
  (as.zipIdx 1).map fun p =>
    { id := BitVec.ofNat 32 p.2, header := p.1.header, packet := p.1.packet
      items := (liveView (BitVec.ofNat 32 p.2).toInt p.1.header).value p.1.packet }

variable {base : Nat} {as before : List Arrival}

/-- **One frame more**. -/
theorem kept_concat : kept base (as ++ [a]) =
    if a.malloc = true ∧ (kept base as).length < maxPackets then kept base as ++
    [entryOf a (base + as.length + 1)]
    else kept base as := by
  unfold kept
  rw [List.zipIdx_append, List.filter_append, List.map_append]
  generalize ((as.zipIdx (base + 1)).filter fun p => p.1.malloc).map (fun p => entryOf p.1 p.2) = l
  rw [List.zipIdx_singleton, show base + 1 + as.length = base + as.length + 1 by omega]
  cases hm : a.malloc with
  | false => simp [hm]
  | true =>
    rw [List.filter_singleton]
    simp only [hm, cond_true, List.map_singleton, List.length_take, true_and]
    by_cases hl : l.length < maxPackets
    · rw [if_pos (by omega), List.take_of_length_le (by simp; omega),
        List.take_of_length_le (by omega)]
    · rw [if_neg (by omega), List.take_append_of_le_length (by omega)]

theorem announcements_concat : announcements (as ++ [a]) = announcements as ++
    [{ id := BitVec.ofNat 32 (as.length + 1), header := a.header, packet := a.packet
       items := (liveView (BitVec.ofNat 32 (as.length + 1)).toInt a.header).value a.packet }] := by
  unfold announcements
  rw [List.zipIdx_append, List.map_append, List.zipIdx_singleton, Nat.add_comm 1]
  rfl

/-! ## Runs -/

/-- **A description of the state**: `before` are the frames of the earlier sessions, and
`as` those of this one. -/
structure Described (before as : List Arrival) (s : Shark) : Prop where
  packetId : s.packetId = BitVec.ofNat 32 (before ++ as).length
  stored : s.stored = kept before.length as
  announced : s.announced = announcements (before ++ as)

/-- **A frame comes in**. -/
theorem Described.frame (h : Described before as s) (hs : s.stopSniffing = false) (a : Arrival) :
    Described before (as ++ [a]) (deliver s (.frame a)) ∧
    (deliver s (.frame a)).stopSniffing = false := by
  have hid : s.packetId + 1 = BitVec.ofNat 32 ((before ++ as).length + 1) := by
    rw [h.packetId, BitVec.ofNat_add]
    rfl
  unfold deliver packetHandler
  dsimp only
  rw [if_neg (by rw [hs]; exact Bool.false_ne_true), hid]
  set s₁ : Shark := { s with packetId := BitVec.ofNat 32 ((before ++ as).length + 1) } with hs₁
  obtain ⟨hpid, hstop⟩ := packetId_storePacket (s := s₁) a.header a.packet
    (BitVec.ofNat 32 ((before ++ as).length + 1)) a.malloc
  refine ⟨⟨?_, ?_, ?_⟩, hstop.trans hs⟩
  · refine hpid.trans ?_
    show BitVec.ofNat 32 ((before ++ as).length + 1) = BitVec.ofNat 32 (before ++
      (as ++ [a])).length
    rw [← List.append_assoc, List.length_append, List.length_append, List.length_append]
    rfl
  · refine (stored_storePacket a.header a.packet _ a.malloc).trans ?_
    have hstored : s₁.stored = kept before.length as := h.stored
    rw [hstored, kept_concat, List.length_append]
    rfl
  · show (storePacket _ _ _ _ s₁).announced ++ _ = _
    rw [announced_storePacket, ← List.append_assoc, announcements_concat]
    exact congrArg (· ++ _) h.announced

/-- A session that was stopped changes nothing. -/
theorem deliver_stopped (ds : List Delivery) : ∀ {s : Shark}, Described before as s →
    s.stopSniffing = true → Described before as (ds.foldl deliver s) := by
  induction ds with
  | nil => exact fun h _ => h
  | cons d ds ih =>
    intro s h hs
    cases d with
    | frame a =>
      have hsame : deliver s (.frame a) = s := by
        rw [deliver, packetHandler, if_pos hs]
      rw [List.foldl_cons, hsame]
      exact ih h hs
    | sigint => exact ih ⟨h.packetId, h.stored, h.announced⟩ rfl

/-- **A whole session**. -/
theorem Described.deliveries (ds : List Delivery) :
    ∀ {as : List Arrival} {s : Shark}, Described before as s →
    s.stopSniffing = false → Described before (as ++ arrivals ds) (ds.foldl deliver s) := by
  induction ds with
  | nil =>
    intro as s h _
    rw [arrivals, List.append_nil]
    exact h
  | cons d ds ih =>
    intro as s h hs
    cases d with
    | frame a =>
      obtain ⟨h', hs'⟩ := h.frame hs a
      rw [arrivals, List.append_cons]
      exact ih h' hs'
    | sigint =>
      rw [arrivals, List.append_nil]
      exact deliver_stopped ds ⟨h.packetId, h.stored, h.announced⟩ rfl

/-- A session starts with an empty storage. -/
theorem Described.start (h : Described before as s) :
    Described (before ++ as) [] (startSniffing s) where
  packetId := by
    rw [List.append_nil]
    exact h.packetId
  stored := rfl
  announced := by
    rw [List.append_nil]
    exact h.announced

theorem Described.session (h : Described before as s) (ds : List Delivery) :
    Described (before ++ as) (arrivals ds) (session s ds) := h.start.deliveries ds rfl

theorem flatMap_dropLast (ss : List (List Delivery)) :
    ss.dropLast.flatMap arrivals ++ arrivals (ss.getLast?.getD []) = ss.flatMap arrivals := by
  rcases List.eq_nil_or_concat ss with rfl | ⟨ss', ds', rfl⟩
  · rfl
  · simp

/-- **All sessions**: the last one is in the storage. -/
theorem described_sessions (ss : List (List Delivery)) :
    Described (ss.dropLast.flatMap arrivals) (arrivals (ss.getLast?.getD []))
    (sessions Shark.init ss) := by
  induction ss using List.reverseRecOn with
  | nil => exact ⟨rfl, rfl, rfl⟩
  | append_singleton ss ds ih =>
    have h := ih.session ds
    rw [flatMap_dropLast] at h
    rw [List.dropLast_concat, List.getLast?_concat, sessions, List.foldl_append]
    exact h

/-! ## The counter -/

theorem toInt_ofNat {k : Nat} (hk : k < 2 ^ 31) : (BitVec.ofNat 32 k).toInt = k := by
  rw [BitVec.toInt_eq_toNat_of_lt]
  · rw [BitVec.toNat_ofNat, Nat.mod_eq_of_lt (by omega)]
  · rw [BitVec.toNat_ofNat, Nat.mod_eq_of_lt (by omega)]
    omega

theorem announcements_ids :
    (announcements as).map Announcement.id = (List.range' 1 as.length).map (BitVec.ofNat 32) := by
  unfold announcements
  rw [List.map_map, ← List.zipIdx_map_snd 1 as, List.map_map]
  rfl

/-- **The counter counts** as long as there are fewer frames than an `int` can number. -/
theorem increasing_iff :
    ((announcements as).Pairwise fun x y => x.id.toInt < y.id.toInt) ↔ as.length < 2 ^ 31 := by
  have hmap : ((announcements as).Pairwise fun x y => x.id.toInt < y.id.toInt) ↔
      (List.range' 1 as.length).Pairwise fun i j =>
      (BitVec.ofNat 32 i).toInt < (BitVec.ofNat 32 j).toInt := by
    rw [← List.pairwise_map (f := BitVec.ofNat 32) (R := fun x y : BitVec 32 => x.toInt < y.toInt),
      ← announcements_ids, List.pairwise_map]
  rw [hmap, List.pairwise_iff_getElem]
  constructor
  · intro h
    by_contra hn
    -- the id after the largest one is the smallest
    have hlast := h (2 ^ 31 - 2) (2 ^ 31 - 1) (by rw [List.length_range']; omega)
      (by rw [List.length_range']; omega) (by decide)
    rw [List.getElem_range', List.getElem_range'] at hlast
    exact absurd hlast (by decide)
  · intro hn i j hi hj hij
    rw [List.length_range'] at hi hj
    rw [List.getElem_range', List.getElem_range', toInt_ofNat (by omega), toInt_ofNat (by omega)]
    omega

/-- An id says which frame it is. -/
theorem announced_unique (hn : as.length < 2 ^ 31) {k : Nat} (hget : as[k]? = some a)
    {x : Announcement} (hx : x ∈ announcements as) (hid : x.id = BitVec.ofNat 32 (k + 1)) :
    x.header = a.header ∧ x.packet = a.packet ∧
      x.items = (liveView (BitVec.ofNat 32 (k + 1)).toInt a.header).value a.packet := by
  obtain ⟨⟨a', k'⟩, hp, rfl⟩ := List.mem_map.mp hx
  have hlt := (List.getElem?_eq_some_iff.mp hget).1
  obtain ⟨hle, hlt', hget'⟩ := List.mem_zipIdx hp
  have hk : k' = k + 1 := by
    have := congrArg BitVec.toNat hid
    simp only [BitVec.toNat_ofNat] at this
    omega
  subst hk
  have ha : a' = a := by
    rw [List.getElem?_eq_getElem hlt] at hget
    rw [hget']
    exact Option.some.inj (by rw [← hget]; congr 1)
  subst ha
  exact ⟨rfl, rfl, rfl⟩

/-! ## The last session -/

/-- **The storage holds the last session**: the frames that were handled in it and for which there
was memory, in their order and unchanged, up to the capacity; all frames handled are announced, with
increasing ids; and what is shown for an id is the frame that was announced with it. -/
structure LastSession (ss : List (List Delivery)) (s : Shark) : Prop where
  stored : (s.stored.map fun sp => (sp.header, sp.packetData)) =
    (((arrivals (ss.getLast?.getD [])).filter Arrival.malloc).take maxPackets).map fun a =>
      (a.header, some (cells a.packet 0 a.header.caplen.toNat))
  announced : (s.announced.map fun x => (x.header, x.packet)) =
    (ss.flatMap arrivals).map fun a => (a.header, a.packet)
  increasing : s.announced.Pairwise fun x y => x.id.toInt < y.id.toInt
  inspected : ∀ id behind items, inspectPacketDetailed id behind s = some items →
    (∃ x ∈ s.announced, x.id = id) ∧
    ∀ x ∈ s.announced, x.id = id →
      items = (detailedView id.toInt x.header).value (memoryAt
        (cells x.packet 0 x.header.caplen.toNat) behind)

theorem map_kept {β : Type} (f : StoredPacket → β) (g : Arrival → β)
    (hfg : ∀ a k, f (entryOf a k) = g a) :
    (kept base as).map f = ((as.filter Arrival.malloc).take maxPackets).map g := by
  unfold kept
  rw [List.map_take, List.map_take, List.map_map]
  congr 1
  conv_rhs => rw [← List.zipIdx_map_fst (base + 1) as, List.filter_map, List.map_map]
  exact List.map_congr_left fun p _ => hfg p.1 p.2

theorem announcements_frames :
    ((announcements as).map fun x => (x.header, x.packet)) = as.map fun a =>
    (a.header, a.packet) := by
  unfold announcements
  conv_rhs => rw [← List.zipIdx_map_fst 1 as, List.map_map]
  rw [List.map_map]
  rfl

/-- A packet that is found is one that was kept. -/
theorem Described.found (h : Described before as s) {id : BitVec 32} {sp : StoredPacket}
    (hfind : findPacket id s = some sp) :
    ∃ a k, (before ++ as)[k]? = some a ∧ sp = entryOf a (k + 1) ∧ id = BitVec.ofNat 32 (k + 1) := by
  have hid : sp.packetId = id := by simpa using List.find?_some hfind
  have hmem := List.mem_of_find?_eq_some hfind
  rw [h.stored] at hmem
  obtain ⟨⟨a, k⟩, hp, rfl⟩ := List.mem_map.mp (List.mem_of_mem_take hmem)
  obtain ⟨hle, hlt, hget⟩ := List.mem_zipIdx (List.mem_filter.mp hp).1
  refine ⟨a, k - 1, ?_, ?_, ?_⟩
  · rw [List.getElem?_append_right (by omega),
      show k - 1 - before.length = k - (before.length + 1) by omega, hget]
    exact List.getElem?_eq_getElem _
  · rw [Nat.sub_add_cancel (by omega)]
  · rw [Nat.sub_add_cancel (by omega), ← hid]
    rfl

/-- The frame that was announced with the id of a stored packet is the stored one. -/
theorem Described.inspected (h : Described before as s) (hn : (before ++ as).length < 2 ^ 31)
    {id : BitVec 32}
    {sp : StoredPacket} (hfind : findPacket id s = some sp) {x : Announcement}
    (hx : x ∈ s.announced) (hid : x.id = id) :
    sp.packetId = id ∧ sp.header = x.header ∧ sp.packetData = some
    (cells x.packet 0 x.header.caplen.toNat) := by
  obtain ⟨a, k, hget, rfl, rfl⟩ := h.found hfind
  rw [h.announced] at hx
  obtain ⟨hheader, hpacket, -⟩ := announced_unique hn hget hx hid
  rw [hheader, hpacket]
  exact ⟨rfl, rfl, rfl⟩

theorem Described.announced_found (h : Described before as s) {id : BitVec 32} {sp : StoredPacket}
    (hfind : findPacket id s = some sp) : ∃ x ∈ s.announced, x.id = id := by
  obtain ⟨a, k, hget, -, rfl⟩ := h.found hfind
  rw [h.announced]
  refine ⟨_, List.mem_map.mpr ⟨(a, k + 1), ?_, rfl⟩, rfl⟩
  rw [List.mem_zipIdx_iff_le_and_getElem?_sub]
  exact ⟨by omega, hget⟩

/-- **When the storage is as it should be**: exactly when fewer frames were handled, in all
sessions, than an `int` can number. -/
theorem lastSession_iff (ss : List (List Delivery)) :
    LastSession ss (sessions Shark.init ss) ↔ (ss.flatMap arrivals).length < 2 ^ 31 := by
  have h := described_sessions ss
  have hall := flatMap_dropLast ss
  constructor
  · intro hl
    have hinc := hl.increasing
    rwa [h.announced, hall, increasing_iff] at hinc
  · intro hn
    refine ⟨?_, ?_, ?_, ?_⟩
    · rw [h.stored]
      exact map_kept _ _ fun _ _ => rfl
    · rw [h.announced, hall, announcements_frames]
    · rw [h.announced, hall, increasing_iff]
      exact hn
    · intro id behind items hitems
      obtain ⟨sp, hfind, rfl⟩ := Option.map_eq_some_iff.mp hitems
      refine ⟨h.announced_found hfind, fun x hx hid => ?_⟩
      rw [← hall] at hn
      obtain ⟨hpid, hheader, hdata⟩ := h.inspected hn hfind hx hid
      rw [hpid, hheader, hdata]
      rfl

theorem arrivals_replicate (n : Nat) (a : Arrival) (ds : List Delivery) :
    arrivals (List.replicate n (.frame a) ++ ds) = List.replicate n a ++ arrivals ds := by
  induction n with
  | zero => rfl
  | succ n ih => rw [List.replicate_succ, List.cons_append, arrivals, ih, List.replicate_succ,
      List.cons_append]

/-- A frame of equal bytes. -/
def plainFrame (b : Byte) (malloc : Bool) : Arrival :=
  { header := { tvSec := 0, tvUsec := 0, caplen := 14, len := 14 }, packet := fun _ => b,
    malloc := malloc }

/-- One frame, again and again: the one after the last positive id gets a negative one. -/
theorem lastSession_overflow :
    ¬ LastSession [List.replicate (2 ^ 31) (.frame (plainFrame 0 true))]
      (sessions Shark.init [List.replicate (2 ^ 31) (.frame (plainFrame 0 true))]) := by
  intro h
  have hinc := h.increasing
  rw [(described_sessions _).announced, flatMap_dropLast, increasing_iff, List.flatMap_singleton,
    ← List.append_nil (List.replicate (2 ^ 31) _), arrivals_replicate, arrivals, List.append_nil,
    List.length_replicate] at hinc
  exact Nat.lt_irrefl _ hinc

end CShark
