import OsnMp2.Kernel.Virtio
import OsnMp2.Lib.RingBuffer
import Mathlib.Data.List.Perm.Subperm
import Mathlib.Data.List.Nodup
import Mathlib.Tactic.Common

/-!
# The disk driver serves each request once

Every descriptor is free or in the chain of one call. The head of a chain that the device has been
told of is in one place at a time: on the first ring, taken, served, or on the second ring; when the
interrupt handler takes it off the second ring, the call may end. So no ring is overrun, no
descriptor is freed twice, the device reads well-formed chains, and the driver and the device
together do what a disk does that serves each request in one step.

## Main definitions

* `Chains`: the descriptors
* `Flight`: the rings and the device
* `Inv`: the invariant

## Main results

* `Inv.step`: every step keeps the invariant
* `virtio_safe`: no panic but for a failure of the device
* `virtio_refines`: a run of the driver and the device is a run of a disk that serves
  each request in one step
-/

set_option linter.unusedSectionVars false

namespace Xv6.Virtio

variable {B S : Type} [DecidableEq B] {d d' : Disk B} {s s' : State B S} {b b' : B} {write : Bool}
  {idx idx' : Idx} {i h : Nat} {pend done : List Nat}

/-! ## Descriptors -/

theorem allocDesc_some (hsome : allocDesc d = some (i, d')) :
    i < num ∧ d.free i = true ∧ d' = { d with free := Function.update d.free i false } := by
  obtain ⟨j, hfind, heq⟩ := Option.map_eq_some_iff.mp hsome
  cases heq
  exact ⟨List.mem_range.mp (List.mem_of_find?_eq_some
    hfind), by simpa using List.find?_some hfind, rfl⟩

/-- A descriptor is free again. -/
def Disk.freed (d : Disk B) (i : Nat) : Disk B :=
  { d with
    desc := Function.update d.desc i {}
    free := Function.update d.free i true }

theorem freeDesc_eq (hi : i < num) (hbusy : d.free i = false) : freeDesc d i = .ok (d.freed i) := by
  have hfree : ¬ d.free i = true := by
    rw [hbusy]
    exact Bool.false_ne_true
  exact (if_neg (Nat.not_le.mpr hi)).trans (if_neg hfree)

/-- A round of `free_chain`, which is not the last one. -/
theorem freeChain_next {n : Nat} (hi : i < num) (hbusy : d.free i = false)
    (hflag : (d.desc i).flags &&& descFNext ≠ 0) :
    freeChain (n + 1) d i = freeChain n (d.freed i) (d.desc i).next := by
  rw [freeChain, freeDesc_eq hi hbusy]
  exact if_pos hflag

theorem freeChain_last {n : Nat} (hi : i < num) (hbusy : d.free i = false)
    (hflag : (d.desc i).flags &&& descFNext = 0) :
    freeChain (n + 1) d i = .ok (d.freed i) := by
  rw [freeChain, freeDesc_eq hi hbusy]
  exact if_neg (not_not.mpr hflag)

/-- Descriptors that have been free are as before, but for what is written in them. -/
structure SameButFree (d d' : Disk B) : Prop where
  free : d'.free = d.free
  desc : ∀ i, d.free i = false → d'.desc i = d.desc i
  avail : d'.avail = d.avail
  used : d'.used = d.used
  usedIdx : d'.usedIdx = d.usedIdx
  info : d'.info = d.info
  ops : d'.ops = d.ops

/-- Three descriptors are no longer free. -/
def Disk.take (d : Disk B) (idx : Idx) : Disk B :=
  let free := Function.update (Function.update d.free idx.head false) idx.data false
  { d with free := Function.update free idx.status false }

/-- `alloc3_desc` takes three free descriptors, or none. -/
theorem alloc3Desc_spec (d : Disk B) :
    (∃ d', alloc3Desc d = .ok (none, d') ∧ SameButFree d d') ∨
    ∃ idx : Idx, (∀ i ∈ idx.toList, i < num ∧ d.free i = true) ∧ idx.toList.Nodup ∧
      alloc3Desc d = .ok (some idx, d.take idx) := by
  unfold alloc3Desc
  cases h₀ : allocDesc d with
  -- The three allocations fail one after the other, and what was allocated before a failure is
  -- freed again.
  | none => exact Or.inl ⟨d, rfl, rfl, fun _ _ => rfl, rfl, rfl, rfl, rfl, rfl⟩
  | some r₀ =>
    obtain ⟨i₀, d₀⟩ := r₀
    obtain ⟨hlt₀, hfree₀, rfl⟩ := allocDesc_some h₀
    dsimp only
    cases h₁ : allocDesc { d with free := Function.update d.free i₀ false } with
    | none =>
      left
      dsimp only
      rw [freeDesc_eq hlt₀ (Function.update_self ..)]
      refine ⟨_, rfl, ?_, fun i hi => ?_, rfl, rfl, rfl, rfl, rfl⟩
      -- the map is what it was, because the descriptor was free
      · show Function.update (Function.update d.free i₀ false) i₀ true = d.free
        rw [Function.update_idem, Function.update_eq_self_iff, hfree₀]
      · refine Function.update_of_ne ?_ ..
        rintro rfl
        rw [hfree₀] at hi
        cases hi
    | some r₁ =>
      obtain ⟨i₁, d₁⟩ := r₁
      obtain ⟨hlt₁, hfree₁, rfl⟩ := allocDesc_some h₁
      dsimp only at hfree₁
      -- A descriptor just allocated is not free, so the next one differs from it.
      have hne₁ : i₁ ≠ i₀ := by
        rintro rfl
        rw [Function.update_self] at hfree₁
        cases hfree₁
      rw [Function.update_of_ne hne₁] at hfree₁
      dsimp only
      cases h₂ : allocDesc { d with free := Function.update (Function.update d.free i₀ false) i₁ false } with
      | none =>
        left
        dsimp only
        have hbusy₀ : Function.update (Function.update d.free i₀ false) i₁ false i₀ = false := by
          rw [Function.update_of_ne hne₁.symm, Function.update_self]
        have hbusy₁ : Function.update (Function.update (Function.update d.free i₀ false) i₁ false)
          i₀ true i₁ = false := by
          rw [Function.update_of_ne hne₁, Function.update_self]
        rw [freeDesc_eq hlt₀ hbusy₀]
        refine ⟨_, congrArg _ (freeDesc_eq hlt₁ hbusy₁), ?_, fun i hi => ?_, rfl, rfl,
          rfl, rfl, rfl⟩
        · have hback₀ : Function.update d.free i₀ true = d.free :=
            Function.update_eq_self_iff.mpr hfree₀.symm
          have hback₁ : Function.update d.free i₁ true = d.free :=
            Function.update_eq_self_iff.mpr hfree₁.symm
          show Function.update (Function.update (Function.update (Function.update d.free i₀ false)
            i₁ false) i₀ true) i₁ true = d.free
          rw [Function.update_comm hne₁, Function.update_idem, Function.update_idem, hback₀, hback₁]
        · have hi₀ : i ≠ i₀ := by
            rintro rfl
            rw [hfree₀] at hi
            cases hi
          have hi₁ : i ≠ i₁ := by
            rintro rfl
            rw [hfree₁] at hi
            cases hi
          exact (Function.update_of_ne hi₁ ..).trans (Function.update_of_ne hi₀ ..)
      | some r₂ =>
        obtain ⟨i₂, d₂⟩ := r₂
        obtain ⟨hlt₂, hfree₂, rfl⟩ := allocDesc_some h₂
        dsimp only at hfree₂
        have hne₂ : i₂ ≠ i₁ := by
          rintro rfl
          rw [Function.update_self] at hfree₂
          cases hfree₂
        rw [Function.update_of_ne hne₂] at hfree₂
        have hne₃ : i₂ ≠ i₀ := by
          rintro rfl
          rw [Function.update_self] at hfree₂
          cases hfree₂
        rw [Function.update_of_ne hne₃] at hfree₂
        refine Or.inr ⟨⟨i₀, i₁, i₂⟩, ?_, ?_, rfl⟩
        · intro i hi
          simp only [Idx.toList, List.mem_cons, List.not_mem_nil, or_false] at hi
          rcases hi with rfl | rfl | rfl
          · exact ⟨hlt₀, hfree₀⟩
          · exact ⟨hlt₁, hfree₁⟩
          · exact ⟨hlt₂, hfree₂⟩
        · simp [Idx.toList, hne₁.symm, hne₂.symm, hne₃.symm]

/-- What the driver has written for a request. -/
structure Formatted (d : Disk B) (b : B) (blockno : Nat) (write : Bool) (idx : Idx) : Prop where
  lt : ∀ i ∈ idx.toList, i < num
  nodup : idx.toList.Nodup
  busy : ∀ i ∈ idx.toList, d.free i = false
  head : d.desc idx.head = { addr := .op idx.head, len := 16, flags := descFNext, next := idx.data }
  data : d.desc idx.data =
    { addr := .data b, len := 1024, flags := (if write then 0 else descFWrite) ||| descFNext,
      next := idx.status }
  status : d.desc idx.status =
    { addr := .status idx.head, len := 1, flags := descFWrite, next := 0 }
  op : d.ops idx.head =
    { type := if write then blkTOut else blkTIn, reserved := 0, sector := sectorOf blockno }
  info : (d.info idx.head).b = some b

section

variable {blockno : Nat}

theorem Idx.nodup_iff : idx.toList.Nodup ↔ idx.head ≠ idx.data ∧ idx.head ≠ idx.status ∧
    idx.data ≠ idx.status := by
  simp [Idx.toList, and_assoc]

theorem Idx.mem_iff : i ∈ idx.toList ↔ i = idx.head ∨ i = idx.data ∨ i = idx.status := by
  simp [Idx.toList]

/-- Another disk with the same chain. -/
theorem Formatted.congr (h : Formatted d b blockno write idx)
    (hfree : ∀ i ∈ idx.toList, d'.free i = d.free i)
    (hdesc : ∀ i ∈ idx.toList, d'.desc i = d.desc i) (hop : d'.ops idx.head = d.ops idx.head)
    (hinfo : (d'.info idx.head).b = (d.info idx.head).b) : Formatted d' b blockno write idx := by
  obtain ⟨hlt, hnodup, hbusy, hhead, hdata, hstatus, hop', hinfo'⟩ := h
  refine ⟨hlt, hnodup, fun i hi => (hfree i hi).trans (hbusy i hi), ?_, ?_, ?_, hop.trans hop',
    hinfo.trans hinfo'⟩
  · exact (hdesc _ (Idx.mem_iff.mpr (Or.inl rfl))).trans hhead
  · exact (hdesc _ (Idx.mem_iff.mpr (Or.inr (Or.inl rfl)))).trans hdata
  · exact (hdesc _ (Idx.mem_iff.mpr (Or.inr (Or.inr rfl)))).trans hstatus

/-- **The device reads the request** that the driver has written. -/
theorem Formatted.readChain (h : Formatted d b blockno write idx) : readChain d idx.head =
    some { write := write, sector := sectorOf blockno, b := b, status := idx.head } := by
  unfold Virtio.readChain
  rw [h.head]
  dsimp only
  rw [h.data]
  dsimp only
  rw [h.status]
  dsimp only
  rw [h.op]
  cases write <;> rfl

/-- **The chain is freed** as a whole. -/
theorem Formatted.freeChain (h : Formatted d b blockno write idx) (hdesc : d'.desc = d.desc)
    (hfree : d'.free = d.free) : ∃ d₁, freeChain num d' idx.head = .ok d₁ ∧
      (∀ i, d₁.free i = (decide (i ∈ idx.toList) || d.free i)) ∧
      (∀ i ∉ idx.toList, d₁.desc i = d.desc i) ∧
      d₁.avail = d'.avail ∧ d₁.used = d'.used ∧ d₁.usedIdx = d'.usedIdx ∧ d₁.info = d'.info ∧
      d₁.ops = d'.ops := by
  obtain ⟨h₁, h₂, h₃⟩ := Idx.nodup_iff.mp h.nodup
  have hmem₀ : idx.head ∈ idx.toList := Idx.mem_iff.mpr (Or.inl rfl)
  have hmem₁ : idx.data ∈ idx.toList := Idx.mem_iff.mpr (Or.inr (Or.inl rfl))
  have hmem₂ : idx.status ∈ idx.toList := Idx.mem_iff.mpr (Or.inr (Or.inr rfl))
  have hlt := h.lt
  have hhead := h.head
  have hbusy := h.busy
  have hdata₀ := h.data
  have hstatus₀ := h.status
  rw [← hdesc] at hhead hdata₀ hstatus₀ ⊢
  rw [← hfree] at hbusy ⊢
  -- the second and the third descriptor are as before when it is their turn
  have hdata : (d'.freed idx.head).desc idx.data = d'.desc idx.data :=
    Function.update_of_ne h₁.symm ..
  have hstatus : ((d'.freed idx.head).freed idx.data).desc idx.status = d'.desc idx.status :=
    (Function.update_of_ne h₃.symm ..).trans (Function.update_of_ne h₂.symm ..)
  have hbusy₁ : (d'.freed idx.head).free idx.data = false :=
    (Function.update_of_ne h₁.symm ..).trans (hbusy _ hmem₁)
  have hbusy₂ : ((d'.freed idx.head).freed idx.data).free idx.status = false :=
    (Function.update_of_ne h₃.symm ..).trans ((Function.update_of_ne h₂.symm ..).trans
      (hbusy _ hmem₂))
  have hchain : Virtio.freeChain num d' idx.head = .ok (((d'.freed idx.head).freed idx.data).freed
    idx.status) := by
    refine (freeChain_next (n := 7) (hlt _ hmem₀) (hbusy _ hmem₀) ?_).trans ?_
    · rw [hhead]
      show descFNext &&& descFNext ≠ 0
      decide
    rw [hhead]
    refine (freeChain_next (n := 6) (hlt _ hmem₁) hbusy₁ ?_).trans ?_
    · rw [hdata, hdata₀]
      show ((if write then 0 else descFWrite) ||| descFNext) &&& descFNext ≠ 0
      cases write <;> decide
    rw [hdata, hdata₀]
    refine freeChain_last (n := 5) (hlt _ hmem₂) hbusy₂ ?_
    rw [hstatus, hstatus₀]
    show descFWrite &&& descFNext = 0
    decide
  refine ⟨_, hchain, fun i => ?_, fun i hi => ?_, rfl, rfl, rfl, rfl, rfl⟩
  · by_cases hi : i ∈ idx.toList
    · rw [decide_eq_true hi, Bool.true_or]
      rcases Idx.mem_iff.mp hi with rfl | rfl | rfl
      · exact (Function.update_of_ne h₂ ..).trans ((Function.update_of_ne h₁ ..).trans
          (Function.update_self ..))
      · exact (Function.update_of_ne h₃ ..).trans (Function.update_self ..)
      · exact Function.update_self ..
    · rw [decide_eq_false hi, Bool.false_or]
      rw [Idx.mem_iff, not_or, not_or] at hi
      exact (Function.update_of_ne hi.2.2 ..).trans ((Function.update_of_ne hi.2.1 ..).trans
        (Function.update_of_ne hi.1 ..))
  · rw [Idx.mem_iff, not_or, not_or] at hi
    exact (Function.update_of_ne hi.2.2 ..).trans ((Function.update_of_ne hi.2.1 ..).trans
      (Function.update_of_ne hi.1 ..))

end

/-! ## The invariant -/

/-- The chain of a call, when it has one. -/
def Phase.frame : Phase → Option (Bool × Idx)
  | .formatted write idx | .waiting write idx => some (write, idx)
  | _ => none

/-- **The descriptors**: those that are not free are in the chain of one call. -/
structure Chains (s : State B S) : Prop where
  formatted : ∀ b write idx, (s.phase b).frame = some (write, idx) →
    Formatted s.disk b (s.buf b).blockno write idx
  disjoint : ∀ b b' write write' idx idx' i, (s.phase b).frame = some (write, idx) →
    (s.phase b').frame = some (write', idx') → i ∈ idx.toList → i ∈ idx'.toList → b = b'
  owned : ∀ i < num, s.disk.free i = false → ∃ b write idx, (s.phase b).frame = some (write, idx) ∧
    i ∈ idx.toList

/-- The chains that the device has been told of, and that the interrupt handler has not seen: on the
first ring, taken, served, and on the second ring. -/
def State.live (s : State B S) (pend done : List Nat) :
    List Nat := pend ++ (s.taken ++ (s.served ++ done))

/-- **The rings and the device**: each of these chains is in one place, its call waits for it, and
its status byte says whether it is served. -/
structure Flight (s : State B S) (pend done : List Nat) : Prop where
  avail : RingHolds num (2 ^ 16) s.disk.avail.ring s.seen s.disk.avail.idx pend
  used : RingHolds num (2 ^ 16) s.disk.used.ring s.disk.usedIdx s.disk.used.idx done
  nodup : (s.live pend done).Nodup
  mem : ∀ h, h ∈ s.live pend done ↔
    ∃ b write idx, s.phase b = .waiting write idx ∧ idx.head = h ∧ (s.buf b).disk = true
  fresh : ∀ h ∈ pend ++ s.taken, (s.disk.info h).status = 0xff
  served : ∀ h ∈ s.served ++ done, (s.disk.info h).status = 0 ∨ (s.disk.info h).status = 1

/-- **The invariant.** -/
structure Inv (s : State B S) : Prop where
  chains : Chains s
  flight : ∃ pend done, Flight s pend done
  lock : ∀ b, s.lock = some (.rw b) ↔ ∃ write idx, s.phase b = .formatted write idx
  slot : ∀ b write idx, s.phase b = .formatted write idx →
    s.disk.avail.ring (s.disk.avail.idx % num) = idx.head ∧
    (s.disk.info idx.head).status = 0xff ∧ (s.buf b).disk = true
  calm : ∀ b, (s.phase b).frame = none → (s.buf b).disk = false
  reaped : ∀ b write idx, s.phase b = .waiting write idx → (s.buf b).disk = false →
    (s.disk.info idx.head).status = 0

/-- The chains are as before, when nothing happens to the descriptors. -/
theorem Chains.congr (h : Chains s) (hframe : ∀ b, (s'.phase b).frame = (s.phase b).frame)
    (hfree : s'.disk.free = s.disk.free) (hdesc : s'.disk.desc = s.disk.desc)
    (hops : s'.disk.ops = s.disk.ops) (hinfo : ∀ i, (s'.disk.info i).b = (s.disk.info i).b)
    (hblock : ∀ b, (s.phase b).frame ≠ none → (s'.buf b).blockno = (s.buf b).blockno) :
    Chains s' := by
  refine ⟨fun b write idx hb => ?_, fun b b' write write' idx idx' i hb hb' => ?_,
    fun i hi hbusy => ?_⟩
  · rw [hframe] at hb
    have hne : (s.phase b).frame ≠ none := by
      rw [hb]
      exact nofun
    rw [hblock b hne]
    exact (h.formatted b write idx hb).congr (fun i _ => by rw [hfree]) (fun i _ => by rw [hdesc])
      (by rw [hops]) (hinfo _)
  · rw [hframe] at hb hb'
    exact h.disjoint b b' write write' idx idx' i hb hb'
  · rw [hfree] at hbusy
    obtain ⟨b, write, idx, hb, hmem⟩ := h.owned i hi hbusy
    exact ⟨b, write, idx, by rw [hframe, hb], hmem⟩

theorem Phase.frame_waiting {phase : Phase} (h : phase = .waiting write idx) :
    phase.frame = some (write, idx) := by
  rw [h, frame]

theorem Phase.frame_formatted {phase : Phase} (h : phase = .formatted write idx) :
    phase.frame = some (write, idx) := by
  rw [h, frame]

theorem Idx.head_mem (idx : Idx) : idx.head ∈ idx.toList := Idx.mem_iff.mpr (Or.inl rfl)

/-- The call of a chain. -/
theorem Chains.head_inj (h : Chains s) {write' : Bool} (hb : (s.phase b).frame = some (write, idx))
    (hb' : (s.phase b').frame = some (write', idx')) (heq : idx.head = idx'.head) : b = b' :=
  h.disjoint b b' write write' idx idx' idx.head hb hb' idx.head_mem (heq ▸ idx'.head_mem)

theorem Flight.waiting (h : Flight s pend done) {x : Nat} (hx : x ∈ s.live pend done) :
    ∃ b write idx, s.phase b = .waiting write idx ∧ idx.head = x ∧ (s.buf b).disk = true :=
  (h.mem x).mp hx

/-- No more chains are in flight than there are descriptors. -/
theorem Flight.length_lt (h : Flight s pend done) (hc : Chains s) {l : List Nat}
    (hl : l ⊆ s.live pend done) (hnodup : (i :: l).Nodup) (hi : i < num) : l.length < num := by
  have hsub : (i :: l) ⊆ List.range num := by
    intro x hx
    rw [List.mem_range]
    rcases List.mem_cons.mp hx with rfl | hin
    · exact hi
    · obtain ⟨b, write, idx, hb, rfl, -⟩ := h.waiting (hl hin)
      exact (hc.formatted b write idx (Phase.frame_waiting hb)).lt _ idx.head_mem
  have hle := (List.subperm_of_subset hnodup hsub).length_le
  rw [List.length_range] at hle
  exact hle

/-- The chains in flight may change places. -/
theorem Flight.move (h : Flight s pend done) {pend' done' : List Nat}
    (havail : RingHolds num (2 ^ 16) s'.disk.avail.ring s'.seen s'.disk.avail.idx pend')
    (hused : RingHolds num (2 ^ 16) s'.disk.used.ring s'.disk.usedIdx s'.disk.used.idx done')
    (hperm : (s'.live pend' done').Perm (s.live pend done)) (hphase : s'.phase = s.phase)
    (hdisk : ∀ b, (s'.buf b).disk = (s.buf b).disk)
    (hfresh : ∀ h ∈ pend' ++ s'.taken, (s'.disk.info h).status = 0xff)
    (hserved : ∀ h ∈ s'.served ++ done', (s'.disk.info h).status = 0 ∨
      (s'.disk.info h).status = 1) :
    Flight s' pend' done' := by
  refine ⟨havail, hused, hperm.nodup_iff.mpr h.nodup, fun x => ?_, hfresh, hserved⟩
  rw [hperm.mem_iff, h.mem, hphase]
  simp only [hdisk]

/-! ## Steps -/

/-- A call begins. -/
theorem Inv.call (h : Inv s) (hb : s.phase b = .idle) : Inv (s.setPhase b (.asked write)) := by
  have hphase : ∀ b', b' ≠ b → (s.setPhase b (.asked write)).phase b' = s.phase b' := fun b' hne =>
    State.phase_setPhase_of_ne hne
  have hself : (s.setPhase b (.asked write)).phase b = .asked write := State.phase_setPhase
  have hwaiting : ∀ b' w i, (s.setPhase b (.asked write)).phase b' = .waiting w i ↔
    s.phase b' = .waiting w i := by
    intro b' w i
    by_cases hb' : b' = b
    · subst hb'
      rw [hself, hb]
      exact ⟨nofun, nofun⟩
    · rw [hphase b' hb']
  have hformatted : ∀ b' w i, (s.setPhase b (.asked write)).phase b' = .formatted w i ↔
    s.phase b' = .formatted w i := by
    intro b' w i
    by_cases hb' : b' = b
    · subst hb'
      rw [hself, hb]
      exact ⟨nofun, nofun⟩
    · rw [hphase b' hb']
  have hframe : ∀ b', ((s.setPhase b (.asked write)).phase b').frame = (s.phase b').frame := by
    intro b'
    by_cases hb' : b' = b
    · subst hb'
      rw [hself, hb]
      rfl
    · rw [hphase b' hb']
  obtain ⟨pend, done, hf⟩ := h.flight
  refine ⟨h.chains.congr hframe rfl rfl rfl (fun _ => rfl) fun _ _ => rfl, ⟨pend, done, ?_⟩,
    fun b' => ?_, ?_, ?_, ?_⟩
  · exact ⟨hf.avail, hf.used, hf.nodup,
      fun x => by simp only [hwaiting]; exact hf.mem x, hf.fresh, hf.served⟩
  · simp only [hformatted]
    exact h.lock b'
  · intro b' w i hb'
    exact h.slot b' w i ((hformatted b' w i).mp hb')
  · intro b' hb'
    rw [hframe] at hb'
    exact h.calm b' hb'
  · intro b' w i hb'
    exact h.reaped b' w i ((hwaiting b' w i).mp hb')

/-- Steps in which no call changes its phase. -/
theorem Inv.keep (h : Inv s) (hphase : s'.phase = s.phase) (hchains : Chains s')
    (hflight : ∃ pend done, Flight s' pend done)
    (hlock : ∀ b, s'.lock = some (.rw b) ↔ s.lock = some (.rw b))
    (havail : s'.disk.avail = s.disk.avail)
    (hstatus : ∀ b write idx, s.phase b = .formatted write idx →
      (s'.disk.info idx.head).status = (s.disk.info idx.head).status)
    (hdisk : ∀ b write idx, s.phase b = .formatted write idx → (s'.buf b).disk = (s.buf b).disk)
    (hcalm : ∀ b, (s.buf b).disk = false → (s'.buf b).disk = false)
    (hreaped : ∀ b write idx, s.phase b = .waiting write idx → (s'.buf b).disk = false →
      (s'.disk.info idx.head).status = 0) : Inv s' := by
  refine ⟨hchains, hflight, fun b => ?_, fun b w i hb => ?_, fun b hb => ?_, fun b w i hb => ?_⟩
  · rw [hlock, hphase]
    exact h.lock b
  · rw [hphase] at hb
    rw [havail, hstatus b w i hb, hdisk b w i hb]
    exact h.slot b w i hb
  · rw [hphase] at hb
    exact hcalm b (h.calm b hb)
  · rw [hphase] at hb
    exact hreaped b w i hb

/-- `vdisk_lock` is taken or given back by the interrupt handler. -/
theorem Inv.setLock (h : Inv s) {lock : Option (Holder B)} (hold : ∀ b, s.lock ≠ some (.rw b))
    (hnew : ∀ b, lock ≠ some (.rw b)) : Inv { s with lock := lock } := by
  obtain ⟨pend, done, hf⟩ := h.flight
  exact h.keep rfl (h.chains.congr (fun _ => rfl) rfl rfl rfl (fun _ => rfl) fun _ _ => rfl)
    ⟨pend, done, hf.move hf.avail hf.used (List.Perm.refl _) rfl (fun _ => rfl) hf.fresh hf.served⟩
    (fun b => ⟨fun hc => absurd hc (hnew b), fun hc => absurd hc (hold b)⟩) rfl (fun _ _ _ _ => rfl)
    (fun _ _ _ _ => rfl) (fun _ => id) h.reaped

/-- The device takes a request from the ring. -/
theorem Inv.fetch (h : Inv s) (hne : s.seen ≠ s.disk.avail.idx) : Inv s.fetch := by
  obtain ⟨pend, done, hf⟩ := h.flight
  cases pend with
  | nil => exact absurd ((hf.avail.empty_iff (by decide)).mpr rfl) hne
  | cons x pend =>
    obtain ⟨hx, hpop⟩ := hf.avail.pop (by decide)
    have htaken : s.fetch.taken = s.taken ++ [x] := congrArg (fun y => s.taken ++ [y]) hx
    have hperm : (s.fetch.live pend done).Perm (s.live (x :: pend) done) := by
      unfold State.live
      rw [htaken, List.append_assoc]
      refine (List.perm_append_left_iff pend).mpr List.perm_middle |>.trans ?_
      exact List.perm_middle
    refine h.keep rfl (h.chains.congr (fun _ => rfl) rfl rfl rfl (fun _ => rfl) fun _ _ => rfl)
      ⟨pend, done, hf.move hpop hf.used hperm rfl (fun _ => rfl) (fun y hy => hf.fresh y ?_)
       hf.served⟩
      (fun _ => Iff.rfl) rfl (fun _ _ _ _ => rfl) (fun _ _ _ _ => rfl) (fun _ => id) h.reaped
    rw [htaken] at hy
    simp only [List.mem_append, List.mem_cons, List.not_mem_nil, or_false] at hy ⊢
    rcases hy with hy | hy | hy
    · exact Or.inl (Or.inr hy)
    · exact Or.inr hy
    · exact Or.inl (Or.inl hy)

/-- The device puts a request on the second ring. -/
theorem Inv.post (h : Inv s) (hmem : i ∈ s.served) : Inv (s.post i) := by
  obtain ⟨pend, done, hf⟩ := h.flight
  have hsplit : s.served.Perm (i :: s.served.erase i) := List.perm_cons_erase hmem
  have hperm : ((s.post i).live pend (done ++ [i])).Perm (s.live pend done) := by
    refine (List.perm_append_left_iff pend).mpr ((List.perm_append_left_iff s.taken).mpr ?_)
    have hmove : (s.served.erase i ++ (done ++ [i])).Perm (i :: s.served.erase i ++ done) := by
      rw [← List.append_assoc]
      exact List.perm_append_singleton i _
    exact hmove.trans (hsplit.symm.append_right done)
  have hin : i ∈ s.live pend done :=
    List.mem_append_right _ (List.mem_append_right _ (List.mem_append_left _ hmem))
  obtain ⟨b, w, idx, hb, rfl, -⟩ := hf.waiting hin
  have hlt := (h.chains.formatted b w idx (Phase.frame_waiting hb)).lt _ idx.head_mem
  have hnodup : (idx.head :: done).Nodup := by
    have hsub : (s.served ++ done).Nodup :=
      (List.nodup_append.mp (List.nodup_append.mp hf.nodup).2.1).2.1
    refine List.nodup_cons.mpr ⟨fun hc => ?_, (List.nodup_append.mp hsub).2.1⟩
    exact (List.nodup_append.mp hsub).2.2 _ hmem _ hc rfl
  have hroom : done.length < num := by
    refine hf.length_lt h.chains ?_ hnodup hlt
    exact fun x hx => List.mem_append_right _ (List.mem_append_right _ (List.mem_append_right _ hx))
  have hpush := hf.used.push (by decide) hroom idx.head
  refine h.keep rfl (h.chains.congr (fun _ => rfl) rfl rfl rfl (fun _ => rfl) fun _ _ => rfl)
    ⟨pend, done ++ [idx.head], hf.move hf.avail hpush hperm rfl (fun _ => rfl) hf.fresh fun x hx =>
     hf.served x ?_⟩
    (fun _ => Iff.rfl) rfl (fun _ _ _ _ => rfl) (fun _ _ _ _ => rfl) (fun _ => id) h.reaped
  rcases List.mem_append.mp hx with hin | hin
  · exact List.mem_append_left _ (List.mem_of_mem_erase hin)
  · rcases List.mem_append.mp hin with hin | hin
    · exact List.mem_append_right _ hin
    · rw [List.mem_singleton.mp hin]
      exact List.mem_append_left _ hmem

/-- A process gives its buffer another block or other data. -/
theorem Inv.edit (h : Inv s) (hb : s.phase b = .idle) (blockno : Nat) (data : S × S) :
    Inv (s.setBuf b { s.buf b with blockno := blockno, data := data }) := by
  have hbuf : ∀ b', b' ≠ b → (s.setBuf b { s.buf b with blockno := blockno, data := data }).buf
    b' = s.buf b' :=
    fun b' hne => State.buf_setBuf_of_ne hne
  have hdisk : ∀ b', ((s.setBuf b { s.buf b with blockno := blockno, data := data }).buf b').disk =
    (s.buf b').disk := by
    intro b'
    by_cases hb' : b' = b
    · subst hb'
      rw [State.buf_setBuf]
    · rw [hbuf b' hb']
  obtain ⟨pend, done, hf⟩ := h.flight
  refine h.keep rfl (h.chains.congr (fun _ => rfl) rfl rfl rfl (fun _ => rfl) fun b' hne => ?_)
    ⟨pend, done, hf.move hf.avail hf.used (List.Perm.refl _) rfl hdisk hf.fresh hf.served⟩
    (fun _ => Iff.rfl) rfl
    (fun _ _ _ _ => rfl) (fun b' _ _ _ => hdisk b') (fun b' hc => (hdisk b').trans hc)
    fun b' w idx hb' hc => ?_
  · rw [hbuf b']
    rintro rfl
    rw [hb] at hne
    exact hne rfl
  · rw [hdisk] at hc
    exact h.reaped b' w idx hb' hc

/-- What the device does for a request: it moves the data and writes the status byte. -/
theorem State.transfer_eq (s : State B S) (h : Nat) (chain : Chain B) (ok : Bool) : ∃ sectors buf,
    s.transfer h chain ok = { s with
      taken := s.taken.erase h
      served := s.served ++ [h]
      disk := s.disk.setStatus chain.status (if ok then 0 else 1)
      sectors := sectors
      buf := buf } ∧
    ∀ b, (buf b).blockno = (s.buf b).blockno ∧ (buf b).disk = (s.buf b).disk := by
  unfold transfer
  cases ok with
  | false => exact ⟨s.sectors, s.buf, rfl, fun _ => ⟨rfl, rfl⟩⟩
  | true =>
    cases chain.write with
    | true => exact ⟨_, s.buf, rfl, fun _ => ⟨rfl, rfl⟩⟩
    | false =>
      refine ⟨s.sectors, _, rfl, fun b => ?_⟩
      by_cases hb : b = chain.b
      · rw [hb, Function.update_self]
        exact ⟨rfl, rfl⟩
      · rw [Function.update_of_ne hb]
        exact ⟨rfl, rfl⟩

theorem Disk.info_setStatus (d : Disk B) (j status : Nat) :
    (d.setStatus j status).info j = { d.info j with status := status } := Function.update_self ..

theorem Disk.info_setStatus_of_ne (d : Disk B) (status : Nat) {i j : Nat} (h : i ≠ j) :
    (d.setStatus j status).info i = d.info i := Function.update_of_ne h ..

theorem Disk.setStatus_b (d : Disk B) (j status i : Nat) :
    ((d.setStatus j status).info i).b = (d.info i).b := by
  by_cases hi : i = j
  · rw [hi, info_setStatus]
  · rw [info_setStatus_of_ne d status hi]

/-- The call of a request that the device has taken. -/
theorem Inv.taken (h : Inv s) (hmem : i ∈ s.taken) :
    ∃ b write idx, s.phase b = .waiting write idx ∧ idx.head = i ∧
    (s.buf b).disk = true ∧ (s.disk.info i).status = 0xff ∧
    readChain s.disk i =
      some { write := write, sector := sectorOf (s.buf b).blockno, b := b, status := i } := by
  obtain ⟨pend, done, hf⟩ := h.flight
  obtain ⟨b, w, idx, hb, rfl, hdisk⟩ :=
    hf.waiting (List.mem_append_right _ (List.mem_append_left _ hmem))
  exact ⟨b, w, idx, hb, rfl, hdisk, hf.fresh _ (List.mem_append_right _ hmem),
    (h.chains.formatted b w idx (Phase.frame_waiting hb)).readChain⟩

/-- The device serves a request, or fails. -/
theorem Inv.transfer (h : Inv s) (hmem : i ∈ s.taken) {chain : Chain B}
    (hchain : readChain s.disk i = some chain) (ok : Bool) : Inv (s.transfer i chain ok) := by
  obtain ⟨b, w, idx, hb, rfl, hdisk, -, hread⟩ := h.taken hmem
  rw [hread] at hchain
  obtain rfl := Option.some.inj hchain
  obtain ⟨sectors, buf, heq, hbuf⟩ := s.transfer_eq idx.head
    { write := w, sector := sectorOf (s.buf b).blockno, b := b, status := idx.head } ok
  rw [heq]
  obtain ⟨pend, done, hf⟩ := h.flight
  have hsplit : s.taken.Perm (idx.head :: s.taken.erase idx.head) := List.perm_cons_erase hmem
  have hlive : (pend ++ (s.taken.erase idx.head ++ ((s.served ++ [idx.head]) ++ done))).Perm
    (s.live pend done) := by
    refine (List.perm_append_left_iff pend).mpr ?_
    have hmove : (s.taken.erase idx.head ++ (s.served ++ [idx.head] ++ done)).Perm
        (idx.head :: s.taken.erase idx.head ++ (s.served ++ done)) := by
      rw [List.append_assoc, List.singleton_append]
      refine ((List.perm_append_left_iff _).mpr List.perm_middle).trans ?_
      exact List.perm_middle
    exact hmove.trans (hsplit.symm.append_right _)
  -- the status byte of another chain in flight is another one
  have hother : ∀ x ∈ pend ++ s.taken.erase idx.head, x ≠ idx.head := by
    have hnodup := hlive.nodup_iff.mpr hf.nodup
    rw [← List.append_assoc] at hnodup
    rintro x hx rfl
    refine (List.nodup_append.mp hnodup).2.2 _ hx _ ?_ rfl
    exact List.mem_append_left _ (List.mem_append_right _ (List.mem_singleton_self _))
  have hne : ∀ b' w' idx', (s.phase b').frame = some (w', idx') → b' ≠ b → idx'.head ≠ idx.head :=
    fun b' w' idx' hb' hne hc =>
    hne (h.chains.head_inj hb' (Phase.frame_waiting hb) hc)
  refine h.keep rfl (h.chains.congr (fun _ => rfl) rfl rfl rfl (fun _ => Disk.setStatus_b ..)
    fun b' _ => (hbuf b').1)
    ⟨pend, done, hf.move hf.avail hf.used hlive rfl (fun b' => (hbuf b').2) (fun x hx => ?_)
     fun x hx => ?_⟩
    (fun _ => Iff.rfl) rfl (fun b' w' idx' hb' => ?_) (fun b' _ _ _ => (hbuf b').2)
    (fun b' hc => (hbuf b').2.trans hc) fun b' w' idx' hb' hc => ?_
  · rw [Disk.info_setStatus_of_ne _ _ (hother x hx)]
    refine hf.fresh x ?_
    rcases List.mem_append.mp hx with hin | hin
    · exact List.mem_append_left _ hin
    · exact List.mem_append_right _ (List.mem_of_mem_erase hin)
  · by_cases hx' : x = idx.head
    · rw [hx', Disk.info_setStatus]
      cases ok
      · exact Or.inr rfl
      · exact Or.inl rfl
    · rw [Disk.info_setStatus_of_ne _ _ hx']
      refine hf.served x ?_
      simp only [List.mem_append, List.mem_singleton] at hx ⊢
      rcases hx with (hin | hin) | hin
      · exact Or.inl hin
      · exact absurd hin hx'
      · exact Or.inr hin
  · refine congrArg Info.status (Disk.info_setStatus_of_ne _ _
      (hne b' w' idx' (Phase.frame_formatted hb') ?_))
    rintro rfl
    rw [hb] at hb'
    cases hb'
  · have hdisk' : (s.buf b').disk = false := (hbuf b').2.symm.trans hc
    have hbb : b' ≠ b := by
      rintro rfl
      rw [hdisk] at hdisk'
      cases hdisk'
    rw [Disk.info_setStatus_of_ne _ _ (hne b' w' idx' (Phase.frame_waiting hb') hbb)]
    exact h.reaped b' w' idx' hb' hdisk'

/-- The request that the interrupt handler finds at the front of the second ring. -/
theorem Inv.reaping (h : Inv s) (hne : s.disk.usedIdx ≠ s.disk.used.idx) :
    ∃ b write idx, s.phase b = .waiting write idx ∧
    s.disk.used.ring (s.disk.usedIdx % num) = idx.head ∧ (s.disk.info idx.head).b = some b ∧
    ((s.disk.info idx.head).status = 0 ∨ (s.disk.info idx.head).status = 1) := by
  obtain ⟨pend, done, hf⟩ := h.flight
  cases done with
  | nil => exact absurd ((hf.used.empty_iff (by decide)).mpr rfl) hne
  | cons x done =>
    obtain ⟨hx, -⟩ := hf.used.pop (by decide)
    have hin : x ∈ s.live pend (x :: done) :=
      List.mem_append_right _ (List.mem_append_right _ (List.mem_append_right _ List.mem_cons_self))
    obtain ⟨b, w, idx, hb, rfl, -⟩ := hf.waiting hin
    exact ⟨b, w, idx, hb, hx, (h.chains.formatted b w idx (Phase.frame_waiting hb)).info,
      hf.served _ (List.mem_append_right _ List.mem_cons_self)⟩

/-- What a round of `virtio_disk_intr` does, when the device has served the request. -/
theorem Inv.reap_eq (h : Inv s) (hne : s.disk.usedIdx ≠ s.disk.used.idx) (hreap : s.reap = .ok s') :
    ∃ b write idx, s.phase b = .waiting write idx ∧
    s.disk.used.ring (s.disk.usedIdx % num) = idx.head ∧
      (s.disk.info idx.head).status = 0 ∧
      s' = { s with disk := { s.disk with usedIdx := (s.disk.usedIdx + 1) % 2 ^ 16 } }.setBuf b
        { s.buf b with disk := false } := by
  obtain ⟨b, w, idx, hb, hring, hinfo, -⟩ := h.reaping hne
  unfold State.reap at hreap
  rw [hring] at hreap
  by_cases hstatus : (s.disk.info idx.head).status = 0
  · have hok := (if_neg (not_not.mpr hstatus)).symm.trans hreap
    rw [hinfo] at hok
    exact ⟨b, w, idx, hb, hring, hstatus, (Except.ok.inj hok).symm⟩
  · cases (if_pos hstatus).symm.trans hreap

/-- The interrupt handler sees that a request is served. -/
theorem Inv.reap (h : Inv s) (hne : s.disk.usedIdx ≠ s.disk.used.idx) (hreap : s.reap = .ok s') :
    Inv s' := by
  obtain ⟨b, w, idx, hb, hring, hstatus, rfl⟩ := h.reap_eq hne hreap
  obtain ⟨pend, done, hf⟩ := h.flight
  cases done with
  | nil => exact absurd ((hf.used.empty_iff (by decide)).mpr rfl) hne
  | cons x done =>
    obtain ⟨hx, hpop⟩ := hf.used.pop (by decide)
    rw [hring] at hx
    subst hx
    have hperm : (s.live pend (idx.head :: done)).Perm (idx.head :: s.live pend done) := by
      unfold State.live
      rw [← List.append_assoc, ← List.append_assoc, ← List.append_assoc, ← List.append_assoc]
      exact List.perm_middle
    have hnodup := List.nodup_cons.mp (hperm.nodup_iff.mp hf.nodup)
    have hbuf : ∀ b', b' ≠ b →
        ({ s with disk := { s.disk with usedIdx := (s.disk.usedIdx + 1) % 2 ^ 16 } }.setBuf b
        { s.buf b with disk := false }).buf b' = s.buf b' := fun b' hne =>
        State.buf_setBuf_of_ne hne
    refine h.keep rfl (h.chains.congr (fun _ => rfl) rfl rfl rfl (fun _ => rfl) fun b' _ => ?_)
      ⟨pend, done, hf.avail, hpop, hnodup.2, fun y => ?_, hf.fresh, fun y hy => hf.served y ?_⟩
      (fun _ => Iff.rfl) rfl
      (fun _ _ _ _ => rfl) (fun b' w' idx' hb' => ?_) (fun b' hc => ?_) fun b' w' idx' hb' hc => ?_
    · by_cases hbb : b' = b
      · rw [hbb, State.buf_setBuf]
      · rw [hbuf b' hbb]
    · -- the chain of the buffer is not in flight any more, the others are
      have hold := (hperm.mem_iff (a := y)).symm.trans (hf.mem y)
      rw [List.mem_cons] at hold
      constructor
      · intro hy
        obtain ⟨b', w', idx', hb', rfl, hdisk⟩ := hold.mp (Or.inr hy)
        have hbb : b' ≠ b := by
          rintro rfl
          rw [hb] at hb'
          cases hb'
          exact hnodup.1 hy
        exact ⟨b', w', idx', hb', rfl, by rw [hbuf b' hbb]; exact hdisk⟩
      · rintro ⟨b', w', idx', hb', rfl, hdisk⟩
        have hbb : b' ≠ b := by
          rintro rfl
          rw [State.buf_setBuf] at hdisk
          cases hdisk
        rw [hbuf b' hbb] at hdisk
        refine (hold.mpr ⟨b', w', idx', hb', rfl, hdisk⟩).resolve_left fun hc => hbb ?_
        exact h.chains.head_inj (Phase.frame_waiting hb') (Phase.frame_waiting hb) hc
    · rcases List.mem_append.mp hy with hin | hin
      · exact List.mem_append_left _ hin
      · exact List.mem_append_right _ (List.mem_cons_of_mem _ hin)
    · rw [hbuf b']
      rintro rfl
      rw [hb] at hb'
      cases hb'
    · by_cases hbb : b' = b
      · rw [hbb, State.buf_setBuf]
      · rw [hbuf b' hbb]
        exact hc
    · by_cases hbb : b' = b
      · subst hbb
        rw [hb] at hb'
        cases hb'
        exact hstatus
      · rw [hbuf b' hbb] at hc
        exact h.reaped b' w' idx' hb' hc

/-- The device is told of a chain. -/
theorem Inv.notify (h : Inv s) (hb : s.phase b = .formatted write idx) :
    Inv (s.notify b write idx) := by
  obtain ⟨pend, done, hf⟩ := h.flight
  have hphase : ∀ b', b' ≠ b → (s.notify b write idx).phase b' = s.phase b' := fun b' hne =>
    State.phase_setPhase_of_ne hne
  have hself : (s.notify b write idx).phase b = .waiting write idx := State.phase_setPhase
  have hframe : ∀ b', ((s.notify b write idx).phase b').frame = (s.phase b').frame := by
    intro b'
    by_cases hb' : b' = b
    · rw [hb', hself, hb]
      rfl
    · rw [hphase b' hb']
  obtain ⟨hslot, hstatus, hdisk⟩ := h.slot b write idx hb
  have hform := h.chains.formatted b write idx (Phase.frame_formatted hb)
  -- The head is not in flight yet: a head in flight belongs to a caller that waits, and this one
  -- has only formatted its chain.
  have hnew : idx.head ∉ s.live pend done := by
    intro hc
    obtain ⟨b', w', idx', hb', heq, -⟩ := hf.waiting hc
    obtain rfl := h.chains.head_inj (Phase.frame_waiting hb') (Phase.frame_formatted hb) heq
    rw [hb] at hb'
    cases hb'
  have hpend : pend ⊆ s.live pend done := fun x hx => List.mem_append_left _ hx
  -- There is room in the ring, since the heads in flight are distinct descriptors and this one is
  -- none of them.
  have hroom : pend.length < num := by
    refine hf.length_lt h.chains hpend (List.nodup_cons.mpr ⟨fun hc => hnew (hpend hc), ?_⟩)
      (hform.lt _ idx.head_mem)
    exact (List.nodup_append.mp hf.nodup).1
  -- The slot was written when the chain was formatted, only the index is new.
  have hpush := hf.avail.push (by decide) hroom idx.head
  rw [Function.update_eq_self_iff.mpr hslot.symm] at hpush
  have hperm : ((s.notify b write idx).live (pend ++ [idx.head]) done).Perm
    (idx.head :: s.live pend done) := by
    unfold State.live
    rw [List.append_assoc, List.singleton_append]
    exact List.perm_middle
  -- Who has a chain formatted holds the lock, so no other caller has one.
  have hnone : ∀ b', s.lock = some (.rw b') → b' = b := by
    intro b' hb'
    have hlock := (h.lock b).mpr ⟨write, idx, hb⟩
    rw [hb'] at hlock
    cases hlock
    rfl
  refine ⟨h.chains.congr hframe rfl rfl rfl (fun _ => rfl) fun _ _ => rfl,
    ⟨pend ++ [idx.head], done, hpush, hf.used,
    hperm.nodup_iff.mpr (List.nodup_cons.mpr ⟨hnew, hf.nodup⟩), fun x => ?_, fun x hx =>
    ?_, hf.served⟩,
    fun b' => ⟨nofun, ?_⟩, fun b' w' idx' hb' => ?_, fun b' hb' => ?_, fun b' w' idx' hb' hc => ?_⟩
  -- The heads in flight are those before and this one, on both sides.
  · rw [hperm.mem_iff, List.mem_cons, hf.mem]
    constructor
    · rintro (rfl | ⟨b', w', idx', hb', rfl, hd⟩)
      · exact ⟨b, write, idx, hself, rfl, hdisk⟩
      · refine ⟨b', w', idx', ?_, rfl, hd⟩
        rw [hphase b', hb']
        rintro rfl
        rw [hb] at hb'
        cases hb'
    · rintro ⟨b', w', idx', hb', rfl, hd⟩
      by_cases hbb : b' = b
      · rw [hbb, hself] at hb'
        cases hb'
        exact Or.inl rfl
      · rw [hphase b' hbb] at hb'
        exact Or.inr ⟨b', w', idx', hb', rfl, hd⟩
  · rw [List.append_assoc, List.singleton_append] at hx
    rcases List.mem_append.mp hx with hin | hin
    · exact hf.fresh x (List.mem_append_left _ hin)
    · rcases List.mem_cons.mp hin with rfl | hin
      · exact hstatus
      · exact hf.fresh x (List.mem_append_right _ hin)
  · rintro ⟨w', idx', hb'⟩
    have hbb : b' ≠ b := by
      rintro rfl
      rw [hself] at hb'
      cases hb'
    rw [hphase b' hbb] at hb'
    exact absurd (hnone b' ((h.lock b').mpr ⟨w', idx', hb'⟩)) hbb
  · have hbb : b' ≠ b := by
      rintro rfl
      rw [hself] at hb'
      cases hb'
    rw [hphase b' hbb] at hb'
    exact absurd (hnone b' ((h.lock b').mpr ⟨w', idx', hb'⟩)) hbb
  · rw [hframe] at hb'
    exact h.calm b' hb'
  · by_cases hbb : b' = b
    · rw [hbb] at hc
      exact absurd (hdisk.symm.trans hc) nofun
    · rw [hphase b' hbb] at hb'
      exact h.reaped b' w' idx' hb' hc

/-- A call finds no descriptors. -/
theorem Inv.sleep (h : Inv s) (hd : SameButFree s.disk d) : Inv { s with disk := d } := by
  have hchains : Chains { s with disk := d } := by
    refine ⟨fun b w idx hb => ?_, h.chains.disjoint, fun i hi hbusy => h.chains.owned i hi ?_⟩
    · have hform := h.chains.formatted b w idx hb
      refine hform.congr (fun i _ => by rw [hd.free]) (fun i hi => hd.desc i (hform.busy i hi))
        ?_ ?_
      · rw [hd.ops]
      · rw [hd.info]
    · rw [← hd.free]
      exact hbusy
  obtain ⟨pend, done, hf⟩ := h.flight
  have hflight : Flight { s with disk := d } pend done := by
    refine hf.move ?_ ?_ (List.Perm.refl _) rfl (fun _ => rfl) ?_ ?_
    · show RingHolds num (2 ^ 16) d.avail.ring s.seen d.avail.idx pend
      rw [hd.avail]
      exact hf.avail
    · show RingHolds num (2 ^ 16) d.used.ring d.usedIdx d.used.idx done
      rw [hd.used, hd.usedIdx]
      exact hf.used
    · show ∀ h ∈ pend ++ s.taken, (d.info h).status = 0xff
      rw [hd.info]
      exact hf.fresh
    · show ∀ h ∈ s.served ++ done, (d.info h).status = 0 ∨ (d.info h).status = 1
      rw [hd.info]
      exact hf.served
  refine h.keep rfl hchains ⟨pend, done, hflight⟩ (fun _ => Iff.rfl) hd.avail (fun b w idx _ => ?_)
    (fun _ _ _ _ => rfl) (fun _ => id) fun b w idx hb hc => ?_
  · show (d.info idx.head).status = (s.disk.info idx.head).status
    rw [hd.info]
  · show (d.info idx.head).status = 0
    rw [hd.info]
    exact h.reaped b w idx hb hc

theorem Disk.free_take (hnodup : idx.toList.Nodup) (i : Nat) :
    (d.take idx).free i = (!decide (i ∈ idx.toList) && d.free i) := by
  obtain ⟨h₁, h₂, h₃⟩ := Idx.nodup_iff.mp hnodup
  by_cases hi : i ∈ idx.toList
  · rw [decide_eq_true hi]
    rcases Idx.mem_iff.mp hi with rfl | rfl | rfl
    · exact (Function.update_of_ne h₂ ..).trans ((Function.update_of_ne h₁ ..).trans
        (Function.update_self ..))
    · exact (Function.update_of_ne h₃ ..).trans (Function.update_self ..)
    · exact Function.update_self ..
  · rw [decide_eq_false hi]
    rw [Idx.mem_iff, not_or, not_or] at hi
    exact (Function.update_of_ne hi.2.2 ..).trans ((Function.update_of_ne hi.2.1 ..).trans
      (Function.update_of_ne hi.1 ..))

/-- The chain is written. -/
theorem formatted_format {blockno : Nat} (hfree : ∀ i ∈ idx.toList, i < num ∧ d.free i = true)
    (hnodup : idx.toList.Nodup) :
    Formatted (format (d.take idx) b blockno write idx) b blockno write idx := by
  obtain ⟨h₁, h₂, h₃⟩ := Idx.nodup_iff.mp hnodup
  refine ⟨fun i hi => (hfree i hi).1, hnodup, fun i hi => ?_, ?_, ?_, ?_, ?_, ?_⟩
  · exact (Disk.free_take hnodup i).trans (by rw [decide_eq_true hi]; rfl)
  · exact (Function.update_of_ne h₂ ..).trans ((Function.update_of_ne h₁ ..).trans
      (Function.update_self ..))
  · exact (Function.update_of_ne h₃ ..).trans (Function.update_self ..)
  · exact Function.update_self ..
  · exact Function.update_self ..
  · show (Function.update d.info idx.head { b := some b, status := 0xff } idx.head).b = some b
    rw [Function.update_self]

/-- Another chain is as before. -/
theorem Formatted.format {b' : B} {blockno blockno' : Nat} {write' : Bool}
    (h : Formatted d b blockno write idx)
    (hfree : ∀ i ∈ idx'.toList, d.free i = true) (hnodup : idx'.toList.Nodup) :
    Formatted (format (d.take idx') b' blockno' write' idx') b blockno write idx := by
  have hne : ∀ i ∈ idx.toList, ∀ j ∈ idx'.toList, i ≠ j := by
    rintro i hi j hj rfl
    have hbusy := h.busy i hi
    rw [hfree i hj] at hbusy
    cases hbusy
  have hmem₀ : idx'.head ∈ idx'.toList := idx'.head_mem
  have hmem₁ : idx'.data ∈ idx'.toList := Idx.mem_iff.mpr (Or.inr (Or.inl rfl))
  have hmem₂ : idx'.status ∈ idx'.toList := Idx.mem_iff.mpr (Or.inr (Or.inr rfl))
  refine h.congr (fun i hi => ?_) (fun i hi => ?_) ?_ ?_
  · refine (Disk.free_take hnodup i).trans ?_
    rw [decide_eq_false fun hc => hne i hi i hc rfl]
    rfl
  · exact (Function.update_of_ne (hne i hi _ hmem₂) ..).trans
      ((Function.update_of_ne (hne i hi _ hmem₁) ..).trans
      (Function.update_of_ne (hne i hi _ hmem₀) ..))
  · exact Function.update_of_ne (hne _ idx.head_mem _ hmem₀) ..
  · exact congrArg Info.b (Function.update_of_ne (hne _ idx.head_mem _ hmem₀) ..)

/-- What `virtio_disk_rw` does up to where it tells the device of the chain, or sleeps. -/
theorem State.start_eq (s : State B S) (b : B) (write : Bool) :
    (∃ d, SameButFree s.disk d ∧ s.start b write = .ok { s with disk := d }) ∨
    ∃ idx : Idx, (∀ i ∈ idx.toList, i < num ∧ s.disk.free i = true) ∧ idx.toList.Nodup ∧
      s.start b write = .ok (({ s with
        disk := format (s.disk.take idx) b (s.buf b).blockno write idx
        lock := some (.rw b) }.setBuf b { s.buf b with disk := true }).setPhase b
          (.formatted write idx)) := by
  unfold start
  rcases alloc3Desc_spec s.disk with ⟨d, halloc, hd⟩ | ⟨idx, hfree, hnodup, halloc⟩
  · rw [halloc]
    exact Or.inl ⟨d, hd, rfl⟩
  · rw [halloc]
    exact Or.inr ⟨idx, hfree, hnodup, rfl⟩

/-- What changes where a call puts its chain on the ring. -/
structure Formats (s : State B S) (b : B) (write : Bool) (idx : Idx) (s' : State B S) : Prop where
  disk : s'.disk = Virtio.format (s.disk.take idx) b (s.buf b).blockno write idx
  self : s'.phase b = .formatted write idx
  phase : ∀ b', b' ≠ b → s'.phase b' = s.phase b'
  buf : ∀ b', b' ≠ b → s'.buf b' = s.buf b'
  waits : s'.buf b = { s.buf b with disk := true }
  taken : s'.taken = s.taken
  served : s'.served = s.served
  seen : s'.seen = s.seen
  lock : s'.lock = some (.rw b)

theorem formats (s : State B S) (b : B) (write : Bool) (idx : Idx) :
    Formats s b write idx (({ s with
      disk := format (s.disk.take idx) b (s.buf b).blockno write idx
      lock := some (.rw b) }.setBuf b { s.buf b with disk := true }).setPhase b
        (.formatted write idx)) where
  disk := rfl
  self := State.phase_setPhase
  phase _ hne := State.phase_setPhase_of_ne hne
  buf _ hne := State.buf_setBuf_of_ne hne
  waits := State.buf_setBuf
  taken := rfl
  served := rfl
  seen := rfl
  lock := rfl

/-- A call that has a chain is another one, and has other descriptors. -/
theorem Inv.apart (h : Inv s) (hb : s.phase b = .asked write)
    (hfree : ∀ i ∈ idx.toList, i < num ∧ s.disk.free i = true) {w : Bool}
    (hb' : (s.phase b').frame = some (w, idx')) : b' ≠ b ∧ ∀ x ∈ idx'.toList, x ∉ idx.toList := by
  refine ⟨?_, fun x hx hc => ?_⟩
  · rintro rfl
    rw [hb] at hb'
    cases hb'
  · have hbusy := (h.chains.formatted b' w idx' hb').busy x hx
    rw [(hfree x hc).2] at hbusy
    cases hbusy

theorem Inv.head_ne (h : Inv s) (hb : s.phase b = .asked write)
    (hfree : ∀ i ∈ idx.toList, i < num ∧ s.disk.free i = true) {w : Bool}
    (hb' : (s.phase b').frame = some (w, idx')) : idx'.head ≠ idx.head := fun hc =>
  (h.apart hb hfree hb').2 idx'.head idx'.head_mem (hc ▸ idx.head_mem)

/-- Only the head of the chain has other `info`. -/
theorem Formats.info (hf : Formats s b write idx s') {x : Nat} (hne : x ≠ idx.head) :
    s'.disk.info x = s.disk.info x := by
  rw [hf.disk]
  exact Function.update_of_ne hne ..

/-- The new chain has the descriptors that were free. -/
theorem Formats.chains (hf : Formats s b write idx s') (h : Inv s) (hb : s.phase b = .asked write)
    (hfree : ∀ i ∈ idx.toList, i < num ∧ s.disk.free i = true) (hnodup : idx.toList.Nodup) :
    Chains s' := by
  refine ⟨fun b' w i hb' => ?_, fun b₁ b₂ w₁ w₂ i₁ i₂ x h₁ h₂ hx₁ hx₂ => ?_, fun x hx hbusy => ?_⟩
  · rw [hf.disk]
    by_cases hbb : b' = b
    · subst hbb
      rw [hf.self] at hb'
      cases hb'
      rw [hf.waits]
      exact formatted_format hfree hnodup
    · rw [hf.phase b' hbb] at hb'
      rw [hf.buf b' hbb]
      exact (h.chains.formatted b' w i hb').format (fun j hj => (hfree j hj).2) hnodup
  · by_cases hb₁ : b₁ = b <;> by_cases hb₂ : b₂ = b
    · rw [hb₁, hb₂]
    · rw [hb₁, hf.self] at h₁
      cases h₁
      rw [hf.phase b₂ hb₂] at h₂
      exact absurd hx₁ ((h.apart hb hfree h₂).2 x hx₂)
    · rw [hb₂, hf.self] at h₂
      cases h₂
      rw [hf.phase b₁ hb₁] at h₁
      exact absurd hx₂ ((h.apart hb hfree h₁).2 x hx₁)
    · rw [hf.phase b₁ hb₁] at h₁
      rw [hf.phase b₂ hb₂] at h₂
      exact h.chains.disjoint b₁ b₂ w₁ w₂ i₁ i₂ x h₁ h₂ hx₁ hx₂
  · by_cases hin : x ∈ idx.toList
    · exact ⟨b, write, idx, by rw [hf.self]; rfl, hin⟩
    · have hold : (s.disk.take idx).free x = false := by
        rw [hf.disk] at hbusy
        exact hbusy
      rw [Disk.free_take hnodup, decide_eq_false hin] at hold
      obtain ⟨b', w, i, hb', hmem⟩ := h.chains.owned x hx hold
      exact ⟨b', w, i, by rw [hf.phase b' (h.apart hb hfree hb').1]; exact hb', hmem⟩

/-- The ring has room for the chain, since its head was free. -/
theorem Inv.pend_lt {pend done : List Nat} (h : Inv s) (hflight : Flight s pend done)
    (hb : s.phase b = .asked write)
    (hfree : ∀ i ∈ idx.toList, i < num ∧ s.disk.free i = true) : pend.length < num := by
  have hpend : pend ⊆ s.live pend done := fun x hx => List.mem_append_left _ hx
  refine hflight.length_lt h.chains hpend (List.nodup_cons.mpr ⟨fun hc => ?_,
    (List.nodup_append.mp hflight.nodup).1⟩) (hfree _ idx.head_mem).1
  obtain ⟨b', w, i, hb', hi, -⟩ := hflight.waiting (hpend hc)
  exact h.head_ne hb hfree (Phase.frame_waiting hb') hi

/-- The device has not seen the new chain yet. -/
theorem Formats.flight {pend done : List Nat} (hf : Formats s b write idx s') (h : Inv s)
    (hflight : Flight s pend done)
    (hb : s.phase b = .asked write) (hfree : ∀ i ∈ idx.toList, i < num ∧ s.disk.free i = true) :
    Flight s' pend done := by
  have hinfo : ∀ x ∈ s.live pend done, s'.disk.info x = s.disk.info x := by
    intro x hx
    obtain ⟨b', w, i, hb', rfl, -⟩ := hflight.waiting hx
    exact hf.info (h.head_ne hb hfree (Phase.frame_waiting hb'))
  have hsame : s'.live pend done = s.live pend done := by
    unfold State.live
    rw [hf.taken, hf.served]
  refine ⟨?_, ?_, by rw [hsame]; exact hflight.nodup, fun x => ?_, fun x hx => ?_, fun x hx => ?_⟩
  · rw [hf.disk, hf.seen]
    exact hflight.avail.write (by decide) (h.pend_lt hflight hb hfree) idx.head
  · rw [hf.disk]
    exact hflight.used
  · rw [hsame, hflight.mem]
    constructor
    · rintro ⟨b', w, i, hb', rfl, hd⟩
      have hbb := (h.apart hb hfree (Phase.frame_waiting hb')).1
      exact ⟨b', w, i, by rw [hf.phase b' hbb, hb'], rfl, by rw [hf.buf b' hbb]; exact hd⟩
    · rintro ⟨b', w, i, hb', rfl, hd⟩
      have hbb : b' ≠ b := by
        rintro rfl
        rw [hf.self] at hb'
        cases hb'
      rw [hf.phase b' hbb] at hb'
      rw [hf.buf b' hbb] at hd
      exact ⟨b', w, i, hb', rfl, hd⟩
  · rw [hf.taken] at hx
    have hin : x ∈ s.live pend done := by
      rcases List.mem_append.mp hx with hin | hin
      · exact List.mem_append_left _ hin
      · exact List.mem_append_right _ (List.mem_append_left _ hin)
    rw [hinfo x hin]
    exact hflight.fresh x hx
  · rw [hf.served] at hx
    rw [hinfo x (List.mem_append_right _ (List.mem_append_right _ hx))]
    exact hflight.served x hx

/-- A call puts its chain on the ring. -/
theorem Inv.format (h : Inv s) (hb : s.phase b = .asked write) (hlock : s.lock = none)
    (hfree : ∀ i ∈ idx.toList, i < num ∧ s.disk.free i = true) (hnodup : idx.toList.Nodup) :
    Inv (({ s with
      disk := format (s.disk.take idx) b (s.buf b).blockno write idx
      lock := some (.rw b) }.setBuf b { s.buf b with disk := true }).setPhase b
        (.formatted write idx)) := by
  have hf := formats s b write idx
  generalize ({ s with
    disk := Virtio.format (s.disk.take idx) b (s.buf b).blockno write idx
    lock := some (.rw b) }.setBuf b { s.buf b with disk := true }).setPhase b
      (.formatted write idx) = s' at hf ⊢
  obtain ⟨pend, done, hflight⟩ := h.flight
  -- no other call has the lock
  have hnone : ∀ b' w i, s.phase b' ≠ .formatted w i := fun b' w i hb' => by
    have hheld := (h.lock b').mpr ⟨w, i, hb'⟩
    rw [hlock] at hheld
    cases hheld
  refine ⟨hf.chains h hb hfree hnodup, ⟨pend, done, hf.flight h hflight hb hfree⟩, fun b' => ?_,
    fun b' w i hb' => ?_, fun b' hb' => ?_, fun b' w i hb' hc => ?_⟩
  · rw [hf.lock]
    constructor
    · intro hc
      cases hc
      exact ⟨write, idx, hf.self⟩
    · rintro ⟨w, i, hb'⟩
      by_cases hbb : b' = b
      · rw [hbb]
      · rw [hf.phase b' hbb] at hb'
        exact absurd hb' (hnone b' w i)
  · by_cases hbb : b' = b
    · subst hbb
      rw [hf.self] at hb'
      cases hb'
      rw [hf.disk, hf.waits]
      refine ⟨Function.update_self .., ?_, rfl⟩
      show (Function.update s.disk.info idx.head { b := some b', status := 0xff } idx.head).status =
        0xff
      rw [Function.update_self]
    · rw [hf.phase b' hbb] at hb'
      exact absurd hb' (hnone b' w i)
  · have hbb : b' ≠ b := by
      rintro rfl
      rw [hf.self] at hb'
      cases hb'
    rw [hf.phase b' hbb] at hb'
    rw [hf.buf b' hbb]
    exact h.calm b' hb'
  · have hbb : b' ≠ b := by
      rintro rfl
      rw [hf.self] at hb'
      cases hb'
    rw [hf.phase b' hbb] at hb'
    rw [hf.buf b' hbb] at hc
    rw [hf.info (h.head_ne hb hfree (Phase.frame_waiting hb'))]
    exact h.reaped b' w i hb' hc

/-- What the end of `virtio_disk_rw` does. -/
theorem Inv.finish_eq (h : Inv s) (hb : s.phase b = .waiting write idx) : ∃ d : Disk B,
    s.finish b idx = .ok ({ s with disk := d }.setPhase b .idle) ∧
    (∀ i, d.free i = (decide (i ∈ idx.toList) || s.disk.free i)) ∧
    (∀ i ∉ idx.toList, d.desc i = s.disk.desc i) ∧
    d.avail = s.disk.avail ∧ d.used = s.disk.used ∧ d.usedIdx = s.disk.usedIdx ∧
    d.ops = s.disk.ops ∧ (∀ i ≠ idx.head, d.info i = s.disk.info i) := by
  have hform := h.chains.formatted b write idx (Phase.frame_waiting hb)
  let info := Function.update s.disk.info idx.head { s.disk.info idx.head with b := none }
  obtain ⟨d, hchain, hfree, hdesc, havail, hused, hidx, hinfo, hops⟩ :=
    hform.freeChain (show ({ s.disk with info := info } : Disk B).desc = s.disk.desc from rfl) rfl
  refine ⟨d, congrArg (Except.map fun d => State.setPhase { s with disk := d } b .idle) hchain,
    hfree, hdesc, havail, hused, hidx, hops, fun i hi => ?_⟩
  rw [hinfo]
  exact Function.update_of_ne hi ..

/-- A call ends. -/
theorem Inv.finish (h : Inv s) (hb : s.phase b = .waiting write idx)
    (hdisk : (s.buf b).disk = false) (hfinish : s.finish b idx = .ok s') : Inv s' := by
  obtain ⟨d, heq, hfree, hdesc, havail, hused, hidx, hops, hinfo⟩ := h.finish_eq hb
  obtain rfl := Except.ok.inj (heq.symm.trans hfinish)
  have hphase : ∀ b', b' ≠ b → ({ s with disk := d }.setPhase b .idle).phase b' = s.phase b' :=
    fun b' hne =>
    State.phase_setPhase_of_ne hne
  have hself : ({ s with disk := d }.setPhase b .idle).phase b = .idle := State.phase_setPhase
  have hframe := Phase.frame_waiting hb
  -- the chains of the others have other descriptors
  have hother : ∀ b' w i, (s.phase b').frame = some (w, i) → b' ≠ b → ∀ x ∈ i.toList, x ∉
    idx.toList :=
    fun b' w i hb' hne x hx hc => hne (h.chains.disjoint b' b w write i idx x hb' hframe hx hc)
  have hhead : ∀ b' w i, (s.phase b').frame = some (w, i) → b' ≠ b → i.head ≠ idx.head :=
    fun b' w i hb' hne hc =>
    hne (h.chains.head_inj hb' hframe hc)
  have hchains : Chains ({ s with disk := d }.setPhase b .idle) := by
    refine ⟨fun b' w i hb' => ?_, fun b₁ b₂ w₁ w₂ i₁ i₂ x h₁ h₂ hx₁ hx₂ => ?_, fun x hx hbusy => ?_⟩
    · have hbb : b' ≠ b := by
        rintro rfl
        rw [hself] at hb'
        cases hb'
      rw [hphase b' hbb] at hb'
      refine (h.chains.formatted b' w i hb').congr (fun x hx => (hfree x).trans ?_)
        (fun x hx => hdesc x (hother b' w i hb' hbb x hx)) (congrFun hops _)
        (congrArg Info.b (hinfo _ (hhead b' w i hb' hbb)))
      rw [decide_eq_false (hother b' w i hb' hbb x hx), Bool.false_or]
    · have hb₁ : b₁ ≠ b := by
        rintro rfl
        rw [hself] at h₁
        cases h₁
      have hb₂ : b₂ ≠ b := by
        rintro rfl
        rw [hself] at h₂
        cases h₂
      rw [hphase b₁ hb₁] at h₁
      rw [hphase b₂ hb₂] at h₂
      exact h.chains.disjoint b₁ b₂ w₁ w₂ i₁ i₂ x h₁ h₂ hx₁ hx₂
    · have hold := (hfree x).symm.trans hbusy
      rw [Bool.or_eq_false_iff, decide_eq_false_iff_not] at hold
      obtain ⟨b', w, i, hb', hmem⟩ := h.chains.owned x hx hold.2
      have hbb : b' ≠ b := by
        rintro rfl
        rw [hframe] at hb'
        cases hb'
        exact hold.1 hmem
      exact ⟨b', w, i, by rw [hphase b' hbb]; exact hb', hmem⟩
  obtain ⟨pend, done, hf⟩ := h.flight
  have hlive : ∀ x ∈ s.live pend done, x ≠ idx.head := by
    rintro x hx rfl
    obtain ⟨b', w, i, hb', heq', hd⟩ := hf.waiting hx
    obtain rfl := h.chains.head_inj (Phase.frame_waiting hb') hframe heq'
    rw [hdisk] at hd
    cases hd
  have hflight : Flight ({ s with disk := d }.setPhase b .idle) pend done := by
    refine ⟨?_, ?_, hf.nodup, fun x => ?_, fun x hx => ?_, fun x hx => ?_⟩
    · show RingHolds num (2 ^ 16) d.avail.ring s.seen d.avail.idx pend
      rw [havail]
      exact hf.avail
    · show RingHolds num (2 ^ 16) d.used.ring d.usedIdx d.used.idx done
      rw [hused, hidx]
      exact hf.used
    · refine (hf.mem x).trans ⟨?_, ?_⟩
      · rintro ⟨b', w, i, hb', hx, hd⟩
        have hbb : b' ≠ b := by
          rintro rfl
          rw [hdisk] at hd
          cases hd
        exact ⟨b', w, i, by rw [hphase b' hbb, hb'], hx, hd⟩
      · rintro ⟨b', w, i, hb', hx, hd⟩
        have hbb : b' ≠ b := by
          rintro rfl
          rw [hself] at hb'
          cases hb'
        rw [hphase b' hbb] at hb'
        exact ⟨b', w, i, hb', hx, hd⟩
    · have hin : x ∈ s.live pend done := by
        rcases List.mem_append.mp hx with hin | hin
        · exact List.mem_append_left _ hin
        · exact List.mem_append_right _ (List.mem_append_left _ hin)
      exact (congrArg Info.status (hinfo x (hlive x hin))).trans (hf.fresh x hx)
    · have hin : x ∈ s.live pend done := List.mem_append_right _ (List.mem_append_right _ hx)
      show (d.info x).status = 0 ∨ (d.info x).status = 1
      rw [hinfo x (hlive x hin)]
      exact hf.served x hx
  have hformatted : ∀ b' w i, ({ s with disk := d }.setPhase b .idle).phase b' = .formatted w i ↔
      s.phase b' = .formatted w i := by
    intro b' w i
    by_cases hbb : b' = b
    · rw [hbb, hself, hb]
      exact ⟨nofun, nofun⟩
    · rw [hphase b' hbb]
  refine ⟨hchains, ⟨pend, done, hflight⟩, fun b' => ?_, fun b' w i hb' => ?_, fun b' hb' => ?_,
    fun b' w i hb' hc => ?_⟩
  · simp only [hformatted]
    exact h.lock b'
  · have hold := (hformatted b' w i).mp hb'
    have hbb : b' ≠ b := by
      rintro rfl
      rw [hself] at hb'
      cases hb'
    obtain ⟨hslot, hstatus, hd⟩ := h.slot b' w i hold
    refine ⟨?_, (congrArg Info.status (hinfo _ (hhead b' w i (Phase.frame_formatted hold)
      hbb))).trans hstatus, hd⟩
    show d.avail.ring (d.avail.idx % num) = i.head
    rw [havail]
    exact hslot
  · by_cases hbb : b' = b
    · rw [hbb]
      exact hdisk
    · rw [hphase b' hbb] at hb'
      exact h.calm b' hb'
  · have hbb : b' ≠ b := by
      rintro rfl
      rw [hself] at hb'
      cases hb'
    rw [hphase b' hbb] at hb'
    exact (congrArg Info.status (hinfo _ (hhead b' w i (Phase.frame_waiting hb') hbb))).trans
      (h.reaped b' w i hb' hc)

/-! ## Events -/

section

variable {r : Except Panic (State B S)} {ok : Bool}

theorem exec_start (hexec : exec s (.start b) = some r) :
    ∃ write, s.phase b = .asked write ∧ s.lock = none ∧ r = s.start b write := by
  rw [exec] at hexec
  cases hb : s.phase b with
  | asked write =>
    rw [hb] at hexec
    obtain ⟨hlock, hr⟩ := Option.ite_none_right_eq_some.mp hexec
    exact ⟨write, rfl, hlock, (Option.some.inj hr).symm⟩
  | _ =>
    rw [hb] at hexec
    cases hexec

theorem exec_notify (hexec : exec s (.notify b) = some r) :
    ∃ write idx, s.phase b = .formatted write idx ∧ r = .ok (s.notify b write idx) := by
  rw [exec] at hexec
  cases hb : s.phase b with
  | formatted write idx =>
    rw [hb] at hexec
    exact ⟨write, idx, rfl, (Option.some.inj hexec).symm⟩
  | _ =>
    rw [hb] at hexec
    cases hexec

theorem exec_finish (hexec : exec s (.finish b) = some r) :
    ∃ write idx, s.phase b = .waiting write idx ∧
    s.lock = none ∧ (s.buf b).disk = false ∧ r = s.finish b idx := by
  rw [exec] at hexec
  cases hb : s.phase b with
  | waiting write idx =>
    rw [hb] at hexec
    obtain ⟨⟨hlock, hdisk⟩, hr⟩ := Option.ite_none_right_eq_some.mp hexec
    exact ⟨write, idx, rfl, hlock, hdisk, (Option.some.inj hr).symm⟩
  | _ =>
    rw [hb] at hexec
    cases hexec

theorem exec_transfer (hexec : exec s (.transfer h b ok) = some r) : h ∈ s.taken ∧
    ∃ chain, readChain s.disk h = some chain ∧ chain.b = b ∧ r = .ok (s.transfer h chain ok) := by
  obtain ⟨hmem, hbind⟩ := Option.ite_none_right_eq_some.mp hexec
  obtain ⟨chain, hchain, hif⟩ := Option.bind_eq_some_iff.mp hbind
  obtain ⟨hb, hr⟩ := Option.ite_none_right_eq_some.mp hif
  exact ⟨hmem, chain, hchain, hb, (Option.some.inj hr).symm⟩

/-- **Every step keeps the invariant.** -/
theorem Inv.step (h : Inv s) {e : Event B S} (hstep : Step s e s') : Inv s' := by
  cases e with
  | call b write =>
    obtain ⟨hb, hs'⟩ := Option.ite_none_right_eq_some.mp hstep
    cases hs'
    exact h.call hb
  | start b =>
    obtain ⟨write, hb, hlock, hs'⟩ := exec_start hstep
    rcases s.start_eq b write with ⟨d, hd, heq⟩ | ⟨idx, hfree, hnodup, heq⟩
    · cases hs'.trans heq
      exact h.sleep hd
    · cases hs'.trans heq
      exact h.format hb hlock hfree hnodup
  | notify b =>
    obtain ⟨write, idx, hb, hs'⟩ := exec_notify hstep
    cases hs'
    exact h.notify hb
  | finish b =>
    obtain ⟨write, idx, hb, hlock, hdisk, hs'⟩ := exec_finish hstep
    exact h.finish hb hdisk hs'.symm
  | intr =>
    obtain ⟨hlock, hs'⟩ := Option.ite_none_right_eq_some.mp hstep
    cases hs'
    exact h.setLock (fun b => by rw [hlock]; exact nofun) nofun
  | reap =>
    obtain ⟨⟨hlock, hne⟩, hs'⟩ := Option.ite_none_right_eq_some.mp hstep
    exact h.reap hne (Option.some.inj hs')
  | intrEnd =>
    obtain ⟨⟨hlock, -⟩, hs'⟩ := Option.ite_none_right_eq_some.mp hstep
    cases hs'
    exact h.setLock (fun b => by rw [hlock]; exact nofun) nofun
  | fetch =>
    obtain ⟨hne, hs'⟩ := Option.ite_none_right_eq_some.mp hstep
    cases hs'
    exact h.fetch hne
  | transfer i b ok =>
    obtain ⟨hmem, chain, hchain, -, hs'⟩ := exec_transfer hstep
    cases hs'
    exact h.transfer hmem hchain ok
  | post i =>
    obtain ⟨hmem, hs'⟩ := Option.ite_none_right_eq_some.mp hstep
    cases hs'
    exact h.post hmem
  | edit b blockno data =>
    obtain ⟨hb, hs'⟩ := Option.ite_none_right_eq_some.mp hstep
    cases hs'
    exact h.edit hb blockno data

theorem Boot.inv (h : Boot s) : Inv s := by
  have hframe : ∀ b, (s.phase b).frame = none := fun b => by rw [h.phase b]; rfl
  have hno : ∀ {b write idx}, (s.phase b).frame ≠ some (write, idx) := fun {b write idx} hc => by
    rw [hframe b] at hc
    cases hc
  have hlive : s.live [] [] = [] := by
    unfold State.live
    rw [h.taken, h.served]
    rfl
  have hflight : Flight s [] [] := by
    refine ⟨?_, ?_, by rw [hlive]; exact List.nodup_nil, fun x => ?_, fun x hx => ?_,
      fun x hx => ?_⟩
    · rw [h.avail, h.seen]
      exact .nil (by decide) _
    · rw [h.used, h.usedIdx]
      exact .nil (by decide) _
    · rw [hlive]
      exact ⟨fun hc => absurd hc List.not_mem_nil, fun ⟨b, w, i, hb, _⟩ => absurd
        (Phase.frame_waiting hb) hno⟩
    · rw [h.taken] at hx
      cases hx
    · rw [h.served] at hx
      cases hx
  refine ⟨⟨fun b w i hb => absurd hb hno, fun b b' w w' i i' x hb => absurd hb hno,
    fun i hi hbusy => ?_⟩,
    ⟨[], [], hflight⟩, fun b => ⟨fun hc => ?_, fun ⟨w, i, hb⟩ => absurd (Phase.frame_formatted hb)
     hno⟩,
    fun b w i hb => absurd (Phase.frame_formatted hb) hno, fun b _ => h.disk b,
    fun b w i hb => absurd (Phase.frame_waiting hb) hno⟩
  · rw [h.free i hi] at hbusy
    cases hbusy
  · rw [h.lock] at hc
    cases hc

/-! ## Each request in one step -/

theorem request_of_frame (hb : (s.phase b).frame = some (write, idx)) : s.request b =
    if (s.disk.info idx.head).status = 0xff then .asked write
    else if (s.disk.info idx.head).status = 0 then .done else .failed := by
  unfold State.request
  cases hphase : s.phase b with
  | idle =>
    rw [hphase] at hb
    cases hb
  | asked w =>
    rw [hphase] at hb
    cases hb
  | formatted w i =>
    rw [hphase] at hb
    cases hb
    rfl
  | waiting w i =>
    rw [hphase] at hb
    cases hb
    rfl

theorem request_congr (hphase : s'.phase b = s.phase b) (hstatus : ∀ write idx,
    (s.phase b).frame = some
    (write, idx) → (s'.disk.info idx.head).status = (s.disk.info idx.head).status) :
    s'.request b = s.request b := by
  cases hframe : (s.phase b).frame with
  | some f =>
    obtain ⟨w, i⟩ := f
    rw [request_of_frame hframe, request_of_frame (hphase ▸ hframe), hstatus w i hframe]
  | none =>
    unfold State.request
    rw [hphase]
    cases hb : s.phase b with
    | idle => rfl
    | asked w => rfl
    | formatted w i =>
      rw [hb] at hframe
      cases hframe
    | waiting w i =>
      rw [hb] at hframe
      cases hframe

theorem atomic_congr (hsectors : s'.sectors = s.sectors)
    (hblock : ∀ b, (s'.buf b).blockno = (s.buf b).blockno)
    (hdata : ∀ b, (s'.buf b).data = (s.buf b).data) (hrequest : ∀ b, s'.request b = s.request b) :
    s'.atomic = s.atomic := by
  unfold State.atomic
  rw [hsectors, funext hblock, funext hdata, funext hrequest]

/-- A request goes on to another phase, and all else is as before. -/
theorem atomic_setPhase {phase : Atomic.Phase} (hself : s'.request b = phase)
    (hother : ∀ b' ≠ b, s'.request b' = s.request b') (hsectors : s'.sectors = s.sectors)
    (hblock : ∀ b, (s'.buf b).blockno = (s.buf b).blockno)
    (hdata : ∀ b, (s'.buf b).data = (s.buf b).data) : s'.atomic = s.atomic.setPhase b phase := by
  have hrequest : s'.request = Function.update s.request b phase := by
    funext b'
    by_cases hbb : b' = b
    · rw [hbb, Function.update_self, hself]
    · rw [Function.update_of_ne hbb, hother b' hbb]
  unfold State.atomic Atomic.State.setPhase
  rw [hsectors, funext hblock, funext hdata, hrequest]

/-- To take descriptors for a chain, or to sleep for them, does nothing to the requests. -/
theorem Inv.start_atomic (h : Inv s) (hb : s.phase b = .asked write)
    (hstart : s.start b write = .ok s') : s'.atomic = s.atomic := by
  rcases s.start_eq b write with ⟨d, hd, heq⟩ | ⟨idx, hfree, hnodup, heq⟩
  · cases hstart.symm.trans heq
    refine atomic_congr rfl (fun _ => rfl) (fun _ => rfl) fun b' =>
      request_congr rfl fun w i _ => ?_
    show (d.info i.head).status = (s.disk.info i.head).status
    rw [hd.info]
  · cases hstart.symm.trans heq
    have hbuf : ∀ b', b' ≠ b → (({ s with
        disk := Virtio.format (s.disk.take idx) b (s.buf b).blockno write idx
        lock := some (.rw b) }.setBuf b { s.buf b with disk := true }).setPhase b
        (.formatted write idx)).buf b' = s.buf b' := fun b' hne => State.buf_setBuf_of_ne hne
    have hbself : (({ s with
        disk := Virtio.format (s.disk.take idx) b (s.buf b).blockno write idx
        lock := some (.rw b) }.setBuf b { s.buf b with disk := true }).setPhase b
        (.formatted write idx)).buf b = { s.buf b with disk := true } := State.buf_setBuf
    refine atomic_congr rfl (fun b' => ?_) (fun b' => ?_) fun b' => ?_
    · by_cases hbb : b' = b
      · rw [hbb, hbself]
      · rw [hbuf b' hbb]
    · by_cases hbb : b' = b
      · rw [hbb, hbself]
      · rw [hbuf b' hbb]
    · by_cases hbb : b' = b
      · subst hbb
        rw [request_of_frame (Phase.frame_formatted State.phase_setPhase)]
        have hstatus : (Function.update s.disk.info idx.head { b := some b', status := 0xff }
          idx.head).status = 0xff := by
          rw [Function.update_self]
        refine (if_pos hstatus).trans ?_
        unfold State.request
        rw [hb]
      · refine request_congr (State.phase_setPhase_of_ne hbb) fun w i hb' => ?_
        have hne : i.head ≠ idx.head := by
          intro hc
          have hbusy := (h.chains.formatted b' w i hb').busy _ i.head_mem
          rw [hc, (hfree _ idx.head_mem).2] at hbusy
          cases hbusy
        exact congrArg Info.status (Function.update_of_ne hne ..)

/-- What the device does for a request is what the disk does in one step. -/
theorem Inv.transfer_atomic (h : Inv s) (hmem : i ∈ s.taken) {chain : Chain B}
    (hchain : readChain s.disk i = some chain) (ok : Bool) :
    Atomic.Step s.atomic (if ok then .perform chain.b else .fail chain.b)
      (s.transfer i chain ok).atomic := by
  obtain ⟨b, w, idx, hb, rfl, -, hfresh, hread⟩ := h.taken hmem
  rw [hread] at hchain
  obtain rfl := Option.some.inj hchain
  have hframe := Phase.frame_waiting hb
  -- The request is still open in the atomic disk, because its status byte has not been written.
  have hasked : s.atomic.phase b = .asked w := (request_of_frame hframe).trans (if_pos hfresh)
  -- A transfer writes the status and leaves every caller where it is.
  have hdisk :
      (s.transfer idx.head
        { write := w, sector := sectorOf (s.buf b).blockno, b := b, status := idx.head } ok).disk =
        s.disk.setStatus idx.head (if ok then 0 else 1) ∧
      (s.transfer idx.head
        { write := w, sector := sectorOf (s.buf b).blockno, b := b, status := idx.head } ok).phase =
        s.phase := by
    obtain ⟨sectors, buf, heq, -⟩ := s.transfer_eq idx.head
      { write := w, sector := sectorOf (s.buf b).blockno, b := b, status := idx.head } ok
    rw [heq]
    exact ⟨rfl, rfl⟩
  generalize hs' : s.transfer idx.head
    { write := w, sector := sectorOf (s.buf b).blockno, b := b, status := idx.head } ok =
    s' at hdisk ⊢
  have hself : s'.request b = if ok then .done else .failed := by
    rw [request_of_frame (show (s'.phase b).frame = some (w, idx) by rw [hdisk.2, hframe]), hdisk.1,
      Disk.info_setStatus]
    cases ok <;> rfl
  have hother : ∀ b' ≠ b, s'.request b' = s.request b' := by
    intro b' hbb
    refine request_congr (by rw [hdisk.2]) fun w' i' hb' => ?_
    rw [hdisk.1, Disk.info_setStatus_of_ne]
    exact fun hc => hbb (h.chains.head_inj hb' hframe hc)
  cases ok with
  -- A failed transfer touches neither disk nor buffer.
  | false =>
    subst hs'
    rw [atomic_setPhase hself hother rfl (fun _ => rfl) fun _ => rfl]
    exact .fail hasked
  | true =>
    have hphase : s'.request = Function.update s.request b .done := by
      funext b'
      by_cases hbb : b' = b
      · rw [hbb, Function.update_self, hself]
        rfl
      · rw [Function.update_of_ne hbb, hother b' hbb]
    have hstep := Atomic.Step.perform hasked
    have hafter : s'.atomic = (if w then s.atomic.writeBlock b
      else s.atomic.readBlock b).setPhase b .done := by
      unfold State.atomic Atomic.State.setPhase
      rw [hphase]
      subst hs'
      cases w with
      | true => rfl
      | false =>
        -- A read fills this buffer and no other.
        have hblock : ∀ b', ((s.setBuf b { s.buf b with
            data := getBlock s.sectors (sectorOf (s.buf b).blockno) }).buf b').blockno =
              (s.buf b').blockno := by
          intro b'
          by_cases hbb : b' = b
          · rw [hbb, State.buf_setBuf]
          · rw [State.buf_setBuf_of_ne hbb]
        have hdata : (fun b' => ((s.setBuf b { s.buf b with
            data := getBlock s.sectors (sectorOf (s.buf b).blockno) }).buf b').data) =
            Function.update (fun b' => (s.buf b').data) b
              (getBlock s.sectors (sectorOf (s.buf b).blockno)) := by
          funext b'
          by_cases hbb : b' = b
          · rw [hbb, State.buf_setBuf, Function.update_self]
          · rw [State.buf_setBuf_of_ne hbb, Function.update_of_ne hbb]
        exact Atomic.State.mk.injEq .. |>.mpr ⟨rfl, funext hblock, hdata, rfl⟩
    rw [hafter]
    exact hstep

/-- A step that is seen from outside is a step of the disk. -/
theorem Inv.visible (h : Inv s) {e : Event B S} {a : Atomic.Event B S} (hstep : Step s e s')
    (ha : e.atomic = some a) : Atomic.Step s.atomic a s'.atomic := by
  cases e with
  | call b write =>
    cases ha
    obtain ⟨hb, hs'⟩ := Option.ite_none_right_eq_some.mp hstep
    cases hs'
    have hidle : s.atomic.phase b = .idle := by
      show s.request b = .idle
      rw [State.request, hb]
    have hself : (s.setPhase b (.asked write)).request b = .asked write := by
      rw [State.request, State.phase_setPhase]
    have hother : ∀ b' ≠ b, (s.setPhase b (.asked write)).request b' = s.request b' := fun b' hbb =>
      request_congr (State.phase_setPhase_of_ne hbb) fun _ _ _ => rfl
    rw [atomic_setPhase hself hother rfl (fun _ => rfl) fun _ => rfl]
    exact .ask hidle
  | finish b =>
    cases ha
    obtain ⟨write, idx, hb, -, hdisk, hs'⟩ := exec_finish hstep
    obtain ⟨d, heq, -, -, -, -, -, -, hinfo⟩ := h.finish_eq hb
    cases hs'.trans heq
    have hdone : s.atomic.phase b = .done := by
      show s.request b = .done
      rw [request_of_frame (Phase.frame_waiting hb), h.reaped b write idx hb hdisk]
      rfl
    -- The descriptors are freed, but the status bytes of the other callers stay what they were.
    have hself : ({ s with disk := d }.setPhase b .idle).request b = .idle := by
      rw [State.request, State.phase_setPhase]
    have hother : ∀ b' ≠ b, ({ s with disk := d }.setPhase b .idle).request b' = s.request b' :=
      fun b' hbb =>
      request_congr (State.phase_setPhase_of_ne hbb) fun w i hb' =>
        congrArg Info.status (hinfo _ fun hc =>
        hbb (h.chains.head_inj hb' (Phase.frame_waiting hb) hc))
    rw [atomic_setPhase hself hother rfl (fun _ => rfl) fun _ => rfl]
    exact .answer hdone
  -- This is where the atomic disk does its work.
  | transfer i b ok =>
    cases ha
    obtain ⟨hmem, chain, hchain, rfl, hs'⟩ := exec_transfer hstep
    cases hs'
    exact h.transfer_atomic hmem hchain ok
  | edit b blockno data =>
    cases ha
    obtain ⟨hb, hs'⟩ := Option.ite_none_right_eq_some.mp hstep
    cases hs'
    have hidle : s.atomic.phase b = .idle := by
      show s.request b = .idle
      rw [State.request, hb]
    have hafter : (s.setBuf b { s.buf b with blockno := blockno, data := data }).atomic =
        { s.atomic with
          blockno := Function.update s.atomic.blockno b blockno
          data := Function.update s.atomic.data b data } := by
      refine Atomic.State.mk.injEq .. |>.mpr ⟨rfl, funext fun b' => ?_, funext fun b' => ?_, rfl⟩
      · by_cases hbb : b' = b
        · rw [hbb, State.buf_setBuf, Function.update_self]
        · rw [State.buf_setBuf_of_ne hbb, Function.update_of_ne hbb]
          rfl
      · by_cases hbb : b' = b
        · rw [hbb, State.buf_setBuf, Function.update_self]
        · rw [State.buf_setBuf_of_ne hbb, Function.update_of_ne hbb]
          rfl
    rw [hafter]
    exact .edit hidle
  | _ => cases ha

/-- The other steps change nothing that is seen from outside. -/
theorem Inv.internal (h : Inv s) {e : Event B S} (hstep : Step s e s') (he : e.atomic = none) :
    s'.atomic = s.atomic := by
  cases e with
  | start b =>
    obtain ⟨write, hb, -, hs'⟩ := exec_start hstep
    exact h.start_atomic hb hs'.symm
  | notify b =>
    obtain ⟨write, idx, hb, hs'⟩ := exec_notify hstep
    cases hs'
    refine atomic_congr rfl (fun _ => rfl) (fun _ => rfl) fun b' => ?_
    by_cases hbb : b' = b
    · have hwaiting : (s.notify b write idx).phase b = .waiting write idx := State.phase_setPhase
      rw [hbb, request_of_frame (Phase.frame_waiting hwaiting),
        request_of_frame (Phase.frame_formatted hb)]
      rfl
    · exact request_congr (State.phase_setPhase_of_ne hbb) fun _ _ _ => rfl
  | intr =>
    obtain ⟨-, hs'⟩ := Option.ite_none_right_eq_some.mp hstep
    cases hs'
    rfl
  | reap =>
    obtain ⟨⟨-, hne⟩, hs'⟩ := Option.ite_none_right_eq_some.mp hstep
    obtain ⟨b, w, idx, -, -, -, rfl⟩ := h.reap_eq hne (Option.some.inj hs')
    refine atomic_congr rfl (fun b' => ?_) (fun b' => ?_) fun _ =>
      request_congr rfl fun _ _ _ => rfl
    · by_cases hbb : b' = b
      · rw [hbb, State.buf_setBuf]
      · rw [State.buf_setBuf_of_ne hbb]
    · by_cases hbb : b' = b
      · rw [hbb, State.buf_setBuf]
      · rw [State.buf_setBuf_of_ne hbb]
  | intrEnd =>
    obtain ⟨-, hs'⟩ := Option.ite_none_right_eq_some.mp hstep
    cases hs'
    rfl
  | fetch =>
    obtain ⟨-, hs'⟩ := Option.ite_none_right_eq_some.mp hstep
    cases hs'
    rfl
  | post i =>
    obtain ⟨-, hs'⟩ := Option.ite_none_right_eq_some.mp hstep
    cases hs'
    rfl
  | _ => cases he

/-- **No step of the driver panics**, but for `virtio_disk_intr` when the device has failed. -/
theorem Inv.no_panic (h : Inv s) {e : Event B S} {p : Panic} (hexec : exec s e = some (.error p)) :
    p = .status ∧ ∃ b, s.request b = .failed := by
  cases e with
  | start b =>
    obtain ⟨write, hb, -, hr⟩ := exec_start hexec
    rcases s.start_eq b write with ⟨d, -, heq⟩ | ⟨idx, -, -, heq⟩
    · cases hr.trans heq
    · cases hr.trans heq
  | notify b =>
    obtain ⟨write, idx, -, hr⟩ := exec_notify hexec
    cases hr
  | finish b =>
    obtain ⟨write, idx, hb, -, -, hr⟩ := exec_finish hexec
    obtain ⟨d, heq, -⟩ := h.finish_eq hb
    cases hr.trans heq
  | reap =>
    obtain ⟨⟨-, hne⟩, hr⟩ := Option.ite_none_right_eq_some.mp hexec
    obtain ⟨b, w, idx, hb, hring, hinfo, hstatus⟩ := h.reaping hne
    have hreap := Option.some.inj hr
    unfold State.reap at hreap
    rw [hring] at hreap
    rcases hstatus with hzero | hone
    · have hok := (if_neg (not_not.mpr hzero)).symm.trans hreap
      rw [hinfo] at hok
      cases hok
    · have hfail : (s.disk.info idx.head).status ≠ 0 := by
        rw [hone]
        exact nofun
      refine ⟨(Except.error.inj ((if_pos hfail).symm.trans hreap)).symm, b, ?_⟩
      rw [request_of_frame (Phase.frame_waiting hb), hone]
      rfl
  | transfer i b ok =>
    obtain ⟨-, chain, -, -, hr⟩ := exec_transfer hexec
    cases hr
  | _ =>
    obtain ⟨-, hr⟩ := Option.ite_none_right_eq_some.mp hexec
    cases hr

end

/-- Three buffers, of the blocks 0 to 2. -/
def bootThree : State (Fin 3) Nat where
  disk := {
    desc _ := {}
    avail := {}
    used := {}
    free _ := true
    usedIdx := 0
    info _ := {}
    ops _ := {} }
  buf b := { blockno := b, disk := false, data := (10 * b, 10 * b + 1) }
  phase _ := .idle
  lock := none
  sectors i := 100 + i
  seen := 0
  taken := []
  served := []

theorem boot_bootThree : Boot bootThree := by
  constructor <;> intros <;> rfl

/-- Two calls are in flight, and a third one sleeps for descriptors; the device serves the
second request first. -/
def threeCalls : List (Event (Fin 3) Nat) :=
  [.call 0 true, .start 0, .notify 0, .call 1 false, .start 1, .call 2 true, .notify 1, .start 2,
    .fetch, .fetch, .transfer 3 1 true, .post 3, .intr, .reap, .intrEnd, .finish 1, .start 2]

theorem run_threeCalls : ∃ s, Run Step bootThree threeCalls s ∧ (s.buf 1).data = (102, 103) ∧
    (s.phase 2).frame = some (true, ⟨3, 4, 5⟩) := by
  have hsome : ((Run.after (fun s e => (exec s e).bind Except.toOption) threeCalls bootThree).map
    fun s =>
      decide ((s.buf 1).data = (102, 103) ∧ (s.phase 2).frame = some (true, ⟨3, 4, 5⟩))) =
        some true := by
    decide +kernel
  obtain ⟨s, hs, htest⟩ := Option.map_eq_some_iff.mp hsome
  have hnext : ∀ (s : State (Fin 3) Nat) e s', (exec s e).bind Except.toOption = some s' → True ∧
    Step s e s' := by
    intro s e s' h
    obtain ⟨r, hr, hok⟩ := Option.bind_eq_some_iff.mp h
    cases r with
    | error p => cases hok
    | ok s₁ =>
      cases hok
      exact ⟨trivial, hr⟩
  have hrun : Run.Meets Step (fun _ _ => True) bootThree ([] ++ threeCalls) s :=
    Run.meets_of_after hnext threeCalls (.nil bootThree) hs
  exact ⟨s, hrun.run, of_decide_eq_true htest⟩

section

/-! ## The results -/

/-- The invariant holds in every state that is reached. -/
theorem inv_of_run {s₀ : State B S} {es : List (Event B S)} (hboot : Boot s₀)
    (hrun : Run Step s₀ es s) : Inv s :=
  hrun.invariant (I := Inv) (fun _ _ _ h hstep => h.step hstep) hboot.inv

/-- What holds of the driver and the rings. -/
structure Safe (s : State B S) : Prop where
  /-- the driver panics only when the device has failed a request -/
  no_panic : ∀ e p, exec s e = some (.error p) → p = .status ∧ ∃ b, s.request b = .failed
  /-- a descriptor that is not free is in the chain of one call -/
  owner : ∀ i < num, s.disk.free i = false →
    ∃! b, ∃ write idx, (s.phase b).frame = some (write, idx) ∧ i ∈ idx.toList
  /-- the device reads the requests of calls that wait for it, each for its own buffer -/
  readable : ∀ h ∈ s.taken,
    ∃ b write idx, s.phase b = .waiting write idx ∧ s.request b = .asked write ∧
    readChain s.disk h =
      some { write := write, sector := sectorOf (s.buf b).blockno, b := b, status := h }
  /-- no ring is overrun -/
  avail : (s.disk.avail.idx + (2 ^ 16 - s.seen)) % 2 ^ 16 ≤ num
  used : (s.disk.used.idx + (2 ^ 16 - s.disk.usedIdx)) % 2 ^ 16 ≤ num

theorem Inv.safe (h : Inv s) : Safe s where
  no_panic _ _ := h.no_panic
  owner i hi hbusy := by
    obtain ⟨b, write, idx, hb, hmem⟩ := h.chains.owned i hi hbusy
    refine ⟨b, ⟨write, idx, hb, hmem⟩, fun b' ⟨write', idx', hb', hmem'⟩ => ?_⟩
    exact h.chains.disjoint b' b write' write idx' idx i hb' hb hmem' hmem
  readable x hx := by
    obtain ⟨b, write, idx, hb, rfl, -, hfresh, hread⟩ := h.taken hx
    refine ⟨b, write, idx, hb, ?_, hread⟩
    rw [request_of_frame (Phase.frame_waiting hb), if_pos hfresh]
  avail := by
    obtain ⟨pend, done, hf⟩ := h.flight
    rw [hf.avail.length_eq (by decide)]
    exact hf.avail.length
  used := by
    obtain ⟨pend, done, hf⟩ := h.flight
    rw [hf.used.length_eq (by decide)]
    exact hf.used.length

/-- **The driver is safe in every state that is reached**, in whatever order the calls, the
interrupt handler and the device take their steps. -/
theorem virtio_safe {s₀ : State B S} {es : List (Event B S)} (hboot : Boot s₀)
    (hrun : Run Step s₀ es s) : Safe s :=
  (inv_of_run hboot hrun).safe

theorem virtio_safe_three : ∃ s, Run Step bootThree threeCalls s ∧ (s.buf 1).data = (102, 103) ∧
    Safe s := by
  obtain ⟨s, hrun, hdata, -⟩ := run_threeCalls
  exact ⟨s, hrun, hdata, virtio_safe boot_bootThree hrun⟩

/-- **The driver and the device are a disk that serves each request in one step**: between a call
and its return the block is read or written once. -/
theorem virtio_refines {s₀ : State B S} {es : List (Event B S)} (hboot : Boot s₀)
    (hrun : Run Step s₀ es s) : Run Atomic.Step s₀.atomic (es.filterMap Event.atomic) s.atomic :=
  hrun.simulate State.atomic Event.atomic (I := Inv) (fun _ _ _ h hstep => h.step hstep)
    (fun _ _ _ _ h hstep ha => h.visible hstep ha) (fun _ _ _ h hstep he => h.internal hstep he)
    hboot.inv

theorem virtio_refines_three : ∃ s, Run Step bootThree threeCalls s ∧
    Run Atomic.Step bootThree.atomic
      [.ask 0 true, .ask 1 false, .ask 2 true, .perform 1, .answer 1] s.atomic := by
  obtain ⟨s, hrun, -⟩ := run_threeCalls
  exact ⟨s, hrun, virtio_refines boot_bootThree hrun⟩

end

end Xv6.Virtio
