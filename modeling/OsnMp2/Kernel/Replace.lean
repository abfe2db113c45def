import OsnMp2.Kernel.SmallStep

/-!
# Page replacement and the tables of the process

What the fault handler does to the resident list, the swap array and the map of swap slots, entry by
entry and with the reason for every refusal: the victim of a replacement, the slot that is taken for
it, the entry that a page swapped in gives back.

`Fault` says what becomes of the address space; `FaultProc` says what becomes of `struct proc`. Both
hold of one call.

## Main definitions

* `Replaced`, `FrameProc`, `FaultProc`: a replacement, getting a frame, and the whole
  handler, on the process

## Main results

* `demandPageLoadNew_proc`: the handler has one of these outcomes
-/

namespace Xv6

variable {t t' : Task} {root : Frame} {m m' : Mem}

/-! ## The parts of a replacement -/

/-- The entry of the resident list that a replacement takes. -/
def Victim (p : Proc) (e : ResidentPage) : Prop :=
  ∃ idx, findVictimPage p.resident = some idx ∧ p.resident[idx]? = some e

/-- The slot that `find_free_swap_slot` takes. -/
def FreeSlot (p : Proc) (slot : Nat) : Prop :=
  (List.range 1024).find? (fun i => !p.swapSlots i) = some slot

theorem FreeSlot.lt {p : Proc} {slot : Nat} (h : FreeSlot p slot) : slot < 1024 :=
  List.mem_range.mp (List.mem_of_find?_eq_some h)

theorem FreeSlot.free {p : Proc} {slot : Nat} (h : FreeSlot p slot) : p.swapSlots slot = false := by
  simpa using List.find?_some h

/-- **What a replacement does to the process**, and whether a page went. -/
inductive Replaced (t : Task) (root : Frame) : Bool → Proc → Prop
  | empty (none : ∀ e, ¬ Victim t.p e) : Replaced t root false t.p
  | noSlot {e : ResidentPage} (victim : Victim t.p e) (dirty : e.isDirty = true)
      (taken : ∀ i, i < 1024 → t.p.swapSlots i = true) : Replaced t root false t.p
  /-- `swap_out_page` refuses, and the slot stays taken -/
  | refused {e : ResidentPage} {slot : Nat} (victim : Victim t.p e) (dirty : e.isDirty = true)
      (free : FreeSlot t.p slot)
      (why : t.mem.lookup root e.va = none ∨ 8 ≤ t.p.swapped.length) :
      Replaced t root false { t.p with swapSlots := Function.update t.p.swapSlots slot true }
  | discard {e : ResidentPage} (victim : Victim t.p e) (clean : e.isDirty = false) :
      Replaced t root true { t.p with resident := t.p.resident.eraseP fun x => x.va == e.va }
  | swapOut {e : ResidentPage} {slot : Nat} {pte : Pte} (victim : Victim t.p e)
      (dirty : e.isDirty = true) (free : FreeSlot t.p slot)
      (mapped : t.mem.lookup root e.va = some pte) (room : t.p.swapped.length < 8) :
      Replaced t root true { t.p with
        resident := t.p.resident.eraseP fun x => x.va == e.va
        swapped := t.p.swapped ++ [⟨e.va, slot, (t.mem.phys pte.ppn).byte⟩]
        swapSlots := Function.update t.p.swapSlots slot true }

/-- `swap_out_page` of a mapped page, with room in the swap array. -/
theorem swapOutPage_apply {va slot : Nat} {pte : Pte} (hp : t.p.pagetable = some root)
    (hva : va < maxVa) (hlook : t.mem.lookup root va = some pte) (hroom : t.p.swapped.length < 8) :
    swapOutPage va slot t = .ok (0, ⟨t.mem, { t.p with
      swapped := t.p.swapped ++ [⟨va, slot, (t.mem.phys pte.ppn).byte⟩] }⟩) := by
  unfold swapOutPage
  rw [Halting.bind_of_ok (pagetableOf_apply hp), Halting.bind_of_ok (onMem_walk hva)]
  cases hpt : t.mem.node root (vpath va) with
  | none =>
    rw [lookup_of_no_node hpt] at hlook
    cases hlook
  | some pt =>
    rw [lookup_of_node hpt] at hlook
    split at hlook
    · next hv =>
      have hpte := Option.some.inj hlook
      dsimp only [Option.map_some]
      rw [Halting.bind_of_ok (onMem_readPte _ _ _), Halting.bind_of_ok (Halting.get_apply _), hpte,
        if_neg (by rw [← hpte, hv]; decide), if_neg (by omega)]
      rfl
    · cases hlook

/-- Freeing the victim's frame leaves the process alone. -/
theorem freeVictim_proc {va : Nat} (hrun : freeVictim va t = .ok ((), t')) : t'.p = t.p := by
  unfold freeVictim at hrun
  obtain ⟨pt, t₁, hpt, hrun₁⟩ := Halting.bind_eq_ok.mp hrun
  have h₁ : t₁ = t := by
    unfold pagetableOf at hpt
    split at hpt
    · cases hpt
      rfl
    · cases hpt
  rw [h₁] at hrun₁
  obtain ⟨o, t₂, hwalk, hrun⟩ := Halting.bind_eq_ok.mp hrun₁
  obtain ⟨m₂, -, rfl⟩ := onMem_eq_ok.mp hwalk
  cases o with
  | none =>
    cases hrun
    rfl
  | some e =>
    obtain ⟨pte, t₃, hread, hrun⟩ := Halting.bind_eq_ok.mp hrun
    obtain ⟨m₃, -, rfl⟩ := onMem_eq_ok.mp hread
    split at hrun
    · obtain ⟨_, t₄, hk, hrun⟩ := Halting.bind_eq_ok.mp hrun
      obtain ⟨m₄, -, rfl⟩ := onMem_eq_ok.mp hk
      obtain ⟨m₅, -, rfl⟩ := onMem_eq_ok.mp hrun
      rfl
    · cases hrun
      rfl

/-- **A replacement** has one of its outcomes on the process. -/
theorem evictPage_proc {r : Bool} (hp : t.p.pagetable = some root)
    (hres : ∀ e ∈ t.p.resident, e.va < maxVa) (hrun : evictPage t = .ok (r, t')) :
    Replaced t root r t'.p := by
  unfold evictPage at hrun
  rw [Halting.bind_of_ok (Halting.get_apply _)] at hrun
  cases hidx : findVictimPage t.p.resident with
  | none =>
    rw [hidx] at hrun
    obtain ⟨rfl, rfl⟩ := Halting.pure_eq_ok.mp hrun
    exact .empty fun e ⟨idx, h, _⟩ => by rw [hidx] at h; cases h
  | some idx =>
    rw [hidx] at hrun
    dsimp only at hrun
    cases hvic : t.p.resident[idx]? with
    | none =>
      rw [hvic] at hrun
      obtain ⟨rfl, rfl⟩ := Halting.pure_eq_ok.mp hrun
      refine .empty fun e ⟨idx', h, he⟩ => ?_
      rw [hidx] at h
      cases h
      rw [hvic] at he
      cases he
    | some victim =>
      rw [hvic] at hrun
      dsimp only at hrun
      -- Whatever happens from here on happens to this victim.
      have hv : Victim t.p victim := ⟨idx, hidx, hvic⟩
      have hlow : victim.va < maxVa := hres victim (List.mem_of_getElem? hvic)
      cases hd : victim.isDirty with
      | false =>
        rw [hd, if_neg (by decide)] at hrun
        obtain ⟨_, t₃, hfv, hrun⟩ := Halting.bind_eq_ok.mp hrun
        obtain ⟨_, t₄, hrem, hrun⟩ := Halting.bind_eq_ok.mp hrun
        have hp₃ := freeVictim_proc hfv
        cases hrem
        cases hrun
        rw [show (⟨t₃.mem, _⟩ : Task).p = _ from rfl, hp₃]
        exact .discard hv hd
      | true =>
        rw [hd, if_pos rfl] at hrun
        obtain ⟨o, t₁, hslot, hrun⟩ := Halting.bind_eq_ok.mp hrun
        unfold findFreeSwapSlot at hslot
        rw [Halting.bind_of_ok (Halting.get_apply _)] at hslot
        cases hfind : (List.range 1024).find? fun i => !t.p.swapSlots i with
        | none =>
          rw [hfind] at hslot
          obtain ⟨rfl, rfl⟩ := Halting.pure_eq_ok.mp hslot
          obtain ⟨rfl, rfl⟩ := Halting.pure_eq_ok.mp hrun
          refine .noSlot hv hd fun i hi => ?_
          simpa using List.find?_eq_none.mp hfind i (List.mem_range.mpr hi)
        | some slot =>
          rw [hfind] at hslot
          obtain ⟨_, t₂, hset, hslot⟩ := Halting.bind_eq_ok.mp hslot
          cases hset
          obtain ⟨rfl, rfl⟩ := Halting.pure_eq_ok.mp hslot
          dsimp only at hrun
          obtain ⟨r₂, t₂, hout, hrun⟩ := Halting.bind_eq_ok.mp hrun
          by_cases hok : (∃ pte, t.mem.lookup root victim.va = some pte) ∧ t.p.swapped.length < 8
          · obtain ⟨⟨pte, hlook⟩, hroom⟩ := hok
            rw [swapOutPage_apply (by exact hp) hlow (by exact hlook) (by exact hroom)] at hout
            cases hout
            rw [if_neg (by decide)] at hrun
            obtain ⟨_, t₃, hfv, hrun⟩ := Halting.bind_eq_ok.mp hrun
            obtain ⟨_, t₄, hrem, hrun⟩ := Halting.bind_eq_ok.mp hrun
            have hp₃ := freeVictim_proc hfv
            cases hrem
            cases hrun
            rw [show (⟨t₃.mem, _⟩ : Task).p = _ from rfl, hp₃]
            exact .swapOut hv hd hfind hlook hroom
          -- The slot was taken before the copy, and a copy that is refused does not give it back.
          · rcases swapOutPage_spec root (by exact hp) hlow hout with
              ⟨rfl, rfl⟩ | ⟨-, pte, hlook, hroom, -⟩
            · rw [if_pos (by decide)] at hrun
              obtain ⟨rfl, rfl⟩ := Halting.pure_eq_ok.mp hrun
              refine .refused hv hd hfind ?_
              by_contra hc
              push Not at hc
              exact hok ⟨Option.ne_none_iff_exists'.mp hc.1, hc.2⟩
            · exact absurd ⟨⟨pte, hlook⟩, hroom⟩ hok

/-- A replacement depends on physical memory and on the process only. -/
theorem Replaced.of_phys {p p' : Proc} {b : Bool} (hphys : m'.phys = m.phys)
    (h : Replaced ⟨m', p⟩ root b p') : Replaced ⟨m, p⟩ root b p' := by
  have hlook : ∀ va, m'.lookup root va = m.lookup root va := fun va => by
    unfold Mem.lookup
    rw [hphys]
  cases h with
  | empty none => exact .empty none
  | noSlot victim dirty taken => exact .noSlot victim dirty taken
  | refused victim dirty free why =>
    exact .refused (t := ⟨m, p⟩) victim dirty free (why.imp (fun h => (hlook _).symm.trans h) id)
  | discard victim clean => exact .discard victim clean
  | swapOut victim dirty free mapped room =>
    have he := Replaced.swapOut (t := ⟨m, p⟩) victim dirty free ((hlook _).symm.trans mapped) room
    simpa only [hphys] using he

/-! ## The whole handler -/

/-- **Getting a frame**, with the process after it and whether one was found: without replacement
below the limit of resident pages, or after a replacement when memory is full. -/
inductive FrameProc (t : Task) (root : Frame) : Bool → Proc → Prop
  | free (room : t.p.resident.length < maxResidentPages) : FrameProc t root true t.p
  | replaced {b found : Bool} {p' : Proc} (full : MemFull t) (out : Replaced t root b p')
      (got : found = true → b = true) : FrameProc t root found p'

theorem faultFrame_proc {r : Option Frame} (hp : t.p.pagetable = some root)
    (hres : ∀ e ∈ t.p.resident, e.va < maxVa) (hrun : faultFrame t = .ok (r, t')) :
    FrameProc t root r.isSome t'.p := by
  -- the eviction, from a memory that a failed `kalloc` may have left
  have hevict : ∀ {m₀ : Mem}, MemFull t → m₀.phys = t.mem.phys →
      (do if ← evictPage then onMem kalloc else pure none : TM (Option Frame)) ⟨m₀, t.p⟩ =
        .ok (r, t') → FrameProc t root r.isSome t'.p := by
    intro m₀ hfull hphys hrun
    obtain ⟨b, t₁, hev, hrun⟩ := Halting.bind_eq_ok.mp hrun
    have hout : Replaced t root b t₁.p :=
      Replaced.of_phys hphys (evictPage_proc (t := ⟨m₀, t.p⟩) hp hres hev)
    cases b with
    | false =>
      rw [if_neg (by decide)] at hrun
      obtain ⟨rfl, rfl⟩ := Halting.pure_eq_ok.mp hrun
      exact .replaced hfull hout (by rintro ⟨⟩)
    | true =>
      rw [if_pos rfl] at hrun
      obtain ⟨m₂, -, rfl⟩ := onMem_eq_ok.mp hrun
      exact .replaced hfull hout fun _ => rfl
  unfold faultFrame at hrun
  rw [Halting.bind_of_ok (Halting.get_apply _)] at hrun
  split at hrun
  · next hlim =>
    obtain ⟨o, t₁, hfirst, hrun⟩ := Halting.bind_eq_ok.mp hrun
    obtain ⟨rfl, rfl⟩ := Halting.pure_eq_ok.mp hfirst
    exact hevict (Or.inl hlim) rfl hrun
  · next hlim =>
    obtain ⟨o, t₁, hfirst, hrun⟩ := Halting.bind_eq_ok.mp hrun
    obtain ⟨m₁, hkal, rfl⟩ := onMem_eq_ok.mp hfirst
    rcases kalloc_cases hkal with ⟨rfl, -, hphys, -⟩ | ⟨f, rfl, -⟩
    · exact hevict (Or.inr (kalloc_none hkal)) hphys hrun
    · obtain ⟨rfl, rfl⟩ := Halting.pure_eq_ok.mp hrun
      exact .free (by omega)

/-- The process after the page `a` was taken out of the swap array, if it was there. -/
def swappedIn (p : Proc) (a : Nat) : Proc :=
  match swapEntry p a with
  | some e => { p with swapped := p.swapped.eraseP fun x => x.va == a
                       swapSlots := Function.update p.swapSlots e.slot false }
  | none => p

/-- **What the fault handler does to the process.** -/
inductive FaultProc (t : Task) (va : Nat) (w : Bool) (root : Frame) : Int → Proc → Prop
  | refused : FaultProc t va w root (-1) t.p
  | present {e : Pte} (low : va < maxVa) (mapped : t.mem.lookup root va = some e) :
      FaultProc t va w root 0 { t.p with
        resident := if w then markDirty (pgRoundDown va) t.p.resident else t.p.resident }
  | stopped {found : Bool} {p₁ p' : Proc} (low : va < maxVa)
      (unmapped : t.mem.lookup root va = none)
      (valid : isValid t.p va = true) (frame : FrameProc t root found p₁)
      (proc : p' = p₁ ∨ p' = swappedIn p₁ (pgRoundDown va)) : FaultProc t va w root (-1) p'
  | loaded {p₁ : Proc} (low : va < maxVa) (unmapped : t.mem.lookup root va = none)
      (valid : isValid t.p va = true) (frame : FrameProc t root true p₁) :
      FaultProc t va w root 0
        (addResidentProc (swappedIn p₁ (pgRoundDown va)) (pgRoundDown va) w)

/-- Getting a frame does not touch the swap entry of a page that is not mapped. -/
theorem FrameProc.swapEntry {found : Bool} {p₁ : Proc} {a : Nat} (h : FrameProc t root found p₁)
    (hnone : t.mem.lookup root a = none) : swapEntry p₁ a = swapEntry t.p a := by
  cases h with
  | free => rfl
  | replaced full out got =>
    cases out with
    | empty | noSlot | refused | discard => rfl
    | swapOut victim dirty free mapped room =>
      rename_i e slot pte
      have hva : (e.va == a) = false := by
        rw [beq_eq_false_iff_ne]
        rintro rfl
        rw [hnone] at mapped
        cases mapped
      simp [Xv6.swapEntry, List.find?_append, hva]

/-- Loading from a segment leaves the process alone. -/
theorem loadSegment_proc {fs : Fs} {a : Nat} {f : Frame} {seg : LazySeg} {r : Option Perm}
    (hrun : loadSegment fs a f seg t = .ok (r, t')) : t'.p = t.p := by
  unfold loadSegment at hrun
  dsimp only at hrun
  split at hrun
  · obtain ⟨_, t₁, hlock, hrun₁⟩ := Halting.bind_eq_ok.mp hrun
    obtain ⟨-, ht₁⟩ := liftFs_eq_ok.mp hlock
    rw [ht₁] at hrun₁
    cases hip : seg.ip with
    | none =>
      rw [hip] at hrun₁
      obtain ⟨-, rfl⟩ := Halting.pure_eq_ok.mp hrun₁
      rfl
    | some ip =>
      rw [hip] at hrun₁
      obtain ⟨⟨n, bytes⟩, t₂, hread, hrun₂⟩ := Halting.bind_eq_ok.mp hrun₁
      obtain ⟨-, ht₂⟩ := liftFs_eq_ok.mp hread
      rw [ht₂] at hrun₂
      dsimp only at hrun₂
      split at hrun₂
      · obtain ⟨-, rfl⟩ := Halting.pure_eq_ok.mp hrun₂
        rfl
      · obtain ⟨_, t₃, hmove, hrun₃⟩ := Halting.bind_eq_ok.mp hrun₂
        obtain ⟨m₃, -, rfl⟩ := onMem_eq_ok.mp hmove
        obtain ⟨-, rfl⟩ := Halting.pure_eq_ok.mp hrun₃
        rfl
  · obtain ⟨-, rfl⟩ := Halting.pure_eq_ok.mp hrun
    rfl

/-- **Loading the page** takes its entry out of the swap array, and changes nothing when it
fails. -/
theorem loadPage_proc {t₀ : Task} {fs : Fs} {va : Nat} {f : Frame} {found : Bool} {r : Option Perm}
    (hframe : FrameProc t₀ root found t.p) (hnone : t₀.mem.lookup root va = none)
    (hrun : loadPage fs va (swapSlotOf t₀.p (pgRoundDown va)) (faultSeg t₀.p va) f t =
      .ok (r, t')) :
    (r = none ∧ t'.p = t.p) ∨ (∃ perm, r = some perm) ∧ t'.p = swappedIn t.p (pgRoundDown va) := by
  have hentry := hframe.swapEntry ((lookup_pgRoundDown t₀.mem root va).trans hnone)
  unfold loadPage at hrun
  rw [Halting.bind_of_ok (Halting.get_apply _), swapSlotOf_eq] at hrun
  unfold faultSeg at hrun
  rw [swapSlotOf_eq] at hrun
  cases he : swapEntry t₀.p (pgRoundDown va) with
  | some e =>
    rw [he] at hrun hentry
    dsimp only [Option.map_some] at hrun
    obtain ⟨r₁, t₁, hin, hrun⟩ := Halting.bind_eq_ok.mp hrun
    -- the entry found is the one of the page
    obtain ⟨heq, i, hi, hie⟩ := findIdx?_swapped hentry
    unfold swapInPage at hin
    rw [Halting.bind_of_ok (Halting.get_apply _), heq, hi] at hin
    dsimp only at hin
    rw [hie] at hin
    obtain ⟨_, t₂, hmove, hin⟩ := Halting.bind_eq_ok.mp hin
    obtain ⟨m₂, -, rfl⟩ := onMem_eq_ok.mp hmove
    obtain ⟨_, t₃, hset, hin⟩ := Halting.bind_eq_ok.mp hin
    cases hset
    obtain ⟨rfl, rfl⟩ := Halting.pure_eq_ok.mp hin
    rw [if_neg (by decide)] at hrun
    obtain ⟨rfl, rfl⟩ := Halting.pure_eq_ok.mp hrun
    refine Or.inr ⟨⟨_, rfl⟩, ?_⟩
    rw [swappedIn, hentry]
    dsimp only
    rw [List.eraseP_eq_eraseIdx, hi]
  | none =>
    rw [he] at hrun hentry
    have hin : swappedIn t.p (pgRoundDown va) = t.p := by rw [swappedIn, hentry]
    rw [hin]
    cases hi : lazySegFind t₀.p va with
    | none =>
      simp only [Option.map_none, Option.isSome_none, Bool.false_eq_true, if_false, hi] at hrun
      obtain ⟨rfl, rfl⟩ := Halting.pure_eq_ok.mp hrun
      exact Or.inr ⟨⟨_, rfl⟩, rfl⟩
    | some i =>
      simp only [Option.map_none, Option.isSome_none, Bool.false_eq_true, if_false, hi] at hrun
      have hp := loadSegment_proc hrun
      cases r with
      | none => exact Or.inl ⟨rfl, hp⟩
      | some perm => exact Or.inr ⟨⟨perm, rfl⟩, hp⟩

theorem faultLoad_proc {fs : Fs} {va : Nat} {w : Bool} {r : Int} (hp : t.p.pagetable = some root)
    (hres : ∀ e ∈ t.p.resident, e.va < maxVa) (hva : va < maxVa)
    (hnone : t.mem.lookup root va = none) (hvalid : isValid t.p va = true)
    (hrun : faultLoad fs va w t = .ok (r, t')) : FaultProc t va w root r t'.p := by
  unfold faultLoad at hrun
  rw [Halting.bind_of_ok (Halting.get_apply _)] at hrun
  obtain ⟨o, t₁, hframe, hrun⟩ := Halting.bind_eq_ok.mp hrun
  have hout := faultFrame_proc hp hres hframe
  cases o with
  | none =>
    obtain ⟨rfl, rfl⟩ := Halting.pure_eq_ok.mp hrun
    exact .stopped hva hnone hvalid hout (Or.inl rfl)
  | some f =>
    dsimp only at hrun
    obtain ⟨_, t₂, hset, hrun⟩ := Halting.bind_eq_ok.mp hrun
    obtain ⟨m₂, -, rfl⟩ := onMem_eq_ok.mp hset
    obtain ⟨o₃, t₃, hload, hrun⟩ := Halting.bind_eq_ok.mp hrun
    rcases loadPage_proc (t := ⟨m₂, t₁.p⟩) hout hnone hload with ⟨rfl, hp₃⟩ | ⟨⟨perm, rfl⟩, hp₃⟩
    · obtain ⟨_, t₄, hkf, hrun⟩ := Halting.bind_eq_ok.mp hrun
      obtain ⟨m₄, -, rfl⟩ := onMem_eq_ok.mp hkf
      obtain ⟨rfl, rfl⟩ := Halting.pure_eq_ok.mp hrun
      exact .stopped hva hnone hvalid hout (Or.inl hp₃)
    · dsimp only at hrun
      obtain ⟨pt, t₄, hpt, hrun₄⟩ := Halting.bind_eq_ok.mp hrun
      have ht₄ : t₄ = t₃ := by
        unfold pagetableOf at hpt
        split at hpt
        · cases hpt
          rfl
        · cases hpt
      rw [ht₄] at hrun₄
      obtain ⟨r₅, t₅, hmap, hrun⟩ := Halting.bind_eq_ok.mp hrun₄
      obtain ⟨m₅, -, rfl⟩ := onMem_eq_ok.mp hmap
      split at hrun
      · obtain ⟨_, t₆, hkf, hrun⟩ := Halting.bind_eq_ok.mp hrun
        obtain ⟨m₆, -, rfl⟩ := onMem_eq_ok.mp hkf
        obtain ⟨rfl, rfl⟩ := Halting.pure_eq_ok.mp hrun
        exact .stopped hva hnone hvalid hout (Or.inr hp₃)
      · obtain ⟨_, t₆, hadd, hrun⟩ := Halting.bind_eq_ok.mp hrun
        obtain ⟨rfl, rfl⟩ := Halting.pure_eq_ok.mp hrun
        obtain rfl := addResidentPage_spec hadd
        have hl : FaultProc t va w root 0 _ := .loaded hva hnone hvalid hout
        rw [← show t₃.p = _ from hp₃] at hl
        exact hl

/-- **The fault handler** has one of its outcomes on the process. -/
theorem demandPageLoadNew_proc {fs : Fs} {va : Nat} {w x : Bool} {r : Int}
    (hp : t.p.pagetable = some root) (hres : ∀ e ∈ t.p.resident, e.va < maxVa)
    (hrun : demandPageLoadNew fs va w x t = .ok (r, t')) : FaultProc t va w root r t'.p := by
  unfold demandPageLoadNew at hrun
  split at hrun
  · obtain ⟨rfl, rfl⟩ := Halting.pure_eq_ok.mp hrun
    exact .refused
  next hlow =>
  have hva : va < maxVa := by omega
  have hva' : pgRoundDown va < maxVa := by
    have := pgRoundDown_le va
    omega
  -- a page without a valid entry is loaded when the address is valid
  have hunmapped : t.mem.lookup root va = none →
      (if isValid t.p va then faultLoad fs va w else pure (-1) : TM Int) t = .ok (r, t') →
      FaultProc t va w root r t'.p := by
    intro hnone hrun
    split at hrun
    · next hvalid => exact faultLoad_proc hp hres hva hnone hvalid hrun
    · obtain ⟨rfl, rfl⟩ := Halting.pure_eq_ok.mp hrun
      exact .refused
  rw [Halting.bind_of_ok (pagetableOf_apply hp), Halting.bind_of_ok (onMem_walk hva'),
    vpath_pgRoundDown, px_pgRoundDown] at hrun
  cases hpt : t.mem.node root (vpath va) with
  | none =>
    rw [hpt] at hrun
    dsimp only [Option.map_none] at hrun
    rw [Halting.bind_of_ok (Halting.get_apply _)] at hrun
    exact hunmapped (lookup_of_no_node hpt) hrun
  | some pt =>
    rw [hpt] at hrun
    dsimp only [Option.map_some] at hrun
    rw [Halting.bind_of_ok (onMem_readPte _ _ _), Halting.bind_of_ok (Halting.get_apply _)] at hrun
    have hlook := lookup_of_node hpt
    split at hrun
    · next hv =>
      rw [if_pos hv] at hlook
      unfold faultMapped at hrun
      cases w with
      | false =>
        rw [if_neg (by decide)] at hrun
        obtain ⟨rfl, rfl⟩ := Halting.pure_eq_ok.mp hrun
        exact .present (w := false) hva hlook
      | true =>
        rw [if_pos rfl] at hrun
        split at hrun
        · obtain ⟨rfl, rfl⟩ := Halting.pure_eq_ok.mp hrun
          exact .refused
        · obtain ⟨_, t₁, hset, hrun⟩ := Halting.bind_eq_ok.mp hrun
          cases hset
          obtain ⟨rfl, rfl⟩ := Halting.pure_eq_ok.mp hrun
          exact .present (w := true) hva hlook
    · next hv =>
      rw [if_neg hv] at hlook
      exact hunmapped hlook hrun

end Xv6
