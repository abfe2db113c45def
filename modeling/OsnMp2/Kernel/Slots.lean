import OsnMp2.Kernel.Tables

/-!
# Swap slots

`find_free_swap_slot` marks a slot as taken before `swap_out_page` knows whether the swap array has
room for the page. When it has none, the handler fails and the slot stays marked: a process that
lives on, because the fault came from a system call, has lost it.

Without such a refusal the marked slots are exactly those of the entries of the swap array.

## Main definitions

* `SlotsExact`: the marked slots are those of the swap array
* `SwapRoom`: the condition on a step that no swap-out is refused

## Main results

* `swap_slots_accounted`: every run whose steps meet the condition keeps the slots exact
* `swap_slot_lost`: a run in which a slot is lost
-/

namespace Xv6

variable {k k' : Kernel} {t t' : Task} {root tf : Frame} {own own' : Set Frame}

/-- **The slots in use are those of the entries of the swap array**, which are distinct. -/
structure SlotsExact (p : Proc) : Prop where
  used : ∀ i, p.swapSlots i = true ↔ ∃ e ∈ p.swapped, e.slot = i
  nodup : (p.swapped.map (·.slot)).Nodup
  count : {i | p.swapSlots i = true}.ncard = p.swapped.length

/-- The slots of the swap array. -/
def slotsOf (p : Proc) : List Nat := p.swapped.map (·.slot)

theorem SlotsExact.of_marks {p : Proc} (h : Marks p.swapSlots (slotsOf p)) : SlotsExact p where
  used i := (h.marked i).trans List.mem_map
  nodup := h.nodup
  count := h.ncard.trans (List.length_map ..)

/-- A replacement would find the swap array full: memory is full and the oldest page is dirty. -/
structure SwapFull (t : Task) : Prop where
  memory : MemFull t
  dirty : ∃ e, Victim t.p e ∧ e.isDirty = true
  array : 8 ≤ t.p.swapped.length

/-! ## What one fault does to the slots -/

/-- A replacement that is not refused keeps the slots exact. -/
theorem Replaced.marks {b : Bool} {p' : Proc} (hout : Replaced t root b p')
    (htables : TablesOk t root)
    (hroom : ∀ e, Victim t.p e → e.isDirty = true → t.p.swapped.length < 8)
    (h : Marks t.p.swapSlots (slotsOf t.p)) : Marks p'.swapSlots (slotsOf p') := by
  cases hout with
  | empty | noSlot | discard => exact h
  | refused victim dirty free why =>
    -- the victim is mapped, so that only a full array could be the reason
    exfalso
    obtain ⟨pte, hpte⟩ := htables.resident_mapped _
      (List.mem_of_getElem? (show t.p.resident[_]? = some _ from victim.choose_spec.2))
    rcases why with hnone | hfull
    · rw [hnone] at hpte
      cases hpte
    · have := hroom _ victim dirty
      omega
  | swapOut victim dirty free mapped room =>
    rename_i e slot pte
    have hs : slotsOf { t.p with
        resident := t.p.resident.eraseP fun x => x.va == e.va
        swapped := t.p.swapped ++ [⟨e.va, slot, (t.mem.phys pte.ppn).byte⟩]
        swapSlots := Function.update t.p.swapSlots slot true } = slotsOf t.p ++ [slot] := by
      simp only [slotsOf, List.map_append, List.map_cons, List.map_nil]
    rw [hs]
    exact h.take free.free

/-- Taking a page out of the swap array gives its slot back. -/
theorem marks_swappedIn {p : Proc} (h : Marks p.swapSlots (slotsOf p)) (a : Nat) :
    Marks (swappedIn p a).swapSlots (slotsOf (swappedIn p a)) := by
  unfold swappedIn
  split
  · next e he =>
    obtain ⟨hva, l₁, l₂, hsplit, hnone⟩ := List.find?_eq_some_iff_append.mp he
    have herase : (p.swapped.eraseP fun x => x.va == a) = l₁ ++ l₂ := by
      rw [hsplit, List.eraseP_append_right _ fun b hb => by simpa using hnone b hb,
        List.eraseP_cons_of_pos (p := fun x : SwappedPage => x.va == a) hva]
    have hl : slotsOf p = l₁.map (·.slot) ++ e.slot :: l₂.map (·.slot) := by
      rw [slotsOf, hsplit, List.map_append, List.map_cons]
    rw [hl] at h
    simp only [slotsOf, herase, List.map_append]
    exact h.release
  · exact h

/-- **A page fault that finds room in the swap array keeps the slots exact.** -/
theorem FaultProc.marks {va : Nat} {w : Bool} {r : Int} {p' : Proc}
    (hout : FaultProc t va w root r p') (htables : TablesOk t root)
    (hroom : va < maxVa → t.mem.lookup root va = none → isValid t.p va = true → ¬ SwapFull t)
    (h : Marks t.p.swapSlots (slotsOf t.p)) : Marks p'.swapSlots (slotsOf p') := by
  have hframe : ∀ {found : Bool} {p₁ : Proc}, va < maxVa → t.mem.lookup root va = none →
      isValid t.p va = true → FrameProc t root found p₁ → Marks p₁.swapSlots (slotsOf p₁) := by
    intro found p₁ hlow hnone hvalid hf
    cases hf with
    | free => exact h
    | replaced full out got =>
      refine out.marks htables (fun e hv hd => ?_) h
      by_contra hc
      exact hroom hlow hnone hvalid ⟨full, ⟨e, hv, hd⟩, Nat.not_lt.mp hc⟩
  cases hout with
  | refused | present => exact h
  | stopped low unmapped valid frame proc =>
    have hm := hframe low unmapped valid frame
    rcases proc with rfl | rfl
    · exact hm
    · exact marks_swappedIn hm _
  | loaded low unmapped valid frame =>
    exact marks_swappedIn (hframe low unmapped valid frame) (pgRoundDown va)

/-! ## Runs -/

/-- **No swap-out is refused**: a page fault on a valid page that is not mapped does not meet a full
swap array when it has to replace a dirty page. -/
def SwapRoom (k : Kernel) : Move → Prop
  | .op i (.fault va _ _ _) => ∀ root, (k.procs i).pagetable = some root → va < maxVa →
      k.mem.lookup root va = none → isValid (k.procs i) va = true → ¬ SwapFull (k.task i)
  | _ => True

/-- `sbrk` does not touch the swap array. -/
theorem Grow.swap {n r : Int} (h : Grow n t root own r t' own') :
    t'.p.swapped = t.p.swapped ∧ t'.p.swapSlots = t.p.swapSlots := by
  cases h <;> exact ⟨rfl, rfl⟩

/-- `exec` leaves the swap array alone when it fails, and empties it. -/
theorem ExecOut.swap {fs : Fs} {ip : Nat} {argv : List (List UInt8)} {r : Int}
    (h : ExecOut fs ip argv t root tf own r t') :
    (t'.p.swapped = t.p.swapped ∧ t'.p.swapSlots = t.p.swapSlots) ∨
      t'.p.swapped = [] ∧ t'.p.swapSlots = fun _ => false := by
  cases h with
  | noElf | noTable | bad | noRoom => exact Or.inl ⟨rfl, rfl⟩
  | done => exact Or.inr ⟨rfl, rfl⟩

theorem preserved_marks {m : Move} (htables : EveryTask TablesOk k) (hroom : SwapRoom k m) :
    Preserved (fun t _ => Marks t.p.swapSlots (slotsOf t.p)) k m k' where
  stable j := {
    congr := fun root t t' hv h => by
      have hs : t'.p.swapSlots = t.p.swapSlots := (congrArg Proc.swapSlots hv.paging :)
      have hl : slotsOf t'.p = slotsOf t.p := (congrArg slotsOf hv.paging :)
      rwa [hs, hl]
    fault := fun va locks w x r root tf o o' hm htask _ hrun _ h => by
      have htab := htables j root htask.pagetable
      subst hm
      exact (demandPageLoadNew_proc htask.pagetable (htask.fits htab.resident_limit).pages
        hrun).marks htab (hroom root htask.pagetable) h
    write := fun _ _ _ _ _ _ _ _ _ _ _ _ _ h => h
    sbrk := fun _ _ _ _ _ _ _ _ _ _ hg h => by
      rw [slotsOf, hg.swap.1, hg.swap.2]
      exact h
    child := fun i root root' tf tf' o _ _ _ hproc _ _ _ => by
      show Marks (k'.procs j).swapSlots (slotsOf (k'.procs j))
      rw [hproc]
      exact Marks.nil }
  exec _ _ _ _ _ _ _ _ _ _ _ _ _ hout _ h := by
    rcases hout.swap with ⟨hs, hl⟩ | ⟨hs, hl⟩
    · rw [slotsOf, hs, hl]
      exact h
    · rw [slotsOf, hs, hl]
      exact Marks.nil

/-- **The swap slots are accounted exactly along every run in which no swap-out is refused.** -/
theorem swap_slots_accounted {k₀ k₁ : Kernel} {ms : List Move} (hboot : Boot k₀)
    (huser : userinit k₀ = .ok ((), k₁)) (hrun : Run.Meets SmallStep SwapRoom k₁ ms k) :
    ∀ i, (k.procs i).pagetable.isSome = true → SlotsExact (k.procs i) := by
  intro i hp
  obtain ⟨root, hroot⟩ := Option.isSome_iff_exists.mp hp
  have hmarks := everyTask_of_meets (P := fun t _ => Marks t.p.swapSlots (slotsOf t.p))
    hboot huser hrun (fun t _ _ _ hp _ => by
      have hs : t.p.swapSlots = fun _ => false := (congrArg Proc.swapSlots hp :)
      have hl : slotsOf t.p = [] := (congrArg slotsOf hp :)
      rw [hs, hl]
      exact Marks.nil)
    (fun k m k' hreach hC _ _ => preserved_marks (tablesOk_reachable hreach).2 hC)
  exact .of_marks (hmarks.2 i root hroot)

/-- The check that the swap array has room. -/
def swapRoomCheck (k : Kernel) : Move → Bool
  | .op i (.fault _ _ _ _) => decide ((k.procs i).swapped.length < 8)
  | _ => true

theorem swapRoom_of_check (k : Kernel) (m : Move) (h : swapRoomCheck k m = true) :
    SwapRoom k m := by
  unfold swapRoomCheck at h
  split at h
  · rintro root - - - - hfull
    have hlen := of_decide_eq_true h
    have := hfull.array
    simp only [Kernel.task] at this
    omega
  · next hne =>
    cases m with
    | others => trivial
    | op i o =>
      cases o with
      | fault va w x locks => exact absurd rfl (hne i va w x locks)
      | _ => trivial

/-- Write faults on `n` pages from `va` on. -/
def writeFaults (va n : Nat) : List (Nat × Act) :=
  (List.range n).map fun j => (0, .fault (va + j * pgSize) true false)

set_option maxRecDepth 100000 in
/-- A run on a machine with ten pages in which the stack page and a heap page are swapped out, and
the stack page comes back. -/
theorem swap_slots_accounted_swapped : ∃ k₁ ms k, Run.Meets SmallStep SwapRoom k₁ ms k ∧
    (k.procs 0).swapped.map (fun e => (e.va, e.slot)) = [(0x5000, 1), (0x6000, 2)] ∧
    SlotsExact (k.procs 0) := by
  have hrun : (okState (userinit (machine 10 [smallProgram]))).any (fun k₁ =>
      (Run.after (nextOp swapRoomCheck)
          [.op 0 (.exec [47, 97] [[97]]), .op 0 (.sbrk 0x8000), .op 0 (.fault 0x5000 true false 0),
            .op 0 (.fault 0x6000 true false 0), .op 0 (.fault 0x7000 true false 0),
            .op 0 (.fault 0x8000 true false 0), .op 0 (.fault 0x9000 true false 0),
            .op 0 (.fault 0x4000 true false 0)] k₁).any fun k =>
        decide ((k.procs 0).swapped.map (fun e => (e.va, e.slot)) = [(0x5000, 1), (0x6000, 2)]) &&
          (k.procs 0).pagetable.isSome) = true := by decide +kernel
  obtain ⟨k₁, hinit, hrun⟩ := (Option.any_eq_true _ _).mp hrun
  obtain ⟨k, hops, hrun⟩ := (Option.any_eq_true _ _).mp hrun
  simp only [Bool.and_eq_true, decide_eq_true_eq] at hrun
  obtain ⟨_, huser⟩ := okState_eq_some hinit
  have hmeets := Run.meets_of_after (meets_of_nextOp swapRoom_of_check) _ (.nil k₁) hops
  exact ⟨k₁, _, k, hmeets, hrun.1,
    swap_slots_accounted (machine_boot (by decide) _) huser hmeets 0 hrun.2⟩

/-- A machine with ten pages, where the process has filled its swap array with dirty pages and then
calls `copyin` on a page of its heap that is not mapped yet. -/
@[irreducible] def lostSlot : Kernel := stateAfter (machine 10 [smallProgram])
  ([(0, .exec [47, 97] [[97]]), (0, .sbrk 0x20000)] ++ writeFaults 0x5000 11 ++
   [(0, .copyin 0x10000 1)])

set_option maxRecDepth 100000 in
theorem lostSlot_reachable : Reachable lostSlot := by
  unfold lostSlot
  exact reachable_of_stateAfter (machine_boot (by decide) _) (by decide +kernel)

set_option maxRecDepth 100000 in
/-- **A slot that is lost**: the process lives on with nine slots in use and eight pages swapped
out. -/
theorem swap_slot_lost : SmallReachable lostSlot ∧ (lostSlot.procs 0).state = .runnable ∧
    (lostSlot.procs 0).pagetable.isSome = true ∧ (lostSlot.procs 0).swapped.length = 8 ∧
    (lostSlot.procs 0).swapSlots 8 = true ∧ ¬ SlotsExact (lostSlot.procs 0) := by
  have hrun : (decide ((lostSlot.procs 0).state = .runnable) &&
    (lostSlot.procs 0).pagetable.isSome &&
      decide ((lostSlot.procs 0).swapped.length = 8) && (lostSlot.procs 0).swapSlots 8 &&
      (lostSlot.procs 0).swapped.all fun e => e.slot != 8) = true := by decide +kernel
  simp only [Bool.and_eq_true, decide_eq_true_eq, List.all_eq_true, bne_iff_ne] at hrun
  obtain ⟨⟨⟨⟨hstate, hp⟩, hlen⟩, hslot⟩, hne⟩ := hrun
  refine ⟨lostSlot_reachable.small, hstate, hp, hlen, hslot, fun hexact => ?_⟩
  obtain ⟨e, he, hslot'⟩ := (hexact.used 8).mp hslot
  exact hne e he hslot'

end Xv6
