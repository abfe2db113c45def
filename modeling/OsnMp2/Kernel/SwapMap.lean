import OsnMp2.Kernel.Slots

/-!
# The swap array as a map from pages to contents

The swap array is an array that closes the gap when an entry is taken out, and the handler
takes an entry out with a slot number that it has read before it evicted another page. What
the array stands for is a map: the page that was swapped out last time, with the slot and the
bytes of its frame then.

The runs of the system are followed with a history, which records the calls of `swap_out_page` and
which no function reads. Every entry of a swap array agrees with it, so that `swap_in_page` gives
back the bytes that the frame held when the page was swapped out.

## Main definitions

* `SwapOutCall`, `SwapInCall`: the calls that a page fault makes, and the tasks in which it makes
  them
* `SwappedOut`: a page fault swaps a page out
* `RecordStep`, `RecordReachable`: small steps with the history of what was swapped out
* `SwapInRight`: what a call of `swap_in_page` does

## Main results

* `Faithful.step`: what one step preserves
* `swap_in_restores`: every call of `swap_in_page` by the handler restores the page
-/

namespace Xv6

variable {k k' : Kernel} {t t' t₀ t₁ t₂ : Task} {root tf : Frame} {own : Nat → Set Frame}
  {o o' : Set Frame} {va v slot : Nat} {b : Nat → UInt8} {i j : Nat}

/-! ## The calls of the handler -/

/-- A fault at `va` loads the page: the page is not mapped, and the address is valid. -/
structure LoadsPage (t : Task) (va : Nat) : Prop where
  low : va < maxVa
  unmapped : ∀ root, t.p.pagetable = some root → t.mem.lookup root va = none
  valid : isValid t.p va = true

/-- The task in which the handler replaces a page, when it has to: at the limit of resident pages,
or when `kalloc` fails. -/
def replacementTask (t : Task) : Option Task :=
  if maxResidentPages ≤ t.p.resident.length then some t
  else
    match kalloc t.mem with
    | .ok (none, m) => some ⟨m, t.p⟩
    | _ => none

/-- **A fault at `va` calls `swap_out_page(v, slot)`** in the task `t₁`. -/
structure SwapOutCall (t : Task) (va v slot : Nat) (t₁ : Task) : Prop where
  loads : LoadsPage t va
  replaces : ∃ t₀ e, replacementTask t = some t₀ ∧ Victim t₀.p e ∧ e.isDirty = true ∧ e.va = v ∧
    findFreeSwapSlot t₀ = .ok (some slot, t₁)

/-- **A fault at `va` calls `swap_in_page(PGROUNDDOWN(va), slot, mem)`** in the task `t₁`: the slot
was read in `t`, before the frame was found, and the frame was cleared. -/
structure SwapInCall (t : Task) (va slot : Nat) (mem : Frame) (t₁ : Task) : Prop where
  loads : LoadsPage t va
  slot : swapSlotOf t.p (pgRoundDown va) = some slot
  frame : ∃ t₀, faultFrame t = .ok (some mem, t₀) ∧
    t₁ = ⟨t₀.mem.setPage mem (PhysPage.fill 0), t₀.p⟩

/-- **A fault at `va` swaps the page `v` out** to `slot`, when its frame holds the bytes `b`. -/
def SwappedOut (t : Task) (va v slot : Nat) (b : Nat → UInt8) : Prop :=
  ∃ t₁ t₂ root pte, SwapOutCall t va v slot t₁ ∧ swapOutPage v slot t₁ = .ok (0, t₂) ∧
    t₁.p.pagetable = some root ∧ t₁.mem.lookup root v = some pte ∧ (t₁.mem.phys pte.ppn).byte = b

/-- The handler is `faultLoad` when it loads the page. -/
theorem LoadsPage.handler (h : LoadsPage t va) (hp : t.p.pagetable = some root) (fs : Fs)
    (w x : Bool) : demandPageLoadNew fs va w x t = faultLoad fs va w t := by
  have hnone := h.unmapped root hp
  have hva' : pgRoundDown va < maxVa := (pgRoundDown_le va).trans_lt h.low
  unfold demandPageLoadNew
  rw [if_neg (Nat.not_le.mpr h.low), Halting.bind_of_ok (pagetableOf_apply hp),
    Halting.bind_of_ok (onMem_walk hva'), vpath_pgRoundDown, px_pgRoundDown]
  cases hpt : t.mem.node root (vpath va) with
  | none =>
    dsimp only [Option.map_none]
    rw [Halting.bind_of_ok (Halting.get_apply _), if_pos h.valid]
  | some pt =>
    have hlook := lookup_of_node hpt
    have hv : ¬ (t.mem.tbl pt (px 0 va)).v = true := fun hv => by
      rw [if_pos hv, hnone] at hlook
      cases hlook
    dsimp only [Option.map_some]
    rw [Halting.bind_of_ok (onMem_readPte _ _ _), Halting.bind_of_ok (Halting.get_apply _),
      if_neg hv, if_pos h.valid]

/-- What the handler does after `swap_in_page`. -/
def finishSwapIn (va : Nat) (w : Bool) (mem : Frame) (r : Int) : TM Int := do
  if r < 0 then do
    onMem (kfree mem)
    pure (-1)
  else if (← onMem (mappages (← pagetableOf) (pgRoundDown va) pgSize mem fullPerm)) ≠ 0 then do
    onMem (kfree mem)
    pure (-1)
  else do
    addResidentPage (pgRoundDown va) w
    pure 0

/-- **The call is the one that the handler makes.** -/
theorem SwapInCall.handler {mem : Frame} (h : SwapInCall t va slot mem t₁)
    (hp : t.p.pagetable = some root) (fs : Fs) (w x : Bool) :
    demandPageLoadNew fs va w x t =
      (do finishSwapIn va w mem (← swapInPage (pgRoundDown va) slot mem) : TM Int) t₁ := by
  obtain ⟨t₀, hframe, rfl⟩ := h.frame
  rw [h.loads.handler hp]
  unfold faultLoad
  rw [Halting.bind_of_ok (Halting.get_apply _), Halting.bind_of_ok hframe]
  obtain ⟨t₁, ht₁⟩ : ∃ t₁ : Task, t₁ = ⟨t₀.mem.setPage mem (PhysPage.fill 0), t₀.p⟩ := ⟨_, rfl⟩
  have hclear : onMem (memset mem 0) t₀ = .ok ((), t₁) := ht₁ ▸ rfl
  have hload : loadPage fs va (some slot) (faultSeg t.p va) mem t₁ =
      (do if (← swapInPage (pgRoundDown va) slot mem) < 0 then pure none
          else pure (some fullPerm) : TM (Option Perm)) t₁ := by
    unfold loadPage
    rw [Halting.bind_of_ok (Halting.get_apply _)]
    rfl
  dsimp only
  rw [Halting.bind_of_ok hclear, h.slot, ← ht₁, Halting.bind_apply, hload, Halting.bind_apply,
    Halting.bind_apply]
  cases swapInPage (pgRoundDown va) slot mem t₁ with
  | error e => rfl
  | ok p =>
    obtain ⟨r, t₂⟩ := p
    dsimp only
    unfold finishSwapIn
    by_cases hr : r < 0
    · rw [if_pos hr, if_pos hr]
      rfl
    · rw [if_neg hr, if_neg hr]
      rfl

/-- What a replacement does after `swap_out_page`. -/
def finishSwapOut (v : Nat) (r : Int) : TM (Option Frame) := do
  if r < 0 then pure none
  else do
    freeVictim v
    removeResidentPage v
    onMem kalloc

/-- **The call of `swap_out_page` is the one that the handler makes** to get a frame. -/
theorem SwapOutCall.handler (h : SwapOutCall t va v slot t₁) :
    faultFrame t = (do finishSwapOut v (← swapOutPage v slot) : TM (Option Frame)) t₁ := by
  obtain ⟨t₀, e, hrep, ⟨idx, hidx, he⟩, hdirty, rfl, hfind⟩ := h.replaces
  have hevict : evictPage t₀ = (do
      if (← swapOutPage e.va slot) < 0 then pure false
      else do
        freeVictim e.va
        removeResidentPage e.va
        pure true : TM Bool) t₁ := by
    unfold evictPage
    rw [Halting.bind_of_ok (Halting.get_apply _), hidx]
    dsimp only
    rw [he]
    dsimp only
    rw [if_pos hdirty, Halting.bind_of_ok hfind]
  have hstart : faultFrame t =
      (do if ← evictPage then onMem kalloc else pure none : TM (Option Frame)) t₀ := by
    unfold replacementTask at hrep
    unfold faultFrame
    rw [Halting.bind_of_ok (Halting.get_apply _)]
    split at hrep
    · next hlim =>
      cases hrep
      rw [if_pos hlim]
      rfl
    · next hlim =>
      split at hrep
      · next m hk =>
        cases hrep
        rw [if_neg hlim]
        exact Halting.bind_of_ok (onMem_eq_ok.mpr ⟨m, hk, rfl⟩)
      · cases hrep
  rw [hstart, Halting.bind_apply, hevict, Halting.bind_apply, Halting.bind_apply]
  cases swapOutPage e.va slot t₁ with
  | error e => rfl
  | ok p =>
    obtain ⟨r, t₂⟩ := p
    dsimp only
    unfold finishSwapOut
    by_cases hr : r < 0
    · rw [if_pos hr, if_pos hr]
      rfl
    · rw [if_neg hr, if_neg hr, Halting.bind_apply, Halting.bind_apply]
      cases freeVictim e.va t₂ with
      | error e => rfl
      | ok p => rfl

/-! ## What the calls do to the swap array -/

theorem findFreeSwapSlot_free (h : FreeSlot t.p slot) : findFreeSwapSlot t =
    .ok (some slot, ⟨t.mem,
      { t.p with swapSlots := Function.update t.p.swapSlots slot true }⟩) := by
  unfold findFreeSwapSlot
  rw [Halting.bind_of_ok (Halting.get_apply _), show List.find? _ _ = some slot from h]
  rfl

theorem freeSlot_of_find (h : findFreeSwapSlot t = .ok (some slot, t₁)) : FreeSlot t.p slot ∧
    t₁ = ⟨t.mem, { t.p with swapSlots := Function.update t.p.swapSlots slot true }⟩ := by
  unfold findFreeSwapSlot at h
  rw [Halting.bind_of_ok (Halting.get_apply _)] at h
  cases hfind : (List.range 1024).find? fun i => !t.p.swapSlots i with
  | none =>
    rw [hfind] at h
    cases h
  | some s =>
    rw [hfind] at h
    cases h
    exact ⟨hfind, rfl⟩

/-- The page that a replacement in `t₀` swaps out, with its slot and its bytes. -/
def EvictsOut (t₀ : Task) (root : Frame) (v slot : Nat) (b : Nat → UInt8) : Prop :=
  ∃ e pte, Victim t₀.p e ∧ e.isDirty = true ∧ e.va = v ∧ FreeSlot t₀.p slot ∧
    t₀.p.swapped.length < 8 ∧ t₀.mem.lookup root v = some pte ∧ (t₀.mem.phys pte.ppn).byte = b

theorem Victim.eq {p : Proc} {e e' : ResidentPage} (h : Victim p e) (h' : Victim p e') :
    e = e' := by
  obtain ⟨idx, hidx, he⟩ := h
  obtain ⟨idx', hidx', he'⟩ := h'
  obtain rfl := Option.some.inj (hidx.symm.trans hidx')
  exact Option.some.inj (he.symm.trans he')

/-- **A replacement** appends the page that it swaps out, or changes no entry. -/
theorem Replaced.swapped {r : Bool} {p' : Proc} (h : Replaced t₀ root r p') :
    (∃ v slot b, EvictsOut t₀ root v slot b ∧ p'.swapped = t₀.p.swapped ++ [⟨v, slot, b⟩]) ∨
      (∀ v slot b, ¬ EvictsOut t₀ root v slot b) ∧ p'.swapped = t₀.p.swapped := by
  cases h with
  | empty none => exact Or.inr ⟨fun _ _ _ ⟨e, _, hv, _⟩ => none e hv, rfl⟩
  | noSlot victim dirty taken =>
    refine Or.inr ⟨fun _ _ _ ⟨_, _, _, _, _, hfree, _⟩ => ?_, rfl⟩
    have hused := taken _ hfree.lt
    rw [hfree.free] at hused
    cases hused
  | refused victim dirty free why =>
    refine Or.inr ⟨fun _ _ _ ⟨e, pte, hv, _, hva, _, hroom, hmapped, _⟩ => ?_, rfl⟩
    obtain rfl := hv.eq victim
    rcases why with hnone | hfull
    · rw [hva, hmapped] at hnone
      cases hnone
    · omega
  | discard victim clean =>
    refine Or.inr ⟨fun _ _ _ ⟨e, _, hv, hdirty, _⟩ => ?_, rfl⟩
    obtain rfl := hv.eq victim
    rw [clean] at hdirty
    cases hdirty
  | swapOut victim dirty free mapped room =>
    exact Or.inl ⟨_, _, _, ⟨_, _, victim, dirty, rfl, free, room, mapped, rfl⟩, rfl⟩

/-- The handler's call of `swap_out_page` succeeds when the replacement swaps the page out. -/
theorem swappedOut_iff (hp : t.p.pagetable = some root) (hres : ∀ e ∈ t.p.resident, e.va < maxVa)
    (hrep : replacementTask t = some t₀) (hp₀ : t₀.p = t.p) :
    SwappedOut t va v slot b ↔ LoadsPage t va ∧ EvictsOut t₀ root v slot b := by
  constructor
  · rintro ⟨t₁, t₂, root', pte, ⟨hloads, t₀', e, hrep', hv, hdirty, hva, hfind⟩, hout,
      hp₁, hlook, hb⟩
    obtain rfl := Option.some.inj (hrep.symm.trans hrep')
    obtain ⟨hfree, rfl⟩ := freeSlot_of_find hfind
    dsimp only at hp₁ hlook hb
    rw [hp₀, hp] at hp₁
    obtain rfl := Option.some.inj hp₁
    have hlow : v < maxVa := by
      obtain ⟨idx, -, he⟩ := hv
      rw [hp₀] at he
      exact hva ▸ hres e (List.mem_of_getElem? he)
    refine ⟨hloads, e, pte, hv, hdirty, hva, hfree, ?_, hlook, hb⟩
    rcases swapOutPage_spec root (by rw [hp₀]; exact hp) hlow hout with ⟨hr, -⟩ | ⟨-,
      _, -, hroom, -⟩
    · cases hr
    · exact hroom
  · rintro ⟨hloads, e, pte, hv, hdirty, hva, hfree, hroom, hlook, hb⟩
    have hlow : v < maxVa := by
      obtain ⟨idx, -, he⟩ := hv
      rw [hp₀] at he
      exact hva ▸ hres e (List.mem_of_getElem? he)
    have hp₁ : t₀.p.pagetable = some root := by rw [hp₀, hp]
    exact ⟨_, _, root, pte, ⟨hloads, t₀, e, hrep, hv, hdirty, hva, findFreeSwapSlot_free hfree⟩,
      swapOutPage_apply hp₁ hlow hlook hroom, hp₁, hlook, hb⟩

theorem EvictsOut.of_phys (hphys : t₀.mem.phys = t.mem.phys) (hp₀ : t₀.p = t.p) :
    EvictsOut t₀ root v slot b ↔ EvictsOut t root v slot b := by
  have hlook : t₀.mem.lookup root v = t.mem.lookup root v := by
    unfold Mem.lookup
    rw [hphys]
  unfold EvictsOut
  rw [hp₀, hlook, hphys]

theorem replacementTask_spec (h : replacementTask t = some t₀) :
    t₀.p = t.p ∧ t₀.mem.phys = t.mem.phys := by
  unfold replacementTask at h
  split at h
  · cases h
    exact ⟨rfl, rfl⟩
  · split at h
    · next m hk =>
      cases h
      rcases kalloc_cases hk with ⟨-, -, hphys, -⟩ | ⟨f, hf, -⟩
      · exact ⟨rfl, hphys⟩
      · cases hf
    · cases h

theorem kalloc_exhausted {m : Mem} (h : m.Exhausted) : ∃ m', kalloc m = .ok (none, m') := by
  unfold kalloc
  rcases h with hfree | hstarved
  · rw [hfree]
    split
    · exact ⟨_, rfl⟩
    · exact ⟨_, rfl⟩
    · next hc _ => cases hc
  · obtain ⟨rest, hrest⟩ := List.head?_eq_some_iff.mp hstarved
    rw [hrest]
    exact ⟨_, rfl⟩

theorem MemFull.replacementTask (h : MemFull t) : ∃ t₀, Xv6.replacementTask t = some t₀ := by
  unfold Xv6.replacementTask
  by_cases hlim : maxResidentPages ≤ t.p.resident.length
  · exact ⟨t, if_pos hlim⟩
  · obtain ⟨m, hk⟩ := kalloc_exhausted (h.resolve_left hlim)
    rw [if_neg hlim, hk]
    exact ⟨_, rfl⟩

/-- **The entries after a fault** are old ones, or the page that was swapped out. -/
theorem FaultProc.swapped {w : Bool} {r : Int} {p' : Proc} (h : FaultProc t va w root r p')
    (hp : t.p.pagetable = some root) (hres : ∀ e ∈ t.p.resident, e.va < maxVa) :
    ∀ e ∈ p'.swapped, e ∈ t.p.swapped ∨ SwappedOut t va e.va e.slot e.data := by
  have hframe : ∀ {found : Bool} {p₁ : Proc}, LoadsPage t va → FrameProc t root found p₁ →
      ∀ e ∈ p₁.swapped, e ∈ t.p.swapped ∨ SwappedOut t va e.va e.slot e.data := by
    intro found p₁ hloads hf e he
    cases hf with
    | free => exact Or.inl he
    | replaced full out got =>
      rcases out.swapped with ⟨v, slot, b, hout, hsw⟩ | ⟨-, hsw⟩
      · rw [hsw] at he
        rcases List.mem_append.mp he with he | he
        · exact Or.inl he
        · obtain rfl := List.mem_singleton.mp he
          obtain ⟨t₀, hrep⟩ := full.replacementTask
          obtain ⟨hp₀, hphys⟩ := replacementTask_spec hrep
          exact Or.inr ((swappedOut_iff hp hres hrep hp₀).mpr
            ⟨hloads, (EvictsOut.of_phys hphys hp₀).mpr hout⟩)
      · exact Or.inl (hsw ▸ he)
  have hsub : ∀ {p₁ : Proc} {a : Nat}, ∀ e ∈ (swappedIn p₁ a).swapped, e ∈ p₁.swapped := by
    intro p₁ a e he
    unfold swappedIn at he
    split at he
    · exact List.mem_of_mem_eraseP he
    · exact he
  have hloads : va < maxVa → t.mem.lookup root va = none → isValid t.p va = true → LoadsPage t va :=
    fun low unmapped valid => ⟨low, fun root' hp' => by
      obtain rfl := Option.some.inj (hp.symm.trans hp')
      exact unmapped, valid⟩
  cases h with
  | refused | present => exact fun e he => Or.inl he
  | stopped low unmapped valid frame proc =>
    rcases proc with rfl | rfl
    · exact hframe (hloads low unmapped valid) frame
    · exact fun e he => hframe (hloads low unmapped valid) frame e (hsub e he)
  | loaded low unmapped valid frame =>
    exact fun e he => hframe (hloads low unmapped valid) frame e (hsub e he)

/-- What a fault swaps out is mapped, and determined. -/
theorem SwappedOut.evicts (h : SwappedOut t va v slot b) (hp : t.p.pagetable = some root)
    (hres : ∀ e ∈ t.p.resident, e.va < maxVa) : LoadsPage t va ∧ EvictsOut t root v slot b := by
  obtain ⟨t₁, -, -, -, hcall, -⟩ := id h
  obtain ⟨t₀, e, hrep, -⟩ := hcall.replaces
  obtain ⟨hp₀, hphys⟩ := replacementTask_spec hrep
  obtain ⟨hloads, hout⟩ := (swappedOut_iff hp hres hrep hp₀).mp h
  exact ⟨hloads, (EvictsOut.of_phys hphys hp₀).mp hout⟩

theorem EvictsOut.eq {v' slot' : Nat} {b' : Nat → UInt8} (h : EvictsOut t root v slot b)
    (h' : EvictsOut t root v' slot' b') : v = v' ∧ slot = slot' ∧ b = b' := by
  obtain ⟨e, pte, hv, -, rfl, hfree, -, hlook, rfl⟩ := h
  obtain ⟨e', pte', hv', -, rfl, hfree', -, hlook', rfl⟩ := h'
  obtain rfl := hv.eq hv'
  obtain rfl := Option.some.inj (hlook.symm.trans hlook')
  exact ⟨rfl, Option.some.inj (Eq.symm (show _ = some slot from hfree) |>.trans hfree'), rfl⟩

/-! ## The history of what was swapped out -/

/-- For every process slot and page, the swap slot and the bytes of the page when the process in
this slot swapped it out last. -/
abbrev History : Type := Nat → Nat → Option (Nat × (Nat → UInt8))

/-- **Small steps with the history**: a page fault that swaps a page out is recorded. -/
inductive RecordStep : Kernel × History → Move → Kernel × History → Prop
  | out {k k' : Kernel} {h : History} {i va locks v slot : Nat} {w x : Bool} {b : Nat → UInt8}
      (step : SmallStep k (.op i (.fault va w x locks)) k')
      (out : SwappedOut (k.task i) va v slot b) :
      RecordStep (k, h) (.op i (.fault va w x locks))
        (k', Function.update h i (Function.update (h i) v (some (slot, b))))
  | none {k k' : Kernel} {h : History} {m : Move} (step : SmallStep k m k')
      (none : ∀ i va locks w x v slot b, m = .op i (.fault va w x locks) →
        ¬ SwappedOut (k.task i) va v slot b) : RecordStep (k, h) m (k', h)

theorem RecordStep.step {s s' : Kernel × History} {m : Move} (h : RecordStep s m s') :
    SmallStep s.1 m s'.1 := by
  cases h with
  | out step => exact step
  | none step => exact step

/-- **The states that are reached with a history.** -/
def RecordReachable (k : Kernel) (h : History) : Prop :=
  ∃ k₀ k₁ ms, Boot k₀ ∧ userinit k₀ = .ok ((), k₁) ∧
    Run RecordStep (k₁, fun _ _ => Option.none) ms (k, h)

/-- Every step can be recorded. -/
theorem SmallStep.record {m : Move} (hs : SmallStep k m k') (h : History) :
    ∃ h', RecordStep (k, h) m (k', h') := by
  by_cases hout : ∃ i va locks w x v slot b, m = .op i (.fault va w x locks) ∧
      SwappedOut (k.task i) va v slot b
  · obtain ⟨i, va, locks, w, x, v, slot, b, rfl, hout⟩ := hout
    exact ⟨_, .out hs hout⟩
  · push Not at hout
    exact ⟨h, .none hs hout⟩

/-- **Every reachable state is reached with a history.** -/
theorem SmallReachable.recorded (hreach : SmallReachable k) : ∃ h, RecordReachable k h := by
  obtain ⟨k₀, k₁, ms, hboot, huser, hrun⟩ := hreach
  suffices hgoal : ∃ h, Run RecordStep (k₁, fun _ _ => Option.none) ms (k, h) by
    obtain ⟨h, hrun'⟩ := hgoal
    exact ⟨h, k₀, k₁, ms, hboot, huser, hrun'⟩
  induction hrun with
  | nil => exact ⟨_, .nil _⟩
  | snoc _ last ih =>
    obtain ⟨h, hrun'⟩ := ih
    obtain ⟨h', hs⟩ := last.record h
    exact ⟨h', hrun'.snoc hs⟩

/-- **Every entry of a swap array agrees with the history.** -/
def Faithful (k : Kernel) (h : History) : Prop :=
  ∀ j root, (k.procs j).pagetable = some root →
    ∀ e ∈ (k.procs j).swapped, h j e.va = some (e.slot, e.data)

/-- **One step** keeps the entries faithful. -/
theorem Faithful.step {h h' : History} {m : Move} (hf : Faithful k h) (hinv : SysInv k own)
    (htab : EveryTask TablesOk k) (hs : RecordStep (k, h) m (k', h')) : Faithful k' h' := by
  -- a fault of process `j`: its entries after it
  have hfault : ∀ {j root va locks w x r t'}, (k.procs j).pagetable = some root →
      demandPageLoadNew { k.fs with noff := k.fs.noff + locks } va w x (k.task j) = .ok (r, t') →
      ∀ e ∈ t'.p.swapped, e ∈ (k.procs j).swapped ∨
      SwappedOut (k.task j) va e.va e.slot e.data := by
    intro j root va locks w x r t' hp hrun
    obtain ⟨tf, o, -, -, htask⟩ := hinv.live hp
    have hpages := (htask.fits (htab j root hp).resident_limit).pages
    exact (demandPageLoadNew_proc hp hpages hrun).swapped hp hpages
  cases hs with
  | out step out =>
    rename_i i va locks v slot w x b
    cases step with
    | op hr does =>
    cases does with
    | fault run =>
    obtain ⟨t, hrun, rfl⟩ := onTask_eq_ok.mp run
    intro j root hp e he
    by_cases hj : j = i
    swap
    · rw [setTask_other k t hj] at hp he
      rw [Function.update_of_ne hj]
      exact hf j root hp e he
    subst hj
    obtain ⟨root₀, tf, o, hp₀, -, -, htask⟩ := hinv.runnable hr
    have hpages := (htask.fits (htab j root₀ hp₀).resident_limit).pages
    obtain ⟨-, hout⟩ := out.evicts hp₀ hpages
    have he' : e ∈ t.p.swapped := by
      simpa only [Kernel.setTask, Function.update_self] using he
    rw [Function.update_self]
    rcases hfault hp₀ hrun e he' with hold | hnew
    · -- the page that went was mapped, and the swapped ones are not
      have hne : e.va ≠ v := by
        obtain ⟨_, pte, -, -, -, -, -, hlook, -⟩ := hout
        intro hc
        rw [← hc, (htab j root₀ hp₀).swapped_unmapped e hold] at hlook
        cases hlook
      rw [Function.update_of_ne hne]
      exact hf j root₀ hp₀ e hold
    · obtain ⟨rfl, rfl, rfl⟩ := hout.eq (hnew.evicts hp₀ hpages).2
      rw [Function.update_self]
  | none step none =>
    obtain ⟨own', -, hslots⟩ := step.slots hinv
    intro j root hp e he
    cases hslots j with
    | same paging owned phys =>
      have hp₀ := (congrArg Proc.pagetable paging :).symm.trans hp
      exact hf j root hp₀ e ((congrArg Proc.swapped paging :) ▸ he)
    | gone pagetable =>
      rw [hp] at pagetable
      cases pagetable
    | fault task task' run out =>
      rcases hfault task.pagetable run e he with hold | hnew
      · exact hf j _ task.pagetable e hold
      · exact absurd hnew (none j _ _ _ _ _ _ _ rfl)
    | write task low mapped user writable page after =>
      have hp₀ := (congrArg (·.p.pagetable) after).symm.trans hp
      exact hf j root hp₀ e ((congrArg (·.p.swapped) after :) ▸ he)
    | sbrk int task task' out =>
      exact hf j _ task.pagetable e (out.swap.1 ▸ he)
    | exec task opened out =>
      rcases out.swap with ⟨hsw, -⟩ | ⟨hsw, -⟩
      · exact hf j _ task.pagetable e (hsw ▸ he)
      · have hnil : (k'.procs j).swapped = [] := hsw
        rw [hnil] at he
        cases he
    | child ne unused parent proc content copy rest =>
      have hnil : (k'.procs j).swapped = [] := (congrArg Proc.swapped proc).trans rfl
      rw [hnil] at he
      cases he

theorem RecordReachable.reachable {h : History} (hr : RecordReachable k h) : SmallReachable k := by
  obtain ⟨k₀, k₁, ms, hboot, huser, hrun⟩ := hr
  refine ⟨k₀, k₁, ms, hboot, huser, ?_⟩
  obtain ⟨s, hs⟩ : ∃ s, s = (k, h) := ⟨_, rfl⟩
  rw [← hs] at hrun
  obtain rfl : s.1 = k := by rw [hs]
  exact hrun.map Prod.fst fun _ _ _ => RecordStep.step

/-- **Every entry agrees with the history**, in every state that is reached with one. -/
theorem faithful_reachable {h : History} (hr : RecordReachable k h) : Faithful k h := by
  obtain ⟨k₀, k₁, ms, hboot, huser, hrun⟩ := hr
  obtain ⟨hinv, hfirst⟩ := userinit_task hboot huser
  suffices hgoal : SmallReachable k ∧ Faithful k h from hgoal.2
  refine hrun.invariant (I := fun s => SmallReachable s.1 ∧ Faithful s.1 s.2) ?_
    ⟨⟨k₀, k₁, [], hboot, huser, .nil k₁⟩, fun j root hp e he => ?_⟩
  · rintro ⟨k, h⟩ m ⟨k', h'⟩ ⟨hreach, hf⟩ hs
    obtain ⟨⟨own, hinv⟩, htab⟩ := tablesOk_reachable hreach
    exact ⟨hreach.step hs.step, hf.step hinv htab hs⟩
  · obtain ⟨⟨tf, hpaging⟩, -⟩ := hfirst j root hp
    have hnil : (k₁.procs j).swapped = [] := (congrArg Proc.swapped hpaging :)
    rw [hnil] at he
    cases he

/-! ## Slots -/

/-- **The slots of the swap array are taken**, and no two entries have the same one. -/
structure SlotsHeld (p : Proc) : Prop where
  nodup : (slotsOf p).Nodup
  held : ∀ e ∈ p.swapped, p.swapSlots e.slot = true

theorem SlotsHeld.nil {p : Proc} (h : p.swapped = []) : SlotsHeld p where
  nodup := by
    rw [slotsOf, h]
    exact List.nodup_nil
  held e he := by
    rw [h] at he
    cases he

theorem SlotsHeld.congr {p p' : Proc} (h : SlotsHeld p) (hsw : p'.swapped = p.swapped)
    (hslots : p'.swapSlots = p.swapSlots) : SlotsHeld p' := by
  constructor
  · rw [slotsOf, hsw]
    exact h.nodup
  · rw [hsw, hslots]
    exact h.held

/-- The entry that the handler finds, in its place. -/
theorem swapEntry_split {p : Proc} {a : Nat} {e : SwappedPage} (h : swapEntry p a = some e) :
    ∃ l₁ l₂, p.swapped = l₁ ++ e :: l₂ ∧ (p.swapped.eraseP fun x => x.va == a) = l₁ ++ l₂ ∧
    e.va = a := by
  obtain ⟨hva, l₁, l₂, hsplit, hnone⟩ := List.find?_eq_some_iff_append.mp h
  refine ⟨l₁, l₂, hsplit, ?_, beq_iff_eq.mp hva⟩
  rw [hsplit, List.eraseP_append_right _ fun x hx => by simpa using hnone x hx,
    List.eraseP_cons_of_pos (p := fun x : SwappedPage => x.va == a) hva]

/-- The slot of an entry is not the slot of another one. -/
theorem SlotsHeld.ne {p : Proc} {e : SwappedPage} {l₁ l₂ : List SwappedPage} (h : SlotsHeld p)
    (hsplit : p.swapped = l₁ ++ e :: l₂) : ∀ x ∈ l₁ ++ l₂, x.slot ≠ e.slot := by
  have hnd := h.nodup
  rw [slotsOf, hsplit, List.map_append, List.map_cons, List.nodup_middle, List.nodup_cons,
    ← List.map_append] at hnd
  exact fun x hx hc => hnd.1 (List.mem_map.mpr ⟨x, hx, hc⟩)

/-- Taking a page out of the swap array releases its slot alone. -/
theorem SlotsHeld.swappedIn {p : Proc} (h : SlotsHeld p) (a : Nat) : SlotsHeld (swappedIn p a) := by
  unfold Xv6.swappedIn
  split
  swap
  · exact h
  next e he =>
  obtain ⟨l₁, l₂, hsplit, herase, -⟩ := swapEntry_split he
  have hne := h.ne hsplit
  have hnd := h.nodup
  constructor
  · dsimp only [slotsOf]
    rw [herase]
    rw [slotsOf, hsplit, List.map_append, List.map_cons, List.nodup_middle, List.nodup_cons,
      ← List.map_append] at hnd
    exact hnd.2
  · dsimp only
    rw [herase]
    intro x hx
    rw [Function.update_of_ne (hne x hx)]
    refine h.held x ?_
    rw [hsplit]
    rcases List.mem_append.mp hx with hx | hx
    · exact List.mem_append_left _ hx
    · exact List.mem_append_right _ (List.mem_cons_of_mem _ hx)

/-- A frame for the page is found with the slots in order. -/
theorem SlotsHeld.frame {found : Bool} {p₁ : Proc} (h : SlotsHeld t.p)
    (hf : FrameProc t root found p₁) :
    SlotsHeld p₁ := by
  have hmark : ∀ slot, ∀ e ∈ t.p.swapped, Function.update t.p.swapSlots slot true
    e.slot = true := by
    intro slot e he
    by_cases hs : e.slot = slot
    · rw [hs, Function.update_self]
    · rw [Function.update_of_ne hs]
      exact h.held e he
  cases hf with
  | free => exact h
  | replaced full out got =>
    cases out with
    | empty | noSlot => exact h
    | discard => exact h.congr rfl rfl
    | refused victim dirty free why => exact ⟨h.nodup, hmark _⟩
    | swapOut victim dirty free mapped room =>
      rename_i e slot pte
      constructor
      · dsimp only [slotsOf]
        rw [List.map_append, List.map_cons, List.map_nil]
        refine List.nodup_append.mpr ⟨h.nodup, List.nodup_singleton _, ?_⟩
        rintro s hs s' hs' rfl
        obtain ⟨x, hx, rfl⟩ := List.mem_map.mp hs
        have hslot : x.slot = slot := List.mem_singleton.mp hs'
        have hheld := h.held x hx
        rw [hslot, free.free] at hheld
        cases hheld
      · intro x hx
        rcases List.mem_append.mp hx with hx | hx
        · exact hmark slot x hx
        · rw [List.mem_singleton.mp hx]
          exact Function.update_self ..

/-- **A page fault** keeps the slots in order. -/
theorem SlotsHeld.fault {w : Bool} {r : Int} {p' : Proc} (h : SlotsHeld t.p)
    (hf : FaultProc t va w root r p') : SlotsHeld p' := by
  cases hf with
  | refused => exact h
  | present => exact h.congr rfl rfl
  | stopped low unmapped valid frame proc =>
    rcases proc with rfl | rfl
    · exact h.frame frame
    · exact (h.frame frame).swappedIn _
  | loaded low unmapped valid frame =>
    exact ((h.frame frame).swappedIn (pgRoundDown va)).congr rfl rfl

theorem preserved_slotsHeld {m : Move} (htables : EveryTask TablesOk k) :
    Preserved (fun t _ => SlotsHeld t.p) k m k' where
  stable j := {
    congr := fun root t t' hv h =>
      h.congr (congrArg Proc.swapped hv.paging :) (congrArg Proc.swapSlots hv.paging :)
    fault := fun va locks w x r root tf o o' hm htask _ hrun _ h => by
      have htab := htables j root htask.pagetable
      exact h.fault (demandPageLoadNew_proc htask.pagetable (htask.fits htab.resident_limit).pages
        hrun)
    write := fun _ _ _ _ _ _ _ _ _ _ _ _ _ h => h
    sbrk := fun _ _ _ _ _ _ _ _ _ _ hg h => h.congr hg.swap.1 hg.swap.2
    child := fun i root root' tf tf' o _ _ _ hproc _ _ _ =>
      .nil ((congrArg Proc.swapped hproc :).trans rfl) }
  exec _ _ _ _ _ _ _ _ _ _ _ _ _ hout _ h := by
    rcases hout.swap with ⟨hs, hl⟩ | ⟨hs, -⟩
    · exact h.congr hs hl
    · exact .nil hs

theorem slotsHeld_reachable (h : SmallReachable k) : EveryTask (fun t _ => SlotsHeld t.p) k :=
  (h.everyTask (fun _ _ _ _ hp _ => .nil (congrArg Proc.swapped hp :)) fun _ _ _ hreach _ _ =>
    preserved_slotsHeld (tablesOk_reachable hreach).2).2

/-! ## Swapping a page in -/

/-- **A call `swap_in_page(a, slot, mem)` that is right**: the frame gets the bytes `b`,
exactly the entry of the page and exactly its slot are released, and the other entries stay as
they are, in their order. -/
structure SwapInRight (a slot : Nat) (mem : Frame) (b : Nat → UInt8) (t₁ t₂ : Task) : Prop where
  taken : t₁.p.swapSlots slot = true
  entry : ∃ l₁ l₂, t₁.p.swapped = l₁ ++ ⟨a, slot, b⟩ :: l₂ ∧ (∀ e ∈ l₁ ++ l₂, e.va ≠ a ∧
    e.slot ≠ slot) ∧ t₂.p = { t₁.p with
      swapped := l₁ ++ l₂
      swapSlots := Function.update t₁.p.swapSlots slot false }
  mem : t₂.mem = t₁.mem.setPage mem { t₁.mem.phys mem with byte := b }

/-- `swap_in_page` of a page that is in the swap array, with its slot. -/
theorem swapInPage_apply {a : Nat} {mem : Frame} {e : SwappedPage} (he : swapEntry t.p a = some e) :
    swapInPage a e.slot mem t = .ok (0, ⟨t.mem.setPage mem { t.mem.phys mem with byte := e.data },
      { t.p with
        swapped := t.p.swapped.eraseP fun x => x.va == a
        swapSlots := Function.update t.p.swapSlots e.slot false }⟩) := by
  obtain ⟨heq, i, hi, hie⟩ := findIdx?_swapped he
  unfold swapInPage
  rw [Halting.bind_of_ok (Halting.get_apply _), heq, hi]
  dsimp only
  rw [hie, List.eraseP_eq_eraseIdx, hi]
  rfl

/-- The addresses in the swap array are distinct when the frame is found. -/
theorem FrameProc.swapped_nodup {found : Bool} {p₁ : Proc} (htab : TablesOk t root)
    (hf : FrameProc t root found p₁) : (swappedVas p₁).Nodup := by
  cases hf with
  | free => exact htab.swapped_nodup
  | replaced full out got =>
    rcases out.swapped with ⟨v, slot, b, hout, hsw⟩ | ⟨-, hsw⟩
    · rw [swappedVas, hsw, List.map_append, List.map_cons, List.map_nil]
      refine List.nodup_append.mpr ⟨htab.swapped_nodup, List.nodup_singleton _, ?_⟩
      rintro a ha a' ha' rfl
      -- the page that goes was mapped
      obtain ⟨e, he, rfl⟩ := List.mem_map.mp ha
      obtain ⟨_, pte, -, -, -, -, -, hlook, -⟩ := hout
      have hva : e.va = v := List.mem_singleton.mp ha'
      rw [← hva, htab.swapped_unmapped e he] at hlook
      cases hlook
    · rw [swappedVas, hsw]
      exact htab.swapped_nodup

/-- **Every call of `swap_in_page` by the fault handler restores the page**: in every reachable
state, whatever was swapped out and in before and in the same fault, the frame gets the bytes
that the frame of the page held when the page was swapped out last, and nothing but its entry and
its slot is released. -/
theorem swap_in_restores {h : History} {mem : Frame} (hr : RecordReachable k h)
    (hp : (k.procs i).pagetable = some root) (hcall : SwapInCall (k.task i) va slot mem t₁) :
    ∃ b t₂, h i (pgRoundDown va) = some (slot, b) ∧
      (∀ v s b', SwappedOut (k.task i) va v s b' → v ≠ pgRoundDown va) ∧
      swapInPage (pgRoundDown va) slot mem t₁ = .ok (0, t₂) ∧
      SwapInRight (pgRoundDown va) slot mem b t₁ t₂ ∧
      ∀ fs w x, demandPageLoadNew fs va w x (k.task i) = finishSwapIn va w mem 0 t₂ := by
  have hreach := hr.reachable
  obtain ⟨⟨own, hinv⟩, htables⟩ := tablesOk_reachable hreach
  obtain ⟨tf, o, -, -, htask⟩ := hinv.live hp
  have htab := htables i root hp
  have hpages := (htask.fits htab.resident_limit).pages
  have hnone := hcall.loads.unmapped root hp
  obtain ⟨t₀, hframe, ht₁⟩ := hcall.frame
  have hout := faultFrame_proc hp hpages hframe
  -- the entry is still there when the frame is found
  obtain ⟨e, he, rfl⟩ := Option.map_eq_some_iff.mp hcall.slot
  have he₁ : swapEntry t₁.p (pgRoundDown va) = some e := by
    rw [ht₁]
    exact (hout.swapEntry ((lookup_pgRoundDown _ root va).trans hnone)).trans he
  have hheld : SlotsHeld t₁.p := by
    rw [ht₁]
    exact (slotsHeld_reachable hreach i root hp).frame hout
  obtain ⟨l₁, l₂, hsplit, herase, hva⟩ := swapEntry_split he₁
  have hin : swapInPage (pgRoundDown va) e.slot mem t₁ = _ := swapInPage_apply he₁
  refine ⟨e.data, _, ?_, fun v s b' hswap hc => ?_, hin, ?_, fun fs w x => ?_⟩
  · rw [← hva]
    exact faithful_reachable hr i root hp e (List.mem_of_find?_eq_some he)
  · obtain ⟨-, _, pte, -, -, -, -, -, hlook, -⟩ := hswap.evicts hp hpages
    rw [hc, lookup_pgRoundDown, hnone] at hlook
    cases hlook
  · have hmem : e ∈ t₁.p.swapped := List.mem_of_find?_eq_some he₁
    have hvas : (swappedVas t₁.p).Nodup := by
      rw [ht₁]
      exact hout.swapped_nodup htab
    rw [swappedVas, hsplit, List.map_append, List.map_cons, List.nodup_middle, List.nodup_cons,
      ← List.map_append] at hvas
    refine ⟨hheld.held e hmem, ⟨l₁, l₂, ?_, fun x hx => ⟨fun hc => hvas.1 ?_, hheld.ne hsplit x hx⟩,
      ?_⟩, rfl⟩
    · rw [hsplit, ← hva]
    · rw [hva, ← hc]
      exact List.mem_map.mpr ⟨x, hx, rfl⟩
    · rw [herase]
  · rw [hcall.handler hp fs w x, Halting.bind_of_ok hin]

set_option maxRecDepth 100000 in
/-- The stack page that was swapped out comes back. -/
theorem swap_in_restores_stack : ∃ h mem t₁ b t₂, RecordReachable afterSwap h ∧
    h 0 0x4000 = some (0, b) ∧ swapInPage 0x4000 0 mem t₁ = .ok (0, t₂) ∧
    SwapInRight 0x4000 0 mem b t₁ t₂ := by
  have hrun : (afterSwap.procs 0).pagetable.any (fun root =>
      decide ((afterSwap.mem.lookup root 0x4ff0).isNone = true) &&
        isValid (afterSwap.procs 0) 0x4ff0 &&
      decide (swapSlotOf (afterSwap.procs 0) 0x4000 = some 0) &&
      Halting.passes (faultFrame (afterSwap.task 0)) fun o _ => o.isSome) = true := by
        decide +kernel
  obtain ⟨root, hroot, hrun⟩ := (Option.any_eq_true _ _).mp hrun
  simp only [Bool.and_eq_true, decide_eq_true_eq, Option.isNone_iff_eq_none] at hrun
  obtain ⟨⟨⟨hnone, hvalid⟩, hslot⟩, hframe⟩ := hrun
  obtain ⟨o, t₀, hframe, ho⟩ := Halting.passes_eq_true.mp hframe
  obtain ⟨mem, rfl⟩ := Option.isSome_iff_exists.mp ho
  obtain ⟨h, hr⟩ := afterSwap_reachable.small.recorded
  have hcall : SwapInCall (afterSwap.task 0) 0x4ff0 0 mem
      ⟨t₀.mem.setPage mem (PhysPage.fill 0), t₀.p⟩ := by
    refine ⟨⟨by decide, fun root' hp => ?_, hvalid⟩, hslot, t₀, hframe, rfl⟩
    obtain rfl := Option.some.inj (hroot.symm.trans hp)
    exact hnone
  obtain ⟨b, t₂, hhist, -, hin, hright, -⟩ := swap_in_restores hr hroot hcall
  exact ⟨h, mem, _, b, t₂, hr, hhist, hin, hright⟩

end Xv6
