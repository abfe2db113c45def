import OsnMp2.Lib.History
import OsnMp2.Kernel.Memstat
import OsnMp2.Kernel.Image

/-!
# Replacement is first in, first out

The resident list has two records of age: the order of its entries and their sequence numbers, which
are cut from a 64-bit counter to an `int`. Removals from the middle, by an eviction or by a shrink
of the heap, and reloads of pages that went before keep both in step with the order in which the
pages were last loaded, as long as the counter fits.

## Main definitions

* `Loads`: the runs of the system with the pages that one process loads
* `Started`: the beginning of such a run, at a successful `exec` or in a new child
* `FifoOrder`: the resident list is in the order of the last loads

## Main results

* `FifoInv.step`: what one step preserves
* `replacement_fifo`: the order holds along every run
-/

namespace Xv6

variable {k k' k'' : Kernel} {i : Nat} {t t' : Task} {root tf : Frame} {own own' : Set Frame}
  {p : Proc} {L : List Nat}

/-! ## Loads -/

/-- The entry of `va` in the page table of process `i`. -/
def userMapped (k : Kernel) (i va : Nat) : Option Pte :=
  (k.procs i).pagetable.bind fun root => k.mem.lookup root va

/-- The page that process `i` loads in a step: a fault on a page that was not mapped and then is. -/
def loadsOf (i : Nat) (k : Kernel) (m : Move) (k' : Kernel) : List Nat :=
  match m with
  | .op j (.fault va _ _ _) =>
    if j = i ∧ userMapped k i va = none ∧ (userMapped k' i va).isSome = true then [pgRoundDown va]
      else []
  | _ => []

/-- **The runs of the system in which process `i` makes no `exec` and is not reaped**, with the
pages that it loads, in order. -/
inductive Loads (i : Nat) : Kernel → List Nat → Kernel → Prop
  | nil (k : Kernel) : Loads i k [] k
  | snoc {k k' k'' : Kernel} {L : List Nat} {m : Move} (run : Loads i k L k')
      (step : SmallStep k' m k'') (noExec : ∀ path argv, m ≠ .op i (.exec path argv))
      (alive : (k''.procs i).pagetable.isSome = true) : Loads i k (L ++ loadsOf i k' m k'') k''

/-- **The beginning of a run**, with the pages loaded so far: the stack page after a successful
`exec`, and none in a child that was just forked. -/
inductive Started (i : Nat) : Kernel → List Nat → Prop
  | exec {k k' : Kernel} {path : List UInt8} {argv : List (List UInt8)} {r : Int}
      (reachable : SmallReachable k) (runnable : (k.procs i).state = .runnable)
      (argvOk : ArgvOk argv) (run : Xv6.exec i path argv k = .ok (r, k')) (ok : 0 ≤ r) :
      Started i k' [(k'.procs i).sz - pgSize]
  | fork {k k' : Kernel} {parent : Nat} {r : Int} (reachable : SmallReachable k)
      (runnable : (k.procs parent).state = .runnable) (run : kfork parent k = .ok (r, k'))
      (new : (k.procs i).pagetable = none) (alive : (k'.procs i).pagetable.isSome = true) :
      Started i k' []

/-! ## The order -/

/-- **The resident list is in the order of the last loads**, for the history of loads `L`. -/
structure FifoOrder (L : List Nat) (p : Proc) : Prop where
  increasing : (p.resident.map (·.seq)).Pairwise (· < ·)
  le_pfSeq : ∀ e ∈ p.resident, e.seq ≤ p.pfSeq
  loaded : ∀ e ∈ p.resident, e.va ∈ L
  victim : p.resident ≠ [] → ∃ idx e, findVictimPage p.resident = some idx ∧
    p.resident[idx]? = some e ∧ ∀ e' ∈ p.resident, e'.va ≠ e.va → lastAt L e.va < lastAt L e'.va

/-- The invariant: a sequence number is the number of the last load of its page, and the counter
is the number of loads. -/
structure FifoInv (L : List Nat) (p : Proc) : Prop where
  count : p.pfSeq = L.length
  increasing : p.resident.Pairwise fun e e' => e.seq < e'.seq
  last : ∀ e ∈ p.resident, e.seq = lastAt L e.va ∧ e.va ∈ L

theorem FifoInv.congr {p' : Proc} (h : FifoInv L p) (hseq : p'.pfSeq = p.pfSeq)
    (hres : p'.resident = p.resident) : FifoInv L p' := by
  obtain ⟨h1, h2, h3⟩ := h
  rw [← hseq] at h1
  rw [← hres] at h2 h3
  exact ⟨h1, h2, h3⟩

/-- Entries may go. -/
theorem FifoInv.sublist {p' : Proc} (h : FifoInv L p) (hseq : p'.pfSeq = p.pfSeq)
    (hres : p'.resident.Sublist p.resident) : FifoInv L p' where
  count := hseq.trans h.count
  increasing := h.increasing.sublist hres
  last e he := h.last e (hres.subset he)

theorem int32_of_lt {x : Nat} (h : x < 2 ^ 31) : int32 x = x := by
  unfold int32
  rw [Nat.mod_eq_of_lt (by omega), if_pos h]

/-- A page that is not listed is added at the end. -/
theorem FifoInv.load (h : FifoInv L p) {a : Nat} (w : Bool) (hfit : L.length + 1 < 2 ^ 31)
    (hne : ∀ e ∈ p.resident, e.va ≠ a) : FifoInv (L ++ [a]) (addResidentProc p a w) := by
  have hseq : u64 (p.pfSeq + 1) = L.length + 1 := by
    rw [h.count, u64, Nat.mod_eq_of_lt (by omega)]
  refine ⟨?_, ?_, fun e he => ?_⟩
  · show u64 (p.pfSeq + 1) = _
    rw [hseq, List.length_append, List.length_singleton]
  · show List.Pairwise _ (p.resident ++ [_])
    rw [List.pairwise_append]
    refine ⟨h.increasing, List.pairwise_singleton _ _, fun e he e' he' => ?_⟩
    rw [List.mem_singleton.mp he', (h.last e he).1, hseq, int32_of_lt hfit]
    have := lastAt_le_length L e.va
    push_cast
    omega
  · rcases List.mem_append.mp he with he | he
    · obtain ⟨hlast, hmem⟩ := h.last e he
      rw [lastAt_append_of_ne L (hne e he).symm]
      exact ⟨hlast, List.mem_append_left _ hmem⟩
    · rw [List.mem_singleton.mp he, hseq, int32_of_lt hfit, lastAt_append_self]
      exact ⟨rfl, List.mem_append_right _ (List.mem_singleton_self _)⟩

/-- Marking an entry dirty changes neither its page nor its number. -/
theorem FifoInv.markDirty (h : FifoInv L p) (a : Nat) :
    FifoInv L { p with resident := markDirty a p.resident } := by
  have hmap : (Xv6.markDirty a p.resident).map (fun e => (e.va, e.seq)) =
      p.resident.map fun e => (e.va, e.seq) := by
    unfold Xv6.markDirty
    split
    · rfl
    · apply List.ext_getElem?
      intro n
      rw [List.getElem?_map, List.getElem?_map, List.getElem?_modify]
      cases p.resident[n]? with
      | none => rfl
      | some e => dsimp only [Option.map_some]; split <;> rfl
  refine ⟨h.count, ?_, fun e he => ?_⟩
  · have hseqs := (List.pairwise_map (f := fun e : ResidentPage => (e.va, e.seq))
      (R := fun x y : Nat × Int => x.2 < y.2)).mpr h.increasing
    rw [← hmap] at hseqs
    exact (List.pairwise_map (f := fun e : ResidentPage => (e.va, e.seq))).mp hseqs
  · obtain ⟨e', he', heq⟩ := List.mem_map.mp (hmap ▸ List.mem_map_of_mem he)
    obtain ⟨hva, hseq⟩ := Prod.mk.inj heq
    rw [← hva, ← hseq]
    exact h.last e' he'

/-- The oldest page is the first one when the numbers increase. -/
theorem findVictimLoop_eq : ∀ (l : List ResidentPage) (i idx : Nat) (seq : Int),
    (∀ e ∈ l, seq ≤ e.seq) → findVictimLoop l i idx seq = idx := by
  intro l
  induction l with
  | nil => exact fun _ _ _ _ => rfl
  | cons e rest ih =>
    intro i idx seq h
    unfold findVictimLoop
    rw [if_neg (Int.not_lt.mpr (h e List.mem_cons_self))]
    exact ih _ _ _ fun e' he' => h e' (List.mem_cons_of_mem e he')

theorem FifoInv.order (h : FifoInv L p) : FifoOrder L p where
  increasing := List.pairwise_map.mpr h.increasing
  le_pfSeq e he := by
    rw [(h.last e he).1, h.count]
    exact_mod_cast lastAt_le_length L e.va
  loaded e he := (h.last e he).2
  victim hne := by
    have hincr := h.increasing
    have hlast := h.last
    cases hres : p.resident with
    | nil => exact absurd hres hne
    | cons e rest =>
      rw [hres] at hincr hlast
      obtain ⟨hfirst, -⟩ := List.pairwise_cons.mp hincr
      refine ⟨0, e, ?_, rfl, fun e' he' hva => ?_⟩
      · exact congrArg some (findVictimLoop_eq rest 1 0 e.seq fun e' he' => (hfirst e' he').le)
      · rcases List.mem_cons.mp he' with rfl | he'
        · exact absurd rfl hva
        · have hlt := hfirst e' he'
          rw [(hlast e List.mem_cons_self).1, (hlast e' (List.mem_cons_of_mem e he')).1] at hlt
          exact_mod_cast hlt

/-! ## What one step preserves -/

theorem Eviction.resident_sublist {p₁ : Proc} {P : Nat → Prop} (h : Eviction t root p₁ P) :
    p₁.resident.Sublist t.p.resident ∧ p₁.pfSeq = t.p.pfSeq := by
  cases h with
  | idle => exact ⟨List.Sublist.refl _, rfl⟩
  | discard => exact ⟨List.eraseP_sublist, rfl⟩
  | swapOut => exact ⟨List.eraseP_sublist, rfl⟩

/-- **A page fault** keeps the order, with the page that it loads. -/
theorem FifoInv.fault {fs : Fs} {va : Nat} {w : Bool} {r : Int} (h : FifoInv L t.p)
    (htables : TablesOk t root) (hf : Fault fs t va w root own r t' own')
    (hfit : L.length + 1 < 2 ^ 31) :
    (t.mem.lookup root va = none → (t'.mem.lookup root va).isSome = true →
      FifoInv (L ++ [pgRoundDown va]) t'.p) ∧
    (¬ (t.mem.lookup root va = none ∧ (t'.mem.lookup root va).isSome = true) → FifoInv L t'.p) := by
  -- unless the page is loaded, it is not mapped or was mapped before
  have hstay : t'.mem.lookup root va = t.mem.lookup root va → FifoInv L t'.p →
      (t.mem.lookup root va = none → (t'.mem.lookup root va).isSome = true →
        FifoInv (L ++ [pgRoundDown va]) t'.p) ∧
      (¬ (t.mem.lookup root va = none ∧ (t'.mem.lookup root va).isSome = true) →
       FifoInv L t'.p) := by
    intro hsame hinv
    refine ⟨fun hnone hsome => ?_, fun _ => hinv⟩
    rw [hsame, hnone] at hsome
    cases hsome
  cases hf with
  | beyond | invalid | readOnly => exact hstay rfl h
  | present low mapped =>
    refine hstay rfl ?_
    dsimp only
    split
    · exact h.markDirty _
    · exact h
  | stopped low unmapped valid evict full kept proc =>
    obtain ⟨hsub, hseq⟩ := evict.resident_sublist
    refine hstay ?_ ?_
    · rw [unmapped]
      by_contra hc
      obtain ⟨e, he⟩ := Option.ne_none_iff_exists'.mp hc
      have hmapped := (kept.lookup_eq_some low he).2
      rw [unmapped] at hmapped
      cases hmapped
    · rcases proc with rfl | ⟨-, slots, rfl⟩
      · exact h.sublist hseq hsub
      · exact (h.sublist hseq hsub).congr rfl rfl
  | loaded low unmapped valid evict full pageIn =>
    rename_i P p₁ slots m'
    obtain ⟨f, hlook, -⟩ := pageIn.page
    obtain ⟨hsub, hseq⟩ := evict.resident_sublist
    refine ⟨fun _ _ => ?_, fun hc => absurd ⟨unmapped, ?_⟩ hc⟩
    · have hp₁ : FifoInv L (swapInProc p₁ (pgRoundDown va) slots) :=
        (h.sublist hseq hsub).congr rfl rfl
      refine hp₁.load w hfit fun e he hva => ?_
      -- the resident pages are mapped, and this one is not
      obtain ⟨pte, hpte⟩ := htables.resident_mapped e (hsub.subset he)
      rw [hva, lookup_pgRoundDown, unmapped] at hpte
      cases hpte
    · show (m'.lookup root va).isSome = true
      rw [hlook]
      rfl

theorem Grow.resident_sublist {n r : Int} (h : Grow n t root own r t' own') :
    t'.p.resident.Sublist t.p.resident ∧ t'.p.pfSeq = t.p.pfSeq := by
  cases h with
  | refused | grown | same | wrapped => exact ⟨List.Sublist.refl _, rfl⟩
  | shrunk => exact ⟨List.filter_sublist, rfl⟩

/-- **A step of the system** keeps the order of process `i`, with the page that it loads. -/
theorem FifoInv.step {m : Move} (hreach : SmallReachable k) (hs : SmallStep k m k')
    (hnoExec : ∀ path argv, m ≠ .op i (.exec path argv)) (hp : (k.procs i).pagetable = some root)
    (halive : (k'.procs i).pagetable.isSome = true)
    (hfit : L.length + (loadsOf i k m k').length < 2 ^ 31 - 1) (h : FifoInv L (k.procs i)) :
    FifoInv (L ++ loadsOf i k m k') (k'.procs i) := by
  obtain ⟨⟨own, hinv⟩, htables⟩ := tablesOk_reachable hreach
  obtain ⟨own', hinv', hslots⟩ := hs.slots hinv
  -- a step that leaves the page table as it is loads nothing
  have hnone : (∀ va, userMapped k' i va = userMapped k i va) → loadsOf i k m k' = [] := by
    intro hsame
    unfold loadsOf
    split
    · rw [if_neg]
      rintro ⟨-, hn, hsome⟩
      rw [hsame, hn] at hsome
      cases hsome
    · rfl
  cases hslots i with
  | same paging owned phys =>
    have hpt : (k'.procs i).pagetable = (k.procs i).pagetable := (congrArg Proc.pagetable paging :)
    have hview := hinv.sameView (hpt.trans hp) paging phys
    rw [hnone fun va => by
      rw [userMapped, userMapped, hpt, hp]
      exact hview.lookup va, List.append_nil]
    exact h.congr (congrArg Proc.pfSeq paging :) (congrArg Proc.resident paging :)
  | gone pagetable =>
    rw [pagetable] at halive
    cases halive
  | fault task task' run out =>
    rename_i va locks w x r root' tf o o'
    obtain rfl := Option.some.inj (hp.symm.trans task.pagetable)
    have hmapped : userMapped k i va = k.mem.lookup root va := by
      rw [userMapped, hp]
      rfl
    have hmapped' : userMapped k' i va = k'.mem.lookup root va := by
      rw [userMapped, show (k'.procs i).pagetable = some root from task'.pagetable]
      rfl
    have hl : loadsOf i k (.op i (.fault va w x locks)) k' =
        if k.mem.lookup root va = none ∧ (k'.mem.lookup root va).isSome = true then [pgRoundDown va]
        else [] := by
      simp only [loadsOf, hmapped, hmapped', true_and]
    rw [hl] at hfit ⊢
    obtain ⟨hload, hkeep⟩ := h.fault (t := k.task i) (htables i root hp) out (by omega)
    by_cases hc : k.mem.lookup root va = none ∧ (k'.mem.lookup root va).isSome = true
    · rw [if_pos hc]
      exact hload hc.1 hc.2
    · rw [if_neg hc, List.append_nil]
      exact hkeep hc
  | write task low mapped user writable page after =>
    rw [show loadsOf i k _ k' = [] from rfl, List.append_nil,
      show k'.procs i = k.procs i from congrArg Task.p after]
    exact h
  | sbrk int task task' out =>
    obtain ⟨hsub, hseq⟩ := out.resident_sublist
    rw [show loadsOf i k _ k' = [] from rfl, List.append_nil]
    exact h.sublist hseq hsub
  | exec => exact absurd rfl (hnoExec _ _)
  | child ne unused =>
    rw [((hinv.state i).unused unused).1] at hp
    cases hp

/-! ## Runs -/

/-- What is followed along a run. -/
def FifoAt (i : Nat) (L : List Nat) (k : Kernel) : Prop :=
  SmallReachable k ∧ (k.procs i).pagetable.isSome = true ∧ FifoInv L (k.procs i)

theorem Started.fifoAt {k : Kernel} (h : Started i k L) : FifoAt i L k := by
  cases h with
  | exec reachable runnable argvOk run ok =>
    obtain ⟨hreach, ip, l, b, root, -, -, -, -, -, -, -, -, hfresh⟩ :=
      exec_fresh reachable runnable argvOk run ok
    obtain ⟨hres, -, hseq⟩ := hfresh.tables
    have hsz : (k.procs i).sz - pgSize = stackBase l := by
      rw [show (k.procs i).sz = _ from hfresh.sz.1, Nat.add_sub_cancel]
    refine ⟨hreach, by rw [show (k.procs i).pagetable = some root from hfresh.pagetable]; rfl, hseq,
      ?_,
      fun e he => ?_⟩
    · rw [show (k.procs i).resident = _ from hres]
      exact List.pairwise_singleton _ _
    · rw [show (k.procs i).resident = _ from hres] at he
      rw [List.mem_singleton.mp he, hsz]
      exact ⟨congrArg Nat.cast (lastAt_append_self [] (stackBase l)).symm,
        List.mem_singleton_self _⟩
  | fork reachable runnable run new alive =>
    rename_i k₀ parent r
    have hs : SmallStep k₀ (.op parent .fork) k := .op runnable (.fork run)
    obtain ⟨⟨own, hinv⟩, -⟩ := tablesOk_reachable reachable
    obtain ⟨own', -, hslots⟩ := hs.slots hinv
    refine ⟨reachable.step hs, alive, ?_⟩
    have hnot : ∀ {root : Frame}, (k₀.procs i).pagetable ≠ some root := fun hc => by
      rw [new] at hc
      cases hc
    cases hslots i with
    | same paging =>
      rw [show (k.procs i).pagetable = none from (congrArg Proc.pagetable paging
        :).trans new] at alive
      cases alive
    | gone pagetable =>
      rw [pagetable] at alive
      cases alive
    | child ne unused parent proc =>
      rw [proc]
      exact ⟨rfl, List.Pairwise.nil, fun e he => by cases he⟩

theorem FifoAt.loads {L₁ : List Nat} (h : FifoAt i L k) (hrun : Loads i k L₁ k')
    (hfit : L.length + L₁.length < 2 ^ 31 - 1) : FifoAt i (L ++ L₁) k' := by
  induction hrun with
  | nil => rwa [List.append_nil]
  | snoc run step noExec alive ih =>
    rw [List.length_append] at hfit
    obtain ⟨hreach, halive, hinv⟩ := ih (by omega)
    obtain ⟨root, hroot⟩ := Option.isSome_iff_exists.mp halive
    rw [← List.append_assoc]
    refine ⟨hreach.step step, alive, hinv.step hreach step noExec hroot alive ?_⟩
    rw [List.length_append]
    omega

/-- **Replacement is exactly first in, first out**: along every run from a successful `exec`, or in
a new child, with fewer than `2^31 - 1` loads, the resident list is in the order of the last loads,
the victim is the page whose last load is the oldest, and `memstat` reports a next sequence number
above all that were handed out. -/
theorem replacement_fifo {L₀ L₁ L₂ : List Nat} (hstart : Started i k L₀) (hrun : Loads i k L₁ k')
    (hrun' : Loads i k' L₂ k'') (hfit : (L₀ ++ L₁ ++ L₂).length < 2 ^ 31 - 1) :
    FifoOrder (L₀ ++ L₁ ++ L₂) (k''.procs i) ∧
      ∀ e ∈ (k'.procs i).resident, e.seq < (memstat (k''.procs i)).nextFifoSeq := by
  simp only [List.length_append] at hfit
  have h₁ := hstart.fifoAt.loads hrun (by omega)
  have h₂ := h₁.loads hrun' (by rw [List.length_append]; omega)
  refine ⟨h₂.2.2.order, fun e he => ?_⟩
  have hnext : (memstat (k''.procs i)).nextFifoSeq = (L₀ ++ L₁ ++ L₂).length + 1 := by
    show int32 (u64 ((k''.procs i).pfSeq + 1)) = _
    rw [h₂.2.2.count, u64, Nat.mod_eq_of_lt (by simp only [List.length_append]; omega),
      int32_of_lt (by simp only [List.length_append]; omega)]
    push_cast
    rfl
  have hle := h₁.2.2.order.le_pfSeq e he
  rw [h₁.2.2.count] at hle
  rw [hnext]
  simp only [List.length_append] at hle ⊢
  push_cast at hle ⊢
  omega

/-- The step is an `exec`. -/
def Op.isExec : Op → Bool
  | .exec _ _ => true
  | _ => false

/-- The pages that process `i` loads in a list of its steps, other than `exec`, and the state after
them. -/
def loadsAfter (i : Nat) : List Op → Kernel → Option (List Nat × Kernel)
  | [], k => some ([], k)
  | o :: rest, k =>
    if (k.procs i).state = .runnable ∧ o.isExec = false then
      match o.run i k with
      | some k' =>
        if (k'.procs i).pagetable.isSome = true then
          (loadsAfter i rest k').map fun s => (loadsOf i k (.op i o) k' ++ s.1, s.2)
        else none
      | none => none
    else none

theorem loads_of_loadsAfter :
    ∀ (ops : List Op) {k₀ k k' : Kernel} {L L' : List Nat}, Loads i k₀ L k →
    loadsAfter i ops k = some (L', k') → Loads i k₀ (L ++ L') k' := by
  intro ops
  induction ops with
  | nil =>
    intro k₀ k k' L L' h heq
    cases heq
    rwa [List.append_nil]
  | cons o rest ih =>
    intro k₀ k k' L L' h heq
    unfold loadsAfter at heq
    split at heq
    · next hr =>
      split at heq
      · next k₁ ho =>
        split at heq
        · next halive =>
          obtain ⟨⟨L₁, k₂⟩, hrest, hpair⟩ := Option.map_eq_some_iff.mp heq
          cases hpair
          rw [← List.append_assoc]
          refine ih (h.snoc (.op hr.1 (Op.does_of_run ho)) (fun path argv hc => ?_) halive) hrest
          cases hc
          cases hr.2
        · cases heq
      · cases heq
    · cases heq

set_option maxRecDepth 100000 in
/-- A run on a machine with ten pages in which the stack page goes, comes back and is then the
youngest. -/
theorem replacement_fifo_reload : ∃ k k' k'' L₁ L₂, Started 0 k [0x4000] ∧ Loads 0 k L₁ k' ∧
    Loads 0 k' L₂ k'' ∧ L₁ = [0x5000, 0x6000, 0x7000, 0x8000] ∧ L₂ = [0x4000] ∧
    (k''.procs 0).resident.map (fun e => e.va) = [0x6000, 0x7000, 0x8000, 0x4000] ∧
    FifoOrder ([0x4000] ++ L₁ ++ L₂) (k''.procs 0) ∧
    ∀ e ∈ (k'.procs 0).resident, e.seq < (memstat (k''.procs 0)).nextFifoSeq := by
  have hrun : (match okState (userinit (machine 10 [smallProgram])) with
      | some k₀ => match exec 0 [47, 97] [[97]] k₀ with
        | .ok (r, k) => match loadsAfter 0 [.sbrk 0x8000, .fault 0x5000 true false 0,
            .fault 0x6000 true false 0, .fault 0x7000 false false 0,
            .fault 0x8000 true false 0] k with
          | some (L₁, k') => match loadsAfter 0 [.fault 0x4000 true false 0] k' with
            | some (L₂, k'') => decide ((k₀.procs 0).state = .runnable) && decide (0 ≤ r) &&
                decide ((k.procs 0).sz - pgSize = 0x4000) &&
                decide (L₁ = [0x5000, 0x6000, 0x7000, 0x8000]) && decide (L₂ = [0x4000]) &&
                decide ((k''.procs 0).resident.map (fun e => e.va) = [0x6000, 0x7000,
                  0x8000, 0x4000])
            | none => false
          | none => false
        | .error _ => false
      | none => false) = true := by decide +kernel
  split at hrun
  · next k₀ hinit =>
    split at hrun
    · next r k hexec =>
      split at hrun
      · next L₁ k' hloads₁ =>
        split at hrun
        · next L₂ k'' hloads₂ =>
          simp only [Bool.and_eq_true, decide_eq_true_eq] at hrun
          obtain ⟨⟨⟨⟨⟨hr, hok⟩, hsz⟩, hL₁⟩, hL₂⟩, hres⟩ := hrun
          have hstart : Started 0 k [0x4000] := hsz ▸
            .exec (smallReachable_init (by decide) hinit) hr argvOk_one hexec hok
          have hrun₁ := loads_of_loadsAfter _ (.nil k) hloads₁
          have hrun₂ := loads_of_loadsAfter _ (.nil k') hloads₂
          rw [List.nil_append] at hrun₁ hrun₂
          exact ⟨k, k', k'', L₁, L₂, hstart, hrun₁, hrun₂, hL₁, hL₂, hres,
            replacement_fifo hstart hrun₁ hrun₂ (by rw [hL₁, hL₂]; decide)⟩
        · cases hrun
      · cases hrun
    · cases hrun
  · cases hrun

end Xv6
