import OsnMp2.Kernel.Memstat
import OsnMp2.Kernel.Shrink

/-!
# What `memstat` discloses

`sys_memstat` fills a structure on the kernel stack and copies all of it out. The loop over
the pages stops at the size of the process, so the entries behind it are what the stack held
before. The report is a function of the paging state of the caller exactly when the process
has a page for every entry.

## Main definitions

* `statBytes`: the bytes that `sys_memstat` copies out
* `SamePagingState`: two processes with the same paging state
* `DisclosesOwnState`: the bytes copied out depend on the paging state only

## Main results

* `memstat_discloses_iff`: when they do
-/

namespace Xv6

variable {p p' : Proc}

/-- `sizeof(struct proc_mem_stat)`. -/
def statSize : Nat := 20 + 20 * maxPagesInfo

/-- The bytes that `sys_memstat` copies out, with what the kernel stack held where it puts them. -/
def statBytes (p : Proc) (stack : List UInt8) : List UInt8 :=
  (memstat p).bytes ++ stack.drop (memstat p).bytes.length

theorem sysMemstat_eq (fs : Fs) (stack : List UInt8) (addr : Nat) (t : Task) :
    sysMemstat fs stack addr t = (do
      if (← copyout fs (← pagetableOf) addr (statBytes t.p stack)) < 0 then pure (-1)
      else pure 0 : TM Int) t := rfl

/-- The processes have the same identifier, size, fault counter, resident list and swap array. -/
structure SamePagingState (p p' : Proc) : Prop where
  pid : p'.pid = p.pid
  sz : p'.sz = p.sz
  pfSeq : p'.pfSeq = p.pfSeq
  resident : p'.resident = p.resident
  swapped : p'.swapped = p.swapped
  pagetable : p'.pagetable = p.pagetable

theorem SamePagingState.refl (p : Proc) : SamePagingState p p := by constructor <;> rfl

theorem SamePagingState.pageStat (h : SamePagingState p p') (va : Nat) :
    pageStat p' va = pageStat p va := by
  unfold Xv6.pageStat
  rw [h.resident, h.swapped]

theorem SamePagingState.fillPages (h : SamePagingState p p') (n : Nat) :
    ∀ va, fillPages p' n va = fillPages p n va := by
  induction n with
  | zero => exact fun _ => rfl
  | succ n ih =>
    intro va
    unfold Xv6.fillPages
    rw [h.sz, h.pageStat, ih]

/-- The record is a function of the paging state. -/
theorem SamePagingState.memstat (h : SamePagingState p p') : memstat p' = memstat p := by
  unfold Xv6.memstat
  rw [h.pid, h.sz, h.pfSeq, h.resident, h.swapped, h.fillPages]

/-! ## The size of the record -/

@[simp] theorem length_leBytes (x : Nat) : ∀ n, (leBytes x n).length = n := by
  intro n
  induction n generalizing x with
  | zero => rfl
  | succ n ih => rw [leBytes, List.length_cons, ih]

@[simp] theorem length_intBytes (x : Int) : (intBytes x).length = 4 := length_leBytes _ 4

@[simp] theorem PageStat.length_bytes (s : PageStat) : s.bytes.length = 20 := by
  simp [PageStat.bytes]

theorem ProcMemStat.length_bytes (s : ProcMemStat) : s.bytes.length = 20 + 20 * s.pages.length := by
  simp [ProcMemStat.bytes, List.length_flatMap]
  omega

theorem length_fillPages_le (p : Proc) (n : Nat) : ∀ va, (fillPages p n va).length ≤ n := by
  induction n with
  | zero => exact fun _ => Nat.le_refl 0
  | succ n ih =>
    intro va
    unfold fillPages
    split
    · exact Nat.succ_le_succ (ih _)
    · exact Nat.zero_le _

/-- All entries are filled when the process has a page for the last one. -/
theorem length_fillPages_iff (p : Proc) :
    (fillPages p maxPagesInfo 0).length = maxPagesInfo ↔ (maxPagesInfo - 1) * pgSize < p.sz := by
  have hle := length_fillPages_le p maxPagesInfo 0
  have hlast := getElem?_fillPages p maxPagesInfo 0 (maxPagesInfo - 1)
  rw [Nat.zero_add] at hlast
  constructor
  · intro hlen
    by_contra hc
    rw [if_neg fun h => hc h.2, List.getElem?_eq_none_iff, hlen] at hlast
    exact absurd hlast (by decide)
  · intro hsz
    rw [if_pos ⟨by decide, hsz⟩] at hlast
    obtain ⟨hlt, -⟩ := List.getElem?_eq_some_iff.mp hlast
    simp only [maxPagesInfo] at hlt hle ⊢
    omega

/-! ## What is disclosed -/

/-- **The report discloses nothing but the paging state**: what is copied out is the same for every
process with this paging state, whatever the kernel stack held. -/
def DisclosesOwnState (p : Proc) : Prop :=
  ∀ p' stack stack', SamePagingState p p' → stack.length = statSize → stack'.length = statSize →
    statBytes p stack = statBytes p' stack'

/-- **When `memstat` reveals nothing but the caller's own paging state**: exactly when the process
is large enough for all entries to be filled. -/
theorem memstat_discloses_iff (p : Proc) :
    DisclosesOwnState p ↔ (maxPagesInfo - 1) * pgSize < p.sz := by
  have hlen : (memstat p).bytes.length = 20 + 20 * (fillPages p maxPagesInfo 0).length :=
    ProcMemStat.length_bytes _
  rw [← length_fillPages_iff]
  constructor
  · intro h
    -- two stacks that differ in their last byte
    have hsame := h p (List.replicate statSize 0) (List.replicate statSize 1) (.refl p)
      List.length_replicate List.length_replicate
    have hrest := List.append_cancel_left hsame
    rw [List.drop_replicate, List.drop_replicate, List.replicate_inj] at hrest
    obtain ⟨-, hzero | hbyte⟩ := hrest
    · have hle := length_fillPages_le p maxPagesInfo 0
      rw [hlen] at hzero
      simp only [statSize, maxPagesInfo] at hzero hle ⊢
      omega
    · exact absurd hbyte (by decide)
  · intro hfull p' stack stack' hp hstack hstack'
    have hsize : (memstat p).bytes.length = statSize := by rw [hlen, hfull, statSize]
    unfold statBytes
    rw [hp.memstat, hsize, ← hstack, List.drop_length, hstack, ← hstack', List.drop_length]

set_option maxRecDepth 100000 in
/-- **A process of seven pages reads the kernel stack**: the reports of two runs that differ in the
previous contents of the stack only differ in the byte behind the entry of the last page. -/
theorem memstat_discloses_stack : ∃ t t', Reachable afterGrow ∧
    sysMemstat afterGrow.fs (List.replicate statSize 0) 0x1000 (afterGrow.task 0) = .ok (0, t) ∧
    sysMemstat afterGrow.fs (List.replicate statSize 7) 0x1000 (afterGrow.task 0) = .ok (0, t') ∧
    userLoad t (0x1000 + 20 + 20 * 7) ≠ userLoad t' (0x1000 + 20 + 20 * 7) := by
  have hrun : Halting.passes
      (sysMemstat afterGrow.fs (List.replicate statSize 0) 0x1000 (afterGrow.task 0)) (fun r t =>
        Halting.passes
          (sysMemstat afterGrow.fs (List.replicate statSize 7) 0x1000 (afterGrow.task 0))
          fun r' t' =>
          decide (r = 0) && decide (r' = 0) &&
            decide (userLoad t (0x1000 + 20 + 20 * 7) ≠ userLoad t' (0x1000 + 20 + 20 * 7))) =
            true := by
    decide +kernel
  obtain ⟨r, t, hfirst, hrun⟩ := Halting.passes_eq_true.mp hrun
  obtain ⟨r', t', hsecond, hrun⟩ := Halting.passes_eq_true.mp hrun
  simp only [Bool.and_eq_true, decide_eq_true_eq] at hrun
  obtain ⟨⟨rfl, rfl⟩, hbyte⟩ := hrun
  exact ⟨t, t', afterGrow_reachable, hfirst, hsecond, hbyte⟩

end Xv6
