import OsnMp2.Kernel.Exec

/-!
# `memstat`

The system call `sys_memstat` of `sysproc.c`, which reports the paging metadata of a process:
totals, and the state of its first 128 pages.

## Main definitions

* `memstat`: the record that `sys_memstat` fills
* `sysMemstat`: the system call
-/

namespace Xv6

/-- `MAX_PAGES_INFO`. -/
abbrev maxPagesInfo : Nat := 128

/-- The states of a page in a report. -/
inductive PageState
  | unmapped | resident | swapped
deriving DecidableEq, Repr

/-- `struct page_stat`. -/
structure PageStat where
  va : Nat
  state : PageState := .unmapped
  isDirty : Bool := false
  seq : Int := 0
  swapSlot : Int := -1
deriving DecidableEq, Repr

/-- `struct proc_mem_stat`; `pages` has the entries that are filled. -/
structure ProcMemStat where
  pid : Int
  numPagesTotal : Int
  numResidentPages : Int
  numSwappedPages : Int
  nextFifoSeq : Int
  pages : List PageStat
deriving DecidableEq, Repr

/-- The entry of the page `va`: the first resident entry counts, then the first swapped one. -/
def pageStat (p : Proc) (va : Nat) : PageStat :=
  match p.resident.find? fun e => e.va == va with
  -- The field `va` of the report has 32 bits.
  | some e => { va := u32 va, state := .resident, isDirty := e.isDirty, seq := e.seq,
                swapSlot := e.swapSlot }
  | none =>
    match p.swapped.find? fun e => e.va == va with
    -- `is_dirty` and `seq` of a page in the swap area are reported as zero.
    | some e => { va := u32 va, state := .swapped, swapSlot := e.slot }
    | none => { va := u32 va }

/-- The loop of `sys_memstat` over the pages from `va` on, with room for `n` entries. -/
def fillPages (p : Proc) : Nat → Nat → List PageStat
  | 0, _ => []
  -- Pages from address 0 on, mapped or not.
  | n + 1, va => if va < p.sz then pageStat p va :: fillPages p n (va + pgSize) else []

/-- The record that `sys_memstat` fills. -/
def memstat (p : Proc) : ProcMemStat where
  pid := p.pid
  -- All counts are cut to `int`.
  numPagesTotal := int32 (pgRoundUp p.sz / pgSize)
  numResidentPages := p.resident.length
  numSwappedPages := p.swapped.length
  nextFifoSeq := int32 (u64 (p.pfSeq + 1))
  pages := fillPages p maxPagesInfo 0

/-- The bytes of an `int`. -/
def intBytes (x : Int) : List UInt8 := leBytes (x % 2 ^ 32).toNat 4

/-- The value of a state in the report. -/
def PageState.code : PageState → Int
  | .unmapped => 0
  | .resident => 1
  | .swapped => 2

/-- The bytes of an entry. -/
def PageStat.bytes (s : PageStat) : List UInt8 :=
  leBytes s.va 4 ++ intBytes s.state.code ++ intBytes (if s.isDirty then 1 else 0) ++
    intBytes s.seq ++ intBytes s.swapSlot

/-- The bytes of the record, as far as it is filled. -/
def ProcMemStat.bytes (s : ProcMemStat) : List UInt8 :=
  intBytes s.pid ++ intBytes s.numPagesTotal ++ intBytes s.numResidentPages ++
    intBytes s.numSwappedPages ++ intBytes s.nextFifoSeq ++ s.pages.flatMap PageStat.bytes

/-- `sys_memstat`: the record is copied out whole, with what the kernel stack held (`junk`) in the
entries that are not filled. -/
def sysMemstat (fs : Fs) (junk : List UInt8) (addr : Nat) : TM Int := do
  let t ← get
  let bytes := (memstat t.p).bytes
  -- `sizeof(stat)` bytes are copied, however many entries were filled.
  if (← copyout fs (← pagetableOf) addr (bytes ++ junk.drop bytes.length)) < 0 then pure (-1)
  else pure 0

/-! ## What the report says of a page -/

theorem pageStat_state (p : Proc) (va : Nat) :
    ((pageStat p va).state = .resident ↔ ∃ e ∈ p.resident, e.va = va) ∧
    ((pageStat p va).state = .swapped ↔ (¬ ∃ e ∈ p.resident, e.va = va) ∧ ∃ e ∈ p.swapped,
      e.va = va) := by
  unfold pageStat
  cases hr : p.resident.find? fun e => e.va == va with
  | some e =>
    have hmem := List.mem_of_find?_eq_some hr
    have hva : e.va = va := by simpa using List.find?_some hr
    simp only [reduceCtorEq, true_iff, false_iff]
    exact ⟨⟨e, hmem, hva⟩, fun hc => hc.1 ⟨e, hmem, hva⟩⟩
  | none =>
    have hnone : ¬ ∃ e ∈ p.resident, e.va = va := by
      rintro ⟨e, he, hva⟩
      simpa [hva] using List.find?_eq_none.mp hr e he
    dsimp only
    cases hs : p.swapped.find? fun e => e.va == va with
    | some e =>
      have hmem := List.mem_of_find?_eq_some hs
      have hva : e.va = va := by simpa using List.find?_some hs
      simp only [reduceCtorEq, true_iff, false_iff]
      exact ⟨hnone, hnone, e, hmem, hva⟩
    | none =>
      have hnone' : ¬ ∃ e ∈ p.swapped, e.va = va := by
        rintro ⟨e, he, hva⟩
        simpa [hva] using List.find?_eq_none.mp hs e he
      simp only [reduceCtorEq, false_iff]
      exact ⟨hnone, fun hc => hnone' hc.2⟩

/-- **The loop reports the pages below the size in order**, up to the limit. -/
theorem getElem?_fillPages (p : Proc) : ∀ n va i,
    (fillPages p n va)[i]? = if i < n ∧ va + i * pgSize < p.sz then
    some (pageStat p (va + i * pgSize))
      else none := by
  intro n
  induction n with
  | zero =>
    intro va i
    simp [fillPages]
  | succ n ih =>
    intro va i
    unfold fillPages
    split
    · next hlt =>
      cases i with
      | zero => simp [hlt]
      | succ i =>
        rw [List.getElem?_cons_succ, ih (va + pgSize) i]
        have haddr : va + pgSize + i * pgSize = va + (i + 1) * pgSize := by
          simp only [pgSize]
          omega
        rw [haddr]
        simp only [Nat.add_lt_add_iff_right]
    · next hlt =>
      rw [List.getElem?_nil, if_neg]
      rintro ⟨-, hc⟩
      simp only [pgSize] at hc
      omega

end Xv6
