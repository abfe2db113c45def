import OsnMp2.Kernel.Segments
import OsnMp2.Kernel.FaultFail

/-!
# Loading a page from the executable

The fault handler computes the place of a page in the file with 64 bits, and gives it to
`readi` as a `uint`. A page whose place is below 2^32 is loaded as if the whole segment had
been read beforehand: the bytes of the file up to `filesz`, zeros behind them, and no page when
the file ends before. A page at or beyond 2^32 gets other bytes of the file, those at the place
with its upper half cut off.

The segment that counts is the first recorded one that contains the page. The handler takes the
first one that contains the accessed address; where two segments share a page and the address is
behind the end of the first, that is another one.

## Main definitions

* `FileHolds`, `exactByte`: the bytes of the page in the file, in exact integers
* `LoadedExactly`: the page is mapped with them
* `OffsetFits`: the place of the page in the file fits in a `uint`
* `SameBytes`: another segment has the same bytes for the page

## Main results

* `lazy_load_exact_iff`: when a page is loaded with the exact bytes of its segment
* `lazy_load_wraps`: an executable that runs with its own ELF header as its text
* `lazy_load_shared`: an executable with two segments in one page
-/

namespace Xv6

variable {k : Kernel} {t t' : Task} {p : Proc} {root tf : Frame} {own own' : Set Frame} {fs : Fs}
  {seg : LazySeg} {i a va : Nat}

/-! ## Exact bytes -/

/-- The file has every byte that the page `a` of the segment takes from it. -/
def FileHolds (fs : Fs) (seg : LazySeg) (a : Nat) : Prop :=
  ∀ k < pgSize, a - seg.vaddr + k < seg.filesz →
    ∃ ip, seg.ip = some ip ∧ seg.fileoff + (a - seg.vaddr) + k < (fs.content ip).size

/-- Byte `k` of the page `a` of the segment: that of the file below `filesz`, and zero from there
on. -/
def exactByte (fs : Fs) (seg : LazySeg) (a k : Nat) : UInt8 :=
  if a - seg.vaddr + k < seg.filesz then
    match seg.ip with
    | some ip => (fs.content ip).data (seg.fileoff + (a - seg.vaddr) + k)
    | none => 0
  else 0

/-- **The page is loaded as an eager `exec` would have**: the file has its bytes, and
it is mapped with them. -/
def LoadedExactly (fs : Fs) (t' : Task) (root : Frame) (seg : LazySeg) (a : Nat) : Prop :=
  FileHolds fs seg a ∧ ∃ pte, t'.mem.lookup root a = some pte ∧
    ∀ k < pgSize, (t'.mem.phys pte.ppn).byte k = exactByte fs seg a k

/-- No page is mapped that was not mapped before. -/
def MapsNothing (t : Task) (root : Frame) (t' : Task) : Prop :=
  ∀ a < maxVa, t'.mem.lookup root a = none ∨ t'.mem.lookup root a = t.mem.lookup root a

/-- **The place of the page in the file fits in a `uint`**, or the page takes nothing from the
file. -/
def OffsetFits (seg : LazySeg) (a : Nat) : Prop :=
  seg.filesz ≤ a - seg.vaddr ∨ seg.fileoff + (a - seg.vaddr) < 2 ^ 32

/-- **Another segment has the same bytes**: those at its own place, modulo 2^32, are the exact ones
of the page of `first`, which the file has. -/
def SameBytes (fs : Fs) (seg first : LazySeg) (a : Nat) : Prop :=
  FileHolds fs first a ∧ ∀ k < pgSize, segPage fs seg a k = exactByte fs first a k

/-! ## The read -/

/-- The handler's difference is the exact one. -/
theorem pageOffset_eq (hlow : seg.vaddr ≤ a) (hhigh : a < maxVa) :
    u64 (a + (2 ^ 64 - seg.vaddr)) = a - seg.vaddr := by
  unfold u64
  simp only [maxVa] at hhigh
  omega

/-- A read of at most a page that delivers everything ends within the file. -/
theorem le_size_of_readiLen {d : Dinode} {off n : Nat} (hpos : 0 < n) (hn : n ≤ pgSize)
    (hoff : off < 2 ^ 32) (h : readiLen d off n = n) : off + n ≤ d.size := by
  unfold readiLen u32 at h
  simp only [pgSize] at hn
  split at h
  · omega
  · split at h <;> omega

/-- A segment that is loaded with success: the file was read in full, from the place of
the page modulo 2^32. -/
theorem loadSegment_full {f : Frame} {perm : Perm} (hlow : seg.vaddr ≤ a) (hhigh : a < maxVa)
    (hrun : loadSegment fs a f seg t = .ok (some perm, t')) (hin : a - seg.vaddr < seg.filesz) :
    ∃ ip, seg.ip = some ip ∧
      u32 (seg.fileoff + (a - seg.vaddr)) + min (seg.filesz - (a - seg.vaddr)) pgSize ≤
        (fs.content ip).size := by
  unfold loadSegment at hrun
  rw [pageOffset_eq hlow hhigh] at hrun
  dsimp only at hrun
  rw [if_pos hin] at hrun
  obtain ⟨_, t₁, -, hrun₁⟩ := Halting.bind_eq_ok.mp hrun
  cases hip : seg.ip with
  | none =>
    rw [hip] at hrun₁
    cases hrun₁
  | some ip =>
    rw [hip] at hrun₁
    obtain ⟨⟨n, bytes⟩, t₂, hread, hrun₂⟩ := Halting.bind_eq_ok.mp hrun₁
    obtain ⟨hrd, -⟩ := liftFs_eq_ok.mp hread
    have hlen := congrArg Prod.fst (readi_eq_ok hrd)
    dsimp only at hlen hrun₂
    split at hrun₂
    · cases hrun₂
    next hfull =>
    rw [not_not] at hfull
    refine ⟨ip, rfl, ?_⟩
    -- both are at most a page, so the conversion to `uint` keeps the length
    have hn : u32 (min (seg.filesz - (a - seg.vaddr)) pgSize) =
        min (seg.filesz - (a - seg.vaddr)) pgSize := by
      unfold u32
      simp only [pgSize]
      omega
    have hoff : u32 (u64 (seg.fileoff + (a - seg.vaddr))) =
      u32 (seg.fileoff + (a - seg.vaddr)) := by
      unfold u32 u64
      omega
    rw [hfull, hn, hoff] at hlen
    refine le_size_of_readiLen ?_ (Nat.min_le_right _ _) ?_ hlen.symm
    · simp only [pgSize]
      omega
    · unfold u32
      omega

/-- Where the place of the page fits, the bytes that the handler loads are the exact ones. -/
theorem OffsetFits.segPage (hfits : OffsetFits seg a) (hlow : seg.vaddr ≤ a) (hhigh : a < maxVa)
    {k : Nat} (hk : k < pgSize) : segPage fs seg a k = exactByte fs seg a k := by
  unfold Xv6.segPage exactByte
  rw [pageOffset_eq hlow hhigh]
  have hiff : (a - seg.vaddr < seg.filesz ∧ k < min (seg.filesz - (a - seg.vaddr)) pgSize) ↔
      a - seg.vaddr + k < seg.filesz := by
    simp only [pgSize] at *
    omega
  rw [if_congr hiff rfl rfl]
  split
  · next hin =>
    have hoff : u32 (u64 (seg.fileoff + (a - seg.vaddr))) = seg.fileoff + (a - seg.vaddr) := by
      unfold OffsetFits at hfits
      unfold u32 u64
      omega
    cases seg.ip with
    | none => rfl
    | some ip => exact congrArg (fun i => (fs.content ip).data (i + k)) hoff
  · rfl

/-- The first page byte at or beyond 2^32 is not in a file whose size is a `uint`. -/
theorem FileHolds.fits (h : FileHolds fs seg a)
    (hsize : ∀ ip, seg.ip = some ip → (fs.content ip).size < 2 ^ 32) : OffsetFits seg a := by
  unfold OffsetFits
  by_contra hc
  rw [not_or, not_le, not_lt] at hc
  obtain ⟨ip, hip, hlt⟩ := h 0 (by decide) hc.1
  have := hsize ip hip
  omega

/-! ## The handler -/

/-- A fault that returns zero on a page to be loaded from the segment has loaded it. -/
theorem faultLoad_loads {w : Bool} {j : Fin 16} (h : UserSpace t.mem root tf own)
    (hp : t.p.pagetable = some root) (hres : ∀ e ∈ t.p.resident, e.va < trapframeVa)
    (hslot : swapSlotOf t.p (pgRoundDown va) = none) (hseg : lazySegFind t.p va = some j)
    (hrun : faultLoad fs va w t = .ok (0, t')) :
    ∃ f perm t₁ t₂, loadSegment fs (pgRoundDown va) f (t.p.lazySegs j) t₁ =
    .ok (some perm, t₂) := by
  unfold faultLoad at hrun
  rw [Halting.bind_of_ok (Halting.get_apply _)] at hrun
  obtain ⟨o, t₁, hframe, hrun⟩ := Halting.bind_eq_ok.mp hrun
  obtain ⟨P, own₁, hev, -, -⟩ := faultFrame_spec h hp hres hframe
  cases o with
  | none => cases hrun
  | some f =>
    dsimp only at hrun
    obtain ⟨_, t₂, hset, hrun⟩ := Halting.bind_eq_ok.mp hrun
    obtain ⟨m₂, -, rfl⟩ := onMem_eq_ok.mp hset
    obtain ⟨o₃, t₃, hload, hrun⟩ := Halting.bind_eq_ok.mp hrun
    cases o₃ with
    | none =>
      obtain ⟨_, t₄, -, hrun⟩ := Halting.bind_eq_ok.mp hrun
      cases hrun
    | some perm =>
      refine ⟨f, perm, ⟨m₂, t₁.p⟩, t₃, ?_⟩
      unfold loadPage at hload
      rw [Halting.bind_of_ok (Halting.get_apply _), hslot] at hload
      unfold faultSeg at hload
      rw [hslot, hseg] at hload
      dsimp only [Option.isSome_none] at hload
      rw [if_neg (by decide), hev.lazySegs] at hload
      exact hload

/-- **Every outcome but a load** maps nothing. -/
theorem Fault.mapsNothing {w : Bool} {r : Int} (hr : r ≠ 0)
    (hf : Fault fs t va w root own r t' own') : r = -1 ∧ MapsNothing t root t' := by
  cases hf with
  | beyond | readOnly | invalid => exact ⟨rfl, fun _ _ => Or.inr rfl⟩
  | present | loaded => exact absurd rfl hr
  | stopped low unmapped valid evict full kept proc =>
    rename_i P p₁ p' m'
    refine ⟨rfl, fun a ha => ?_⟩
    by_cases hP : P (a / pgSize)
    · exact Or.inl (kept.gone a ha hP)
    · exact Or.inr (kept.lookup a ha hP)

/-- **A load with success** maps the page with the bytes of the segment of the accessed address. -/
theorem Fault.loads {w : Bool} {j : Fin 16} (hnone : t.mem.lookup root va = none)
    (hslot : swapSlotOf t.p (pgRoundDown va) = none) (hseg : lazySegFind t.p va = some j)
    (hf : Fault fs t va w root own 0 t' own') :
    va < maxVa ∧ ∃ pte, t'.mem.lookup root (pgRoundDown va) = some pte ∧
      ∀ n < pgSize, (t'.mem.phys pte.ppn).byte n = segPage fs (t.p.lazySegs j) (pgRoundDown
        va) n := by
  have hentry : swapEntry t.p (pgRoundDown va) = none := by
    rw [swapSlotOf_eq] at hslot
    exact Option.map_eq_none_iff.mp hslot
  generalize hr : (0 : Int) = r at hf
  cases hf with
  | beyond | readOnly | invalid | stopped => cases hr
  | present low mapped =>
    rw [hnone] at mapped
    cases mapped
  | loaded low unmapped valid evict full pageIn =>
    obtain ⟨f, hf, hbyte⟩ := pageIn.page
    refine ⟨low, _, by rw [lookup_pgRoundDown]; exact hf, fun n hn => ?_⟩
    rw [hbyte, loadBytes, hentry]
    dsimp only
    rw [backing, hseg]

/-- A page whose place fits and that was loaded is loaded exactly. -/
theorem OffsetFits.loadedExactly {w x : Bool} {j : Fin 16} (htask : TaskOk t root tf own)
    (hsegs : EverySeg LazySeg.Aligned t.p) (hnone : t.mem.lookup root va = none)
    (hslot : swapSlotOf t.p (pgRoundDown va) = none) (hseg : lazySegFind t.p va = some j)
    (hfits : OffsetFits (t.p.lazySegs j) (pgRoundDown va))
    (hrun : demandPageLoadNew fs va w x t = .ok (0, t')) (hf : Fault fs t va w root own 0 t' own') :
    LoadedExactly fs t' root (t.p.lazySegs j) (pgRoundDown va) := by
  obtain ⟨hj, hc⟩ := lazySegFind_spec hseg
  have hbase := hc.base (hsegs j hj)
  obtain ⟨low, pte, hpte, hbyte⟩ := hf.loads hnone hslot hseg
  have hhigh : pgRoundDown va < maxVa := (pgRoundDown_le va).trans_lt low
  refine ⟨fun n hn hin => ?_, pte, hpte, fun n hn => ?_⟩
  · -- the file was read in full
    have hvalid : isValid t.p va = true := by
      by_contra hinvalid
      rw [demandPageLoadNew_of_unmapped htask.pagetable low hnone, if_neg hinvalid] at hrun
      cases hrun
    rw [demandPageLoadNew_of_unmapped htask.pagetable low hnone, if_pos hvalid] at hrun
    have hin₀ : pgRoundDown va - (t.p.lazySegs j).vaddr < (t.p.lazySegs j).filesz :=
      (Nat.le_add_right _ _).trans_lt hin
    obtain ⟨f, perm, t₁, t₂, hload⟩ := faultLoad_loads htask.space htask.pagetable
      (fun e he => (htask.resident e he).1) hslot hseg hrun
    obtain ⟨ip, hip, hlen⟩ := loadSegment_full hbase.1 hhigh hload hin₀
    refine ⟨ip, hip, ?_⟩
    have hoff : u32 ((t.p.lazySegs j).fileoff + (pgRoundDown va - (t.p.lazySegs j).vaddr)) =
        (t.p.lazySegs j).fileoff + (pgRoundDown va - (t.p.lazySegs j).vaddr) :=
      Nat.mod_eq_of_lt (hfits.resolve_left (not_le.mpr hin₀))
    rw [hoff] at hlen
    omega
  · rw [hbyte n hn]
    exact hfits.segPage hbase.1 hhigh hn

/-- A page that was loaded with the bytes of one segment has the exact bytes of another one if and
only if the two have the same. -/
theorem loadedExactly_iff_sameBytes {seg first : LazySeg} {pte : Pte}
    (hpte : t'.mem.lookup root a = some pte)
    (hbyte : ∀ n < pgSize, (t'.mem.phys pte.ppn).byte n = segPage fs seg a n) :
    LoadedExactly fs t' root first a ↔ SameBytes fs seg first a := by
  constructor
  · rintro ⟨hholds, pte', hpte', hexact⟩
    obtain rfl := Option.some.inj (hpte.symm.trans hpte')
    exact ⟨hholds, fun n hn => (hbyte n hn).symm.trans (hexact n hn)⟩
  · rintro ⟨hholds, hsame⟩
    exact ⟨hholds, pte, hpte, fun n hn => (hbyte n hn).trans (hsame n hn)⟩

/-- **When lazy loading is eager loading**: in every reachable state, for every fault on a page
that is loaded from a recorded segment, with `first` the first recorded segment that contains the
page. A call that returns zero, for an address in that segment, has loaded the exact bytes if and
only if the place of the page fits; for an address behind its end, in a segment `j` recorded later,
if and only if that segment has the same bytes. Any other call returns -1 and maps nothing. The
size of an inode is a `uint`. -/
theorem lazy_load_exact_iff (h : SmallReachable k) (hp : (k.procs i).pagetable = some root)
    {w x : Bool} {r : Int} {j first : Fin 16}
    (hsize : ∀ ip, ((k.procs i).lazySegs first).ip = some ip → (fs.content ip).size < 2 ^ 32)
    (hnone : k.mem.lookup root va = none) (hslot : swapSlotOf (k.procs i) (pgRoundDown va) = none)
    (hfirst : lazySegFind (k.procs i) (pgRoundDown va) = some first)
    (hseg : lazySegFind (k.procs i) va = some j)
    (hrun : demandPageLoadNew fs va w x (k.task i) = .ok (r, t')) :
    (r = 0 → (LoadedExactly fs t' root ((k.procs i).lazySegs first) (pgRoundDown va) ↔
      if j = first then OffsetFits ((k.procs i).lazySegs first) (pgRoundDown va)
      else SameBytes fs ((k.procs i).lazySegs j) ((k.procs i).lazySegs first) (pgRoundDown va))) ∧
    (r ≠ 0 → r = -1 ∧ MapsNothing (k.task i) root t') := by
  obtain ⟨⟨own, hinv⟩, -⟩ := tablesOk_reachable h
  obtain ⟨tf, o, -, -, htask⟩ := hinv.live hp
  obtain ⟨o', htask', -, hf⟩ := htask.fault hrun
  have hsegs : EverySeg LazySeg.Aligned (k.procs i) := segs_reachable h i root hp
  refine ⟨fun hr => ?_, fun hr => hf.mapsNothing hr⟩
  subst hr
  split
  · next heq =>
    subst heq
    exact ⟨fun hexact => hexact.1.fits hsize, fun hfits =>
      hfits.loadedExactly htask hsegs hnone hslot hseg hrun hf⟩
  · obtain ⟨-, pte, hpte, hbyte⟩ := hf.loads hnone hslot hseg
    exact loadedExactly_iff_sameBytes hpte hbyte

set_option maxRecDepth 100000 in
/-- A read of the second page of the data loads it, and it takes nothing from the file. -/
theorem lazy_load_exact_iff_bss : ∃ root t', (afterExec.procs 0).pagetable = some root ∧
    demandPageLoadNew afterExec.fs 0x2345 false false (afterExec.task 0) = .ok (0, t') ∧
    LoadedExactly afterExec.fs t' root ((afterExec.procs 0).lazySegs 1) 0x2000 := by
  have hrun : (afterExec.procs 0).pagetable.any (fun root =>
      (afterExec.mem.lookup root 0x2345).isNone && (swapSlotOf (afterExec.procs 0) 0x2000).isNone &&
      decide (lazySegFind (afterExec.procs 0) 0x2000 = some 1 ∧
        lazySegFind (afterExec.procs 0) 0x2345 = some 1) &&
      ((afterExec.procs 0).lazySegs 1).ip.all (fun ip =>
        decide ((afterExec.fs.content ip).size < 4294967296)) &&
      decide (((afterExec.procs 0).lazySegs 1).filesz ≤ 0x2000 - ((afterExec.procs 0).lazySegs
        1).vaddr) &&
      Halting.passes (demandPageLoadNew afterExec.fs 0x2345 false false (afterExec.task 0))
        fun r _ =>
        decide (r = 0)) = true := by
    decide +kernel
  obtain ⟨root, hroot, hrun⟩ := (Option.any_eq_true _ _).mp hrun
  simp only [Bool.and_eq_true, Option.isNone_iff_eq_none, decide_eq_true_eq] at hrun
  obtain ⟨⟨⟨⟨⟨hnone, hslot⟩, hfirst, hseg⟩, hsize⟩, hbss⟩, hpass⟩ := hrun
  obtain ⟨r, t', hfault, hr⟩ := Halting.passes_eq_true.mp hpass
  obtain rfl := of_decide_eq_true hr
  refine ⟨root, t', hroot, hfault, ?_⟩
  apply ((lazy_load_exact_iff afterExec_reachable.small hroot (fun ip hip => ?_) hnone
    hslot hfirst hseg hfault).1 rfl).mpr
  · rw [if_pos rfl]
    exact Or.inl hbss
  · rw [hip] at hsize
    exact of_decide_eq_true hsize

/-- A program whose text is said to be 2^32 bytes from the start of the file. -/
def farProgram : List UInt8 := elfFile [progHdrBytes 5 0x100000000 0 0x1000 0x1000]

/-- The program with the text out of reach, started. -/
@[irreducible] def afterFar :
    Kernel := stateAfter (machine 40 [farProgram]) [(0, .exec [47, 97] [[97]])]

set_option maxRecDepth 100000 in
theorem afterFar_reachable : Reachable afterFar := by
  unfold afterFar
  exact reachable_of_stateAfter (machine_boot (by decide) _) (by decide +kernel)

set_option maxRecDepth 100000 in
/-- **A page beyond 2^32** is loaded from the start of the file: the first bytes of the text are the
magic number of the ELF header, and the file has no byte of the page. -/
theorem lazy_load_wraps : SmallReachable afterFar ∧ ∃ root t',
    (afterFar.procs 0).pagetable = some root ∧ lazySegFind (afterFar.procs 0) 0 = some 0 ∧
    demandPageLoadNew afterFar.fs 0 false true (afterFar.task 0) = .ok (0, t') ∧
    (t'.mem.lookup root 0).map (fun pte => (List.range 4).map (t'.mem.phys pte.ppn).byte) =
      some [0x7f, 0x45, 0x4c, 0x46] ∧
    ¬ LoadedExactly afterFar.fs t' root ((afterFar.procs 0).lazySegs 0) 0 := by
  have hrun : (afterFar.procs 0).pagetable.any (fun root =>
      decide (lazySegFind (afterFar.procs 0) 0 = some 0) &&
      decide (((afterFar.procs 0).lazySegs 0).vaddr = 0 ∧
        0 < ((afterFar.procs 0).lazySegs 0).filesz) &&
      ((afterFar.procs 0).lazySegs 0).ip.all (fun ip =>
        decide ((afterFar.fs.content ip).size ≤ ((afterFar.procs 0).lazySegs 0).fileoff)) &&
      Halting.passes (demandPageLoadNew afterFar.fs 0 false true (afterFar.task 0)) fun r t' =>
        decide (r = 0) && decide ((t'.mem.lookup root 0).map (fun pte =>
          (List.range 4).map (t'.mem.phys pte.ppn).byte) = some [0x7f, 0x45, 0x4c,
            0x46])) = true := by
    decide +kernel
  obtain ⟨root, hroot, hrun⟩ := (Option.any_eq_true _ _).mp hrun
  simp only [Bool.and_eq_true, decide_eq_true_eq] at hrun
  obtain ⟨⟨⟨hseg, hvaddr, hfilesz⟩, hsize⟩, hpass⟩ := hrun
  obtain ⟨r, t', hfault, hr⟩ := Halting.passes_eq_true.mp hpass
  simp only [Bool.and_eq_true, decide_eq_true_eq] at hr
  obtain ⟨rfl, hbytes⟩ := hr
  refine ⟨afterFar_reachable.small, root, t', hroot, hseg, hfault, hbytes, fun hexact => ?_⟩
  obtain ⟨ip, hip, hlt⟩ := hexact.1 0 (by decide) (by omega)
  rw [hip] at hsize
  have hle := of_decide_eq_true hsize
  omega

/-- A program with two segments from address zero: half a page from the start of the file, and a
page from its second page. -/
def sharedProgram : List UInt8 :=
  elfFile [progHdrBytes 5 0 0 0x800 0x800, progHdrBytes 5 0x1000 0 0x1000 0x1000]

/-- The program with two segments in one page, started. -/
@[irreducible] def afterShared : Kernel :=
  stateAfter (machine 40 [sharedProgram]) [(0, .exec [47, 97] [[97]])]

set_option maxRecDepth 100000 in
theorem afterShared_reachable : Reachable afterShared := by
  unfold afterShared
  exact reachable_of_stateAfter (machine_boot (by decide) _) (by decide +kernel)

set_option maxRecDepth 100000 in
/-- **A page of two segments** is loaded from the second one, when the address is behind the end of
the first: the page has the sevens of the file where the first segment has its ELF header. -/
theorem lazy_load_shared : SmallReachable afterShared ∧ ∃ root t',
    (afterShared.procs 0).pagetable = some root ∧ lazySegFind (afterShared.procs 0) 0 = some 0 ∧
    lazySegFind (afterShared.procs 0) 0x900 = some 1 ∧
    OffsetFits ((afterShared.procs 0).lazySegs 0) 0 ∧
    demandPageLoadNew afterShared.fs 0x900 false false (afterShared.task 0) = .ok (0, t') ∧
    ¬ LoadedExactly afterShared.fs t' root ((afterShared.procs 0).lazySegs 0) 0 := by
  have hrun : (afterShared.procs 0).pagetable.any (fun root =>
      decide (lazySegFind (afterShared.procs 0) 0 = some 0 ∧
        lazySegFind (afterShared.procs 0) 0x900 = some 1) &&
      decide (((afterShared.procs 0).lazySegs 0).fileoff + (0 - ((afterShared.procs 0).lazySegs
        0).vaddr) < 4294967296) &&
      decide (exactByte afterShared.fs ((afterShared.procs 0).lazySegs 0) 0 0 = 0x7f) &&
      Halting.passes (demandPageLoadNew afterShared.fs 0x900 false false (afterShared.task 0))
        fun r t' =>
        decide (r = 0) && decide ((t'.mem.lookup root 0).map (fun pte =>
          (t'.mem.phys pte.ppn).byte 0) = some 7)) = true := by
    decide +kernel
  obtain ⟨root, hroot, hrun⟩ := (Option.any_eq_true _ _).mp hrun
  simp only [Bool.and_eq_true, decide_eq_true_eq] at hrun
  obtain ⟨⟨⟨⟨hfirst, hseg⟩, hfits⟩, hexact⟩, hpass⟩ := hrun
  obtain ⟨r, t', hfault, hr⟩ := Halting.passes_eq_true.mp hpass
  simp only [Bool.and_eq_true, decide_eq_true_eq] at hr
  obtain ⟨rfl, hbyte⟩ := hr
  refine ⟨afterShared_reachable.small, root, t', hroot, hfirst, hseg, Or.inr hfits, hfault, ?_⟩
  rintro ⟨-, pte, hpte, hall⟩
  rw [hpte] at hbyte
  have hseven : (t'.mem.phys pte.ppn).byte 0 = 7 := Option.some.inj hbyte
  have helf := hall 0 (by decide)
  rw [hseven, hexact] at helf
  exact absurd helf (by decide)

end Xv6
