import OsnMp2.Kernel.Guard

/-!
# The recorded segments and the validity check

The segments that `exec` records begin at page boundaries, in every reachable state. They need not
end at one, and the fault handler looks for the segment of the address that was accessed, not of its
page: past the end of a segment, but in its last page, an access is refused, while the page is valid
for an access below and for the kernel's copies, which ask for the first address of the page.

## Main definitions

* `LazySeg.Contains`: the segment contains an address
* `Accepts`: the handler does not take its exit for invalid accesses
* `WholePage`: the condition that a page has one answer

## Main results

* `segs_reachable`: the recorded segments begin at page boundaries
* `validity_by_page`: every address of a page has the same answer exactly under the condition
* `validity_by_byte`: a page with two answers
-/

namespace Xv6

variable {k k' : Kernel} {t t' : Task} {p p' : Proc} {root tf : Frame} {own own' : Set Frame}

/-! ## Segments -/

/-- The segment contains the address. -/
def LazySeg.Contains (s : LazySeg) (va : Nat) : Prop := s.vaddr ≤ va ∧ va < u64 (s.vaddr + s.memsz)

/-- The segment contains every address of the page `a`. -/
def LazySeg.Covers (s : LazySeg) (a : Nat) : Prop :=
  s.vaddr ≤ a ∧ a + pgSize ≤ u64 (s.vaddr + s.memsz)

/-- The segment that `lazy_seg_find` finds is recorded and contains the address. -/
theorem lazySegFind_spec {va : Nat} {j : Fin 16} (h : lazySegFind p va = some j) :
    j.val < p.lazyNseg ∧ (p.lazySegs j).Contains va := by
  have hj := List.find?_some h
  simp only [Bool.and_eq_true, decide_eq_true_eq] at hj
  exact ⟨hj.1.1, hj.1.2, hj.2⟩

/-- `lazy_seg_find` finds a segment when there is one. -/
theorem isSome_lazySegFind {va : Nat} :
    (lazySegFind p va).isSome = true ↔ ∃ j : Fin 16, j.val < p.lazyNseg ∧
    (p.lazySegs j).Contains va := by
  constructor
  · intro h
    obtain ⟨j, hj⟩ := Option.isSome_iff_exists.mp h
    exact ⟨j, lazySegFind_spec hj⟩
  · rintro ⟨j, hj, hlow, hhigh⟩
    refine List.find?_isSome.mpr ⟨j, List.mem_finRange j, ?_⟩
    simp only [Bool.and_eq_true, decide_eq_true_eq]
    exact ⟨⟨hj, hlow⟩, hhigh⟩

/-- A property of every recorded segment. -/
def EverySeg (P : LazySeg → Prop) (p : Proc) : Prop :=
  ∀ j : Fin 16, j.val < p.lazyNseg → P (p.lazySegs j)

theorem EverySeg.congr {P : LazySeg → Prop} (h : EverySeg P p) (hsegs : p'.lazySegs = p.lazySegs)
    (hn : p'.lazyNseg = p.lazyNseg) : EverySeg P p' := by
  intro j hj
  rw [hsegs]
  exact h j (hn ▸ hj)

/-- The segments that `exec` records are those of the headers. -/
theorem everySeg_execProc {P : LazySeg → Prop} {ip : Nat} {l : List ProgHdr}
    (h : ∀ ph ∈ l, P (ph.seg ip)) : EverySeg P (execProc p ip l) := by
  intro j hj
  have hn : (execProc p ip l).lazyNseg = l.length := Nat.zero_add _
  rw [hn] at hj
  have hseg : (execProc p ip l).lazySegs j = (l[j.val]).seg ip := by
    simp only [execProc, recordProc, setSegs, Nat.zero_le, if_true, Nat.sub_zero,
      List.getElem?_eq_getElem hj]
  rw [hseg]
  exact h _ (List.getElem_mem hj)

/-- **`exec`** keeps the recorded segments or replaces them by those of loadable
headers, also when it fails. -/
theorem ExecOut.everySeg {P : LazySeg → Prop} {fs : Fs} {ip : Nat} {argv : List (List UInt8)}
    {r : Int} (hout : ExecOut fs ip argv t root tf own r t')
    (hload : ∀ ph : ProgHdr, ph.loadable = true → P (ph.seg ip)) (h : EverySeg P t.p) :
    EverySeg P t'.p := by
  have hscan : ∀ {hdr : ElfHdr} {l : List ProgHdr} {through : Bool},
      scanHdrs (fs.content ip) hdr.phnum hdr.phoff 0 = (l, through) → ∀ ph ∈ l, P (ph.seg ip) := by
    intro hdr l through scan ph hph
    apply hload
    apply loadable_of_mem_scanHdrs (fs.content ip) hdr.phnum hdr.phoff 0
    rwa [scan]
  cases hout with
  | noElf | noTable => exact h
  | bad elf scan => exact everySeg_execProc (hscan scan)
  | noRoom elf scan => exact everySeg_execProc (hscan scan)
  | done elf scan => exact (everySeg_execProc (p := t.p) (hscan scan)).congr rfl rfl

/-- The segment begins at a page boundary. -/
def LazySeg.Aligned (s : LazySeg) : Prop := s.vaddr % pgSize = 0

/-- An address in a segment that begins at a page boundary has the first address of its page in
it. -/
theorem LazySeg.Contains.base {s : LazySeg} {va : Nat} (h : s.Contains va) (hs : s.Aligned) :
    s.Contains (pgRoundDown va) := by
  obtain ⟨hlow, hhigh⟩ := h
  unfold LazySeg.Aligned at hs
  constructor
  · unfold pgRoundDown
    simp only [pgSize] at *
    omega
  · exact (pgRoundDown_le va).trans_lt hhigh

theorem preserved_segs (m : Move) : Preserved (fun t _ => EverySeg LazySeg.Aligned t.p) k m k' where
  stable j := {
    congr := fun _ _ _ hv h => h.congr (congrArg Proc.lazySegs hv.paging :)
      (congrArg Proc.lazyNseg hv.paging :)
    fault := fun _ _ _ _ _ _ _ _ _ _ _ _ _ hf h =>
      h.congr hf.sameImage.lazySegs hf.sameImage.lazyNseg
    write := fun _ _ _ _ _ _ _ _ _ _ _ _ _ h => h
    sbrk := fun _ _ _ _ _ _ _ _ _ _ hg h => by
      generalize k'.task j = t' at hg
      cases hg <;> exact h
    child := fun i root root' tf tf' o _ _ _ hproc _ _ h => by
      show EverySeg LazySeg.Aligned (k'.procs j)
      rw [hproc]
      exact h.congr rfl rfl }
  exec _ _ _ _ _ _ _ _ _ _ _ _ _ hout _ h := by
    refine hout.everySeg (fun ph hph => ?_) h
    simp only [ProgHdr.loadable, Bool.and_eq_true, decide_eq_true_eq, beq_iff_eq] at hph
    exact hph.2

/-- **The recorded segments begin at page boundaries in every reachable state.** -/
theorem segs_reachable (h : SmallReachable k) :
    EveryTask (fun t _ => EverySeg LazySeg.Aligned t.p) k :=
  (h.everyTask (fun t _ _ _ hp _ j hj => by
    rw [show t.p.lazyNseg = 0 from (congrArg Proc.lazyNseg hp :)] at hj
    exact absurd hj (Nat.not_lt_zero _))
    fun _ m _ _ _ _ => preserved_segs m).2

/-! ## The validity check -/

/-- `demand_page_load_new` **accepts** an access at `va` to a page that is not mapped: it does not
take its exit for invalid accesses. Beyond the address space it takes another exit before. -/
def Accepts (p : Proc) (va : Nat) : Prop := va < maxVa → isValid p va = true

/-- **The page has one answer**: it is in the heap, the stack or the swap array, or a segment that
contains its first address covers it whole. -/
def WholePage (p : Proc) (a : Nat) : Prop :=
  maxVa ≤ a ∨ inHeap p a = true ∨ inStack p a = true ∨ (∃ e ∈ p.swapped, e.va = a) ∨
    ((∃ j : Fin 16, j.val < p.lazyNseg ∧ (p.lazySegs j).Contains a) →
      ∃ j : Fin 16, j.val < p.lazyNseg ∧ (p.lazySegs j).Covers a)

/-- The first address of a page has a segment that contains some address of it. -/
theorem lazySegFind_base (h : EverySeg LazySeg.Aligned p) {va : Nat}
    (hfind : (lazySegFind p va).isSome = true) :
    (lazySegFind p (pgRoundDown va)).isSome = true := by
  obtain ⟨j, hj, hc⟩ := isSome_lazySegFind.mp hfind
  exact isSome_lazySegFind.mpr ⟨j, hj, hc.base (h j hj)⟩

/-- A page with one answer. -/
theorem WholePage.accepts (hsegs : EverySeg LazySeg.Aligned p) {a va : Nat} (h : WholePage p a)
    (hva : pgRoundDown va = a) : Accepts p va ↔ Accepts p a := by
  have halign : pgRoundDown a = a := by
    rw [← hva]
    exact pgRoundDown_congr (page_pgRoundDown va)
  have hlow : va < maxVa ↔ a < maxVa := by
    rw [← hva]
    unfold pgRoundDown
    simp only [maxVa, pgSize]
    omega
  unfold Accepts
  rw [hlow, isValid_iff, isValid_iff, hva, halign]
  rcases h with hhigh | hheap | hstack | hswap | hcover
  · exact ⟨fun _ hc => absurd hc (Nat.not_lt.mpr hhigh),
      fun _ hc => absurd hc (Nat.not_lt.mpr hhigh)⟩
  · simp only [hheap, true_or, or_true]
  · simp only [hstack, or_true]
  · simp only [hswap, true_or, or_true]
  · -- the segments have one answer
    have hseg : (lazySegFind p va).isSome = true ↔ (lazySegFind p a).isSome = true := by
      constructor
      · intro hfind
        rw [← hva]
        exact lazySegFind_base hsegs hfind
      · intro hfind
        obtain ⟨j, hj, hstart, hend⟩ := hcover (isSome_lazySegFind.mp hfind)
        refine isSome_lazySegFind.mpr ⟨j, hj, ?_, ?_⟩
        · exact hstart.trans (hva ▸ pgRoundDown_le va)
        · unfold pgRoundDown at hva
          simp only [pgSize] at *
          omega
    rw [hseg]

/-- A page whose last address has the answer of its first. -/
theorem WholePage.of_accepts (hsegs : EverySeg LazySeg.Aligned p) {a : Nat} (ha : a % pgSize = 0)
    (h : Accepts p a → Accepts p (a + (pgSize - 1))) : WholePage p a := by
  have halign : pgRoundDown a = a := pgRoundDown_of_aligned ha
  have hlast : pgRoundDown (a + (pgSize - 1)) = a := by
    unfold pgRoundDown
    simp only [pgSize] at *
    omega
  by_cases hhigh : maxVa ≤ a
  · exact Or.inl hhigh
  refine Or.inr ?_
  by_contra hc
  simp only [not_or] at hc
  obtain ⟨hheap, hstack, hswap, hcover⟩ := hc
  apply hcover
  intro hbase
  -- the last address is valid too, and only a segment can be the reason
  have hlow : a + (pgSize - 1) < maxVa := by
    simp only [maxVa, pgSize] at *
    omega
  have hvalid := h (fun _ => isValid_iff.mpr (Or.inl (isSome_lazySegFind.mpr hbase))) hlow
  rw [isValid_iff, hlast] at hvalid
  rcases hvalid with hseg | hc | hc | hc
  · obtain ⟨j, hj, hcont⟩ := isSome_lazySegFind.mp hseg
    have hfirst := hcont.base (hsegs j hj)
    rw [hlast] at hfirst
    refine ⟨j, hj, hfirst.1, ?_⟩
    have := hcont.2
    simp only [pgSize] at *
    omega
  · exact absurd hc hheap
  · exact absurd hc hswap
  · exact absurd hc hstack

/-- **When validity does not depend on the byte of the page that is touched**: in every reachable
state, for every process and every page that it has not mapped. -/
theorem validity_by_page {i a : Nat} (h : SmallReachable k) (hp : (k.procs i).pagetable = some root)
    (ha : a % pgSize = 0) (hnone : k.mem.lookup root a = none) :
    (∀ fs va w x, pgRoundDown va = a → va < maxVa → demandPageLoadNew fs va w x (k.task i) =
      if isValid (k.procs i) va = true then faultLoad fs va w (k.task i) else .ok (-1, k.task i)) ∧
    ((∀ va₁ va₂, pgRoundDown va₁ = a → pgRoundDown va₂ = a →
        (Accepts (k.procs i) va₁ ↔ Accepts (k.procs i) va₂)) ↔ WholePage (k.procs i) a) := by
  have hsegs : EverySeg LazySeg.Aligned (k.procs i) := segs_reachable h i root hp
  refine ⟨fun fs va w x hva hlow => ?_, fun hone => ?_, fun hwhole va₁ va₂ h₁ h₂ => ?_⟩
  · refine demandPageLoadNew_of_unmapped hp hlow ?_
    rw [← hva, lookup_pgRoundDown] at hnone
    exact hnone
  · refine .of_accepts hsegs ha (hone _ _ (pgRoundDown_of_aligned ha) ?_).mp
    unfold pgRoundDown
    simp only [pgSize] at *
    omega
  · exact (hwhole.accepts hsegs h₁).trans (hwhole.accepts hsegs h₂).symm

set_option maxRecDepth 100000 in
/-- Every address of a data page that is not loaded yet has the same answer. -/
theorem validity_by_page_data : ∃ root, (afterExec.procs 0).pagetable = some root ∧
    afterExec.mem.lookup root 0x1000 = none ∧
    ∀ va₁ va₂, pgRoundDown va₁ = 0x1000 → pgRoundDown va₂ = 0x1000 →
      (Accepts (afterExec.procs 0) va₁ ↔ Accepts (afterExec.procs 0) va₂) := by
  have hrun : (afterExec.procs 0).pagetable.any
    (fun root => (afterExec.mem.lookup root 0x1000).isNone &&
      decide (1 < (afterExec.procs 0).lazyNseg) &&
      decide (((afterExec.procs 0).lazySegs 1).vaddr ≤ 0x1000) &&
      decide (0x1000 + pgSize ≤ u64 (((afterExec.procs 0).lazySegs 1).vaddr +
        ((afterExec.procs 0).lazySegs 1).memsz))) = true := by decide +kernel
  obtain ⟨root, hroot, hrun⟩ := (Option.any_eq_true _ _).mp hrun
  simp only [Bool.and_eq_true, decide_eq_true_eq, Option.isNone_iff_eq_none] at hrun
  obtain ⟨⟨⟨hnone, hn⟩, hstart⟩, hend⟩ := hrun
  refine ⟨root, hroot, hnone, ?_⟩
  apply (validity_by_page afterExec_reachable.small hroot (by decide) hnone).2.mpr
  exact Or.inr (Or.inr (Or.inr (Or.inr fun _ => ⟨1, hn, hstart, hend⟩)))

/-- A program with a text page and half a page of data. -/
def shortProgram : List UInt8 :=
  elfFile [progHdrBytes 5 0 0 0x1000 0x1000, progHdrBytes 6 0x1000 0x1000 0x800 0x800]

/-- The program with half a page of data, started. -/
@[irreducible] def afterShort : Kernel :=
  stateAfter (machine 40 [shortProgram]) [(0, .exec [47, 97] [[97]])]

set_option maxRecDepth 100000 in
theorem afterShort_reachable : Reachable afterShort := by
  unfold afterShort
  exact reachable_of_stateAfter (machine_boot (by decide) _) (by decide +kernel)

set_option maxRecDepth 100000 in
/-- **A page with two answers**: a first access to the upper half of the data page is refused, one
to the lower half, or a copy of the kernel, loads the page. -/
theorem validity_by_byte : SmallReachable afterShort ∧ ∃ root,
    (afterShort.procs 0).pagetable = some root ∧ afterShort.mem.lookup root 0x1000 = none ∧
    pgRoundDown 0x1900 = 0x1000 ∧ Accepts (afterShort.procs 0) 0x1000 ∧
    ¬ Accepts (afterShort.procs 0) 0x1900 ∧
    (∃ t, demandPageLoadNew afterShort.fs 0x1000 false false (afterShort.task 0) = .ok (0, t)) ∧
    demandPageLoadNew afterShort.fs 0x1900 false false (afterShort.task 0) =
      .ok (-1, afterShort.task 0) := by
  have hrun : (afterShort.procs 0).pagetable.any (fun root =>
      Halting.passes (demandPageLoadNew afterShort.fs 0x1000 false false (afterShort.task 0))
        fun r _ =>
        decide (r = 0) && (afterShort.mem.lookup root 0x1000).isNone &&
          (afterShort.mem.lookup root 0x1900).isNone && isValid (afterShort.procs 0) 0x1000 &&
          !isValid (afterShort.procs 0) 0x1900) = true := by decide +kernel
  obtain ⟨root, hroot, hrun⟩ := (Option.any_eq_true _ _).mp hrun
  obtain ⟨r, t, hload, hrun⟩ := Halting.passes_eq_true.mp hrun
  simp only [Bool.and_eq_true, decide_eq_true_eq, Option.isNone_iff_eq_none,
    Bool.not_eq_true'] at hrun
  obtain ⟨⟨⟨⟨rfl, hnone⟩, hnone'⟩, hvalid⟩, hinvalid⟩ := hrun
  refine ⟨afterShort_reachable.small, root, hroot, hnone, rfl, fun _ => hvalid, fun hc => ?_,
    ⟨t, hload⟩, demandPageLoadNew_invalid hroot (by decide) hnone' hinvalid⟩
  rw [hc (by decide)] at hinvalid
  cases hinvalid

end Xv6
