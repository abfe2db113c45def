import OsnMp2.Kernel.Tables

/-!
# The image of a program

A successful `exec` leaves a process with the segments of the program recorded and with one page
mapped, its stack, two pages above the highest segment end.

## Main definitions

* `FreshImage`: the process right after a successful `exec`

## Main results

* `exec_fresh`: what a successful `exec` leaves
* `stackBase_of_fits`: where the stack of a program lies whose segments end low enough
-/

namespace Xv6

variable {k k' : Kernel} {i : Nat} {t t' : Task} {root tf : Frame} {own own' : Set Frame}

/-- The headers that `exec` records are those of the file that are loadable. -/
theorem of_mem_scanHdrs (d : Dinode) : ∀ n off count, ∀ ph ∈ (scanHdrs d n off count).1,
    ph.loadable = true ∧ ∃ bytes, ph = ProgHdr.ofBytes bytes := by
  intro n
  induction n with
  | zero =>
    intro off count ph h
    cases h
  | succ n ih =>
    intro off count ph h
    rw [scanHdrs] at h
    split at h
    · cases h
    next ph₀ hat =>
    split at h
    · exact ih _ _ ph h
    split at h
    · cases h
    next hload =>
    split at h
    · rcases List.mem_cons.mp h with rfl | h
      · refine ⟨by simpa using hload, ?_⟩
        unfold progHdrAt at hat
        split at hat
        · exact ⟨_, (Option.some.inj hat).symm⟩
        · cases hat
      · exact ih _ _ ph h
    · cases h

theorem loadable_of_mem_scanHdrs (d : Dinode) :
    ∀ n off count, ∀ ph ∈ (scanHdrs d n off count).1, ph.loadable = true := fun n off count ph h =>
  (of_mem_scanHdrs d n off count ph h).1

theorem segEnd_eq_max (l : List ProgHdr) : ∀ sz, sz ≤ segEnd l sz ∧
    ∀ ph ∈ l, u64 (ph.vaddr + ph.memsz) ≤ segEnd l sz := by
  induction l with
  | nil => exact fun sz => ⟨le_rfl, fun _ h => by cases h⟩
  | cons ph l ih =>
    intro sz
    obtain ⟨hle, hmem⟩ := ih (max sz (u64 (ph.vaddr + ph.memsz)))
    refine ⟨(le_max_left _ _).trans hle, fun ph' h => ?_⟩
    rcases List.mem_cons.mp h with rfl | h
    · exact (le_max_right _ _).trans hle
    · exact hmem ph' h

/-- A bound on the segment ends is a bound on the highest one. -/
theorem segEnd_le {l : List ProgHdr} {b : Nat} (h : ∀ ph ∈ l, u64 (ph.vaddr + ph.memsz) ≤ b) :
    ∀ sz, sz ≤ b → segEnd l sz ≤ b := by
  induction l with
  | nil => exact fun sz hsz => hsz
  | cons ph l ih =>
    intro sz hsz
    exact ih (fun ph' h' => h ph' (List.mem_cons_of_mem _ h')) _
      (max_le hsz (h ph List.mem_cons_self))

/-- **The process right after a successful `exec`** of a program with the loadable headers `l`, with
the stack page holding `b`. -/
structure FreshImage (ip : Nat) (l : List ProgHdr) (b : Nat → UInt8) (t : Task) (root : Frame) :
    Prop where
  count : l.length ≤ 16
  loadable : ∀ ph ∈ l, ph.loadable = true
  base : stackBase l < trapframeVa
  proc : ∃ p sp entry, t.p =
    newImage (execProc p ip l) root (stackBase l + pgSize) sp (stackBase l) entry
  stack : ∃ f, t.mem.lookup root (stackBase l) = some ⟨true,
    { r := true, w := true, u := true }, f⟩ ∧ (t.mem.phys f).byte = b
  empty : ∀ va, va < trapframeVa → va / pgSize ≠ stackBase l / pgSize → t.mem.lookup root va = none

/-- **A successful `exec`** leaves a fresh image of the executable that the path names. -/
theorem exec_fresh (h : SmallReachable k) (hr : (k.procs i).state = .runnable) {path : List UInt8}
    {argv : List (List UInt8)} (hargv : ArgvOk argv) {r : Int}
    (hrun : exec i path argv k = .ok (r, k')) (hok : 0 ≤ r) :
    SmallReachable k' ∧ ∃ ip l b root k₁ hdr sp argc, Opened k i path ip k₁ ∧
      elfHdrOf (k₁.fs.content ip) = some hdr ∧
      scanHdrs (k₁.fs.content ip) hdr.phnum hdr.phoff 0 = (l, true) ∧
      stackImage (stackBase l) (stackBase l + pgSize) argv = some (sp, argc, b) ∧
      FreshImage ip l b (k'.task i) root := by
  refine ⟨h.step (.op hr (.exec hargv hrun)), ?_⟩
  obtain ⟨⟨own, hinv⟩, -⟩ := tablesOk_reachable h
  cases exec_spec hinv hr hargv hrun with
  | noFile => exact absurd hok (by decide)
  | image opened ho htf htask out closed =>
    rename_i k₁ ip t root tf o
    have htask' : k'.task i = t := by
      have hp : k'.procs i = t.p := by
        rw [closed.procs]
        exact Function.update_self ..
      rw [Kernel.task, show k'.mem = t.mem from closed.mem, hp]
    rw [htask']
    cases out with
    | noElf | noTable | bad | noRoom => exact absurd hok (by decide)
    | done elf scan base image space disjoint acts stack empty fresh mapped =>
      rename_i hdr l m' root' own' sp argc b
      refine ⟨ip, l, b, root', k₁, hdr, sp, argc, opened, elf, scan, image, ?_, ?_, base,
        ?_, stack, empty⟩
      · have := length_scanHdrs (k₁.fs.content ip) hdr.phnum hdr.phoff 0 (Nat.zero_le 16)
        rw [scan] at this
        simpa using this
      · have := loadable_of_mem_scanHdrs (k₁.fs.content ip) hdr.phnum hdr.phoff 0
        rwa [scan] at this
      · exact ⟨_, sp, hdr.entry, rfl⟩

section Fresh

variable {ip : Nat} {l : List ProgHdr} {b : Nat → UInt8}

theorem FreshImage.pagetable (h : FreshImage ip l b t root) : t.p.pagetable = some root := by
  obtain ⟨p, sp, entry, hp⟩ := h.proc
  rw [hp]
  rfl

theorem FreshImage.sz (h : FreshImage ip l b t root) :
    t.p.sz = stackBase l + pgSize ∧ t.p.lazyHeapStart = stackBase l + pgSize := by
  obtain ⟨p, sp, entry, hp⟩ := h.proc
  rw [hp]
  exact ⟨rfl, rfl⟩

theorem FreshImage.tables (h : FreshImage ip l b t root) :
    t.p.resident = [{ va := stackBase l, seq := 1, isDirty := true }] ∧ t.p.swapped = [] ∧
      t.p.pfSeq = 1 := by
  obtain ⟨p, sp, entry, hp⟩ := h.proc
  rw [hp]
  exact ⟨rfl, rfl, rfl⟩

theorem FreshImage.lazyNseg (h : FreshImage ip l b t root) : t.p.lazyNseg = l.length := by
  obtain ⟨p, sp, entry, hp⟩ := h.proc
  rw [hp]
  exact Nat.zero_add _

/-- The recorded segments are those of the headers. -/
theorem FreshImage.lazySegs (h : FreshImage ip l b t root) (j : Fin 16) {ph : ProgHdr}
    (hj : l[j.val]? = some ph) : t.p.lazySegs j = ph.seg ip := by
  obtain ⟨p, sp, entry, hp⟩ := h.proc
  rw [hp]
  simp only [newImage, execProc, recordProc, setSegs, Nat.zero_le, if_true, Nat.sub_zero, hj]

theorem stackBase_aligned (l : List ProgHdr) : stackBase l % pgSize = 0 :=
  (execStackbase_spec (segEnd l 0)).1

/-- Every recorded segment is that of a header, and every header is recorded. -/
theorem FreshImage.mem_segs (h : FreshImage ip l b t root) {P : LazySeg → Prop} :
    (∀ j : Fin 16, j.val < t.p.lazyNseg → P (t.p.lazySegs j)) ↔ ∀ ph ∈ l, P (ph.seg ip) := by
  rw [h.lazyNseg]
  constructor
  · intro hseg ph hph
    obtain ⟨n, hn, rfl⟩ := List.getElem_of_mem hph
    have hlt : n < 16 := hn.trans_le h.count
    have := hseg ⟨n, hlt⟩ hn
    rwa [h.lazySegs ⟨n, hlt⟩ (List.getElem?_eq_getElem hn)] at this
  · intro hph j hj
    rw [h.lazySegs j (List.getElem?_eq_getElem hj)]
    exact hph _ (List.getElem_mem hj)

/-- A page address rounded up, in exact integers. -/
def pageCeil (a : Nat) : Nat := (a + (pgSize - 1)) / pgSize * pgSize

/-- **The stack of a program whose segments end low enough** lies above them, with a page
between. -/
theorem stackBase_of_fits
    (hfit : ∀ ph ∈ l, pageCeil (ph.vaddr + ph.memsz) + 2 * pgSize ≤ trapframeVa) :
    pageCeil (segEnd l 0) + 2 * pgSize ≤ trapframeVa ∧
      stackBase l = pageCeil (segEnd l 0) + pgSize ∧
      ∀ ph ∈ l, u64 (ph.vaddr + ph.memsz) = ph.vaddr + ph.memsz := by
  have hexact : ∀ ph ∈ l, u64 (ph.vaddr + ph.memsz) = ph.vaddr + ph.memsz := fun ph hph => by
    have := hfit ph hph
    unfold pageCeil at this
    unfold u64
    simp only [trapframeVa, trampolineVa, maxVa, pgSize] at *
    omega
  have hend : segEnd l 0 ≤ trapframeVa - 2 * pgSize := by
    refine segEnd_le (fun ph hph => ?_) 0 (Nat.zero_le _)
    rw [hexact ph hph]
    have := hfit ph hph
    unfold pageCeil at this
    simp only [trapframeVa, trampolineVa, maxVa, pgSize] at *
    omega
  have hceil : pageCeil (segEnd l 0) + 2 * pgSize ≤ trapframeVa := by
    unfold pageCeil
    simp only [trapframeVa, trampolineVa, maxVa, pgSize] at *
    omega
  refine ⟨hceil, ?_, hexact⟩
  unfold stackBase execStackbase execSize pgRoundUp u64 pageCeil
  unfold pageCeil at hceil
  simp only [trapframeVa, trampolineVa, maxVa, pgSize] at *
  omega

end Fresh

/-! ## Computing runs from an `exec` -/

/-- The first process of a machine, before its first `exec`. -/
theorem smallReachable_init {n : Nat} (hn : n ≤ 0x7f00) {files : List (List UInt8)} {k₁ : Kernel}
    (h : okState (userinit (machine n files)) = some k₁) : SmallReachable k₁ := by
  obtain ⟨_, huser⟩ := okState_eq_some h
  exact ⟨machine n files, k₁, [], machine_boot hn files, huser, .nil k₁⟩

theorem argvOk_one : ArgvOk [[97]] := by
  intro s hs
  rw [List.mem_singleton.mp hs]
  decide

end Xv6
