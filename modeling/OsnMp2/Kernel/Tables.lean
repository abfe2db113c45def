import OsnMp2.Lib.Tracking
import OsnMp2.Kernel.Halts

/-!
# The tables of a process and its page table agree

The resident list, the swap array and the page table of a process are changed by hand in many
places: in the fault handler with its early returns, in `growproc`, in `exec` and in `fork`. In
every reachable state they agree: what is listed as resident is mapped, what is swapped out is not,
no page is listed twice, and both tables are within their limits.

## Main definitions

* `TablesOk`: the representation invariant
* `NeverFull`: no call of the fault handler finds the resident list full

## Main results

* `TablesOk.fault`, `TablesOk.sbrk`: what one step preserves
* `paging_metadata`: the invariant holds of every process in every reachable state
-/

namespace Xv6

variable {k k' : Kernel} {t t' : Task} {root tf : Frame} {own own' : Set Frame}

/-- The mapped pages. -/
def mappedPages (m : Mem) (root : Frame) : Set Nat := {a | ∃ pte, m.lookup root a = some pte}

/-- The addresses in the resident list. -/
def residentVas (p : Proc) : List Nat := p.resident.map (·.va)

/-- The addresses in the swap array. -/
def swappedVas (p : Proc) : List Nat := p.swapped.map (·.va)

/-- **The tables of the process agree with its page table**, and are within their limits. -/
structure TablesOk (t : Task) (root : Frame) : Prop where
  resident_aligned : ∀ e ∈ t.p.resident, e.va % pgSize = 0
  resident_nodup : (t.p.resident.map (·.va)).Nodup
  resident_mapped : ∀ e ∈ t.p.resident, ∃ pte, t.mem.lookup root e.va = some pte
  resident_limit : t.p.resident.length ≤ maxResidentPages
  swapped_nodup : (t.p.swapped.map (·.va)).Nodup
  swapped_unmapped : ∀ e ∈ t.p.swapped, t.mem.lookup root e.va = none
  disjoint : ∀ e ∈ t.p.resident, ∀ e' ∈ t.p.swapped, e.va ≠ e'.va
  swapped_limit : t.p.swapped.length ≤ 8
  slot_lt : ∀ e ∈ t.p.swapped, e.slot < 1024

/-- The bounds on the swap array alone. -/
structure SwapLimits (p : Proc) : Prop where
  limit : p.swapped.length ≤ 8
  slot_lt : ∀ e ∈ p.swapped, e.slot < 1024

theorem mem_residentVas {p : Proc} {a : Nat} : a ∈ residentVas p ↔ ∃ e ∈ p.resident, e.va = a :=
  List.mem_map

theorem mem_swappedVas {p : Proc} {a : Nat} : a ∈ swappedVas p ↔ ∃ e ∈ p.swapped, e.va = a :=
  List.mem_map

theorem TablesOk.tracks (h : TablesOk t root) :
    Tracks (mappedPages t.mem root) (residentVas t.p) (swappedVas t.p) where
  nodup := h.resident_nodup
  inside a ha := by
    obtain ⟨e, he, rfl⟩ := mem_residentVas.mp ha
    exact h.resident_mapped e he
  nodup_aside := h.swapped_nodup
  outside a ha := by
    obtain ⟨e, he, rfl⟩ := mem_swappedVas.mp ha
    rintro ⟨pte, hpte⟩
    rw [h.swapped_unmapped e he] at hpte
    cases hpte

theorem TablesOk.of_tracks (htask : TaskOk t root tf own)
    (h : Tracks (mappedPages t.mem root) (residentVas t.p) (swappedVas t.p))
    (hlimit : t.p.resident.length ≤ maxResidentPages) (hs : SwapLimits t.p) : TablesOk t root where
  resident_aligned e he := (htask.resident e he).2
  resident_nodup := h.nodup
  resident_mapped e he := h.inside e.va (mem_residentVas.mpr ⟨e, he, rfl⟩)
  resident_limit := hlimit
  swapped_nodup := h.nodup_aside
  swapped_unmapped e he := by
    by_contra hc
    exact h.outside e.va (mem_swappedVas.mpr ⟨e, he, rfl⟩) (Option.ne_none_iff_exists'.mp hc)
  disjoint e he e' he' :=
    h.disjoint (mem_residentVas.mpr ⟨e, he, rfl⟩) (mem_swappedVas.mpr ⟨e', he', rfl⟩)
  swapped_limit := hs.limit
  slot_lt := hs.slot_lt

theorem TablesOk.swapLimits (h : TablesOk t root) : SwapLimits t.p := ⟨h.swapped_limit, h.slot_lt⟩

theorem TaskOk.fits (h : TaskOk t root tf own) (hlimit : t.p.resident.length ≤ maxResidentPages) :
    Fits t.p :=
  ⟨⟨root, h.pagetable⟩, fun e he => (h.resident e he).1.trans (by decide), hlimit⟩

/-! ## Page faults -/

theorem residentVas_eraseP (l : List ResidentPage) (a : Nat) :
    (l.eraseP fun e => e.va == a).map (·.va) = (l.map (·.va)).erase a := by
  rw [List.erase_eq_eraseP, List.eraseP_map]
  congr 2
  funext e
  exact Bool.beq_comm

theorem swappedVas_eraseP (l : List SwappedPage) (a : Nat) :
    (l.eraseP fun e => e.va == a).map (·.va) = (l.map (·.va)).erase a := by
  rw [List.erase_eq_eraseP, List.eraseP_map]
  congr 2
  funext e
  exact Bool.beq_comm

theorem eq_of_page {a b : Nat} (ha : a % pgSize = 0) (hb : b % pgSize = 0)
    (h : a / pgSize = b / pgSize) : a = b := by
  simp only [pgSize] at *
  omega

/-- **An eviction** keeps the tables right for the pages that stay. -/
theorem Eviction.tracks {p₁ : Proc} {P : Nat → Prop} (hev : Eviction t root p₁ P)
    (hres : ∀ e ∈ t.p.resident, IsPage e.va)
    (h : Tracks (mappedPages t.mem root) (residentVas t.p) (swappedVas t.p)) :
    Tracks (mappedPages t.mem root ∩ {a | ¬ P (a / pgSize)}) (residentVas p₁) (swappedVas p₁) := by
  -- the other resident pages are other pages
  have hother : ∀ {victim : ResidentPage} {idx : Nat}, t.p.resident[idx]? = some victim →
      ∀ a ∈ (residentVas t.p).erase victim.va, a ∈ {a | ¬ a / pgSize = victim.va / pgSize} := by
    intro victim idx hv a ha hpage
    obtain ⟨e, he, rfl⟩ := mem_residentVas.mp (List.mem_of_mem_erase ha)
    exact h.ne_of_mem_erase ha (eq_of_page (hres e he).2 (hres _ (List.mem_of_getElem? hv)).2 hpage)
  cases hev with
  | idle slots => exact h.restrict fun a _ => id
  | discard oldest entry clean =>
    rename_i idx victim
    have hr : residentVas { t.p with resident := t.p.resident.eraseP fun e => e.va == victim.va } =
        (residentVas t.p).erase victim.va := residentVas_eraseP _ _
    rw [hr]
    exact (h.erase victim.va).restrict (hother entry)
  | swapOut oldest entry dirty mapped room free =>
    rename_i idx victim slot e
    have hr : residentVas { t.p with
        resident := t.p.resident.eraseP fun e => e.va == victim.va
        swapped := t.p.swapped ++ [⟨victim.va, slot, (t.mem.phys e.ppn).byte⟩]
        swapSlots := Function.update t.p.swapSlots slot true } =
        (residentVas t.p).erase victim.va := residentVas_eraseP _ _
    rw [hr, swappedVas, List.map_append]
    refine ((h.erase victim.va).restrict (hother entry)).putAside (fun hc => hc.2 rfl) fun hc => ?_
    exact h.outside victim.va hc ⟨e, mapped⟩

/-- Below the trap frame, what is mapped after pages have gone is what was mapped and stays. -/
theorem Kept.mem_mappedPages {P : Nat → Prop} {m m' : Mem} {a : Nat}
    (h : Kept m root own P m' own') (ha : IsPage a) :
    a ∈ mappedPages m' root ↔ a ∈ mappedPages m root ∩ {a | ¬ P (a / pgSize)} := by
  have hlow : a < maxVa := ha.1.trans (by decide)
  constructor
  · rintro ⟨pte, hpte⟩
    obtain ⟨hP, hl⟩ := h.lookup_eq_some hlow hpte
    exact ⟨⟨pte, hl⟩, hP⟩
  · rintro ⟨⟨pte, hl⟩, hP⟩
    exact ⟨pte, (h.lookup a hlow hP).trans hl⟩

/-- Below the trap frame, what is mapped after a page has come in is that page, and what
was mapped and stays. -/
theorem PageIn.mem_mappedPages {P : Nat → Prop} {m m' : Mem} {va a : Nat} {perm : Perm}
    {b : Nat → UInt8} (h : PageIn m root own P va perm b m' own') (hpage : IsPage (pgRoundDown va))
    (unmapped : m.lookup root va = none) (ha : IsPage a) :
    a ∈ mappedPages m' root ↔
      a ∈ insert (pgRoundDown va) (mappedPages m root ∩ {a | ¬ P (a / pgSize)}) := by
  have hlow : a < maxVa := ha.1.trans (by decide)
  constructor
  · rintro ⟨pte, hpte⟩
    rcases h.lookup_eq_some hlow hpte with heq | ⟨hP, hl⟩
    · exact Or.inl (eq_of_page ha.2 hpage.2 (heq.trans (page_pgRoundDown va).symm))
    · exact Or.inr ⟨⟨pte, hl⟩, hP⟩
  · rintro (rfl | ⟨⟨pte, hl⟩, hP⟩)
    · obtain ⟨f, hf, -⟩ := h.page
      exact ⟨_, (lookup_pgRoundDown m' root va).trans hf⟩
    · by_cases heq : a / pgSize = va / pgSize
      · rw [lookup_of_page heq, unmapped] at hl
        cases hl
      · exact ⟨pte, (h.lookup a hlow heq hP).trans hl⟩

/-- **A page fault** keeps the tables right. -/
theorem Fault.tracks {fs : Fs} {va : Nat} {w : Bool} {r : Int} (htask : TaskOk t root tf own)
    (hf : Fault fs t va w root own r t' own')
    (h : Tracks (mappedPages t.mem root) (residentVas t.p) (swappedVas t.p)) :
    Tracks (mappedPages t'.mem root) (residentVas t'.p) (swappedVas t'.p) := by
  cases hf with
  -- Each outcome first evicts and then maps; the two lists are followed through both.
  | beyond | readOnly | invalid => exact h
  | present low mapped writable =>
    have hr : residentVas { t.p with
        resident := if w then markDirty (pgRoundDown va) t.p.resident else t.p.resident } =
        residentVas t.p := by
      unfold residentVas
      dsimp only
      split
      · exact map_va_markDirty _ _
      · rfl
    dsimp only
    rw [hr]
    exact h
  | stopped low unmapped valid evict full kept proc =>
    rename_i P p₁ p' m'
    have hev := evict.tracks htask.resident h
    obtain ⟨hpages, hpages'⟩ := evict.isPage htask.resident htask.swapped
    have hmem : ∀ a, IsPage a → _ := fun a ha => kept.mem_mappedPages ha
    -- The tables changed where the victim was, and there the lists changed as well.
    have hkept : Tracks (mappedPages m' root) (residentVas p₁) (swappedVas p₁) := by
      refine hev.congr (fun a ha => ?_) fun a ha => ?_
      · obtain ⟨e, he, rfl⟩ := mem_residentVas.mp ha
        exact (hmem _ (hpages e he)).mpr (hev.inside _ ha)
      · obtain ⟨e, he, rfl⟩ := mem_swappedVas.mp ha
        exact fun hc => hev.outside _ ha ((hmem _ (hpages' e he)).mp hc)
    rcases proc with rfl | ⟨-, slots, rfl⟩
    · exact hkept
    · have hs : swappedVas (swapInProc p₁ (pgRoundDown va) slots) =
          (swappedVas p₁).erase (pgRoundDown va) := swappedVas_eraseP _ _
      rw [hs]
      exact hkept.takeBack (pgRoundDown va)
  | loaded low unmapped valid evict full pageIn =>
    rename_i P p₁ slots m'
    have hev := evict.tracks htask.resident h
    obtain ⟨hpages, hpages'⟩ := evict.isPage htask.resident htask.swapped
    have hpage := htask.space.isPage low unmapped
    have hs : swappedVas (addResidentProc (swapInProc p₁ (pgRoundDown va) slots)
      (pgRoundDown va) w) =
        (swappedVas p₁).erase (pgRoundDown va) := swappedVas_eraseP _ _
    have hr : residentVas (addResidentProc (swapInProc p₁ (pgRoundDown va) slots)
      (pgRoundDown va) w) =
        residentVas p₁ ++ [pgRoundDown va] := by
      simp only [residentVas, addResidentProc, swapInProc, List.map_append, List.map_cons,
        List.map_nil]
    -- The page loaded was in neither list: it was not mapped, and its swapped entry is gone.
    have hin := (hev.takeBack (pgRoundDown va)).insert (a := pgRoundDown va)
      (fun hc => by
        obtain ⟨pte, hpte⟩ := hc.1
        rw [lookup_pgRoundDown, unmapped] at hpte
        cases hpte)
      (fun hc => (hev.nodup_aside.mem_erase_iff.mp hc).1 rfl)
    have hmem : ∀ a, IsPage a → _ := fun a ha => pageIn.mem_mappedPages hpage unmapped ha
    rw [hs, hr]
    refine hin.congr (fun a ha => ?_) fun a ha => ?_
    · refine (hmem a ?_).mpr (hin.inside a ha)
      rcases List.mem_append.mp ha with ha | ha
      · obtain ⟨e, he, rfl⟩ := mem_residentVas.mp ha
        exact hpages e he
      · rw [List.mem_singleton.mp ha]
        exact hpage
    · obtain ⟨e, he, rfl⟩ := mem_swappedVas.mp (List.mem_of_mem_erase ha)
      exact fun hc => hin.outside _ ha ((hmem _ (hpages' e he)).mp hc)

/-- Getting a frame keeps the swap array within its limits. -/
theorem FrameProc.swapLimits {found : Bool} {p₁ : Proc} (h : FrameProc t root found p₁)
    (hs : SwapLimits t.p) : SwapLimits p₁ := by
  cases h with
  | free => exact hs
  | replaced full out got =>
    cases out with
    | empty | noSlot => exact hs
    | refused | discard => exact ⟨hs.limit, hs.slot_lt⟩
    | swapOut victim dirty free mapped room =>
      refine ⟨?_, fun e he => ?_⟩
      · simp only [List.length_append, List.length_singleton]
        omega
      · rcases List.mem_append.mp he with he | he
        · exact hs.slot_lt e he
        · rw [List.mem_singleton.mp he]
          exact free.lt

theorem SwapLimits.swappedIn {p : Proc} (h : SwapLimits p) (a : Nat) :
    SwapLimits (swappedIn p a) := by
  unfold Xv6.swappedIn
  split
  · exact ⟨(List.length_eraseP_le).trans h.limit,
      fun e he => h.slot_lt e (List.mem_of_mem_eraseP he)⟩
  · exact h

theorem FaultProc.swapLimits {va : Nat} {w : Bool} {r : Int} {p' : Proc}
    (h : FaultProc t va w root r p') (hs : SwapLimits t.p) : SwapLimits p' := by
  cases h with
  | refused => exact hs
  | present => exact ⟨hs.limit, hs.slot_lt⟩
  | stopped low unmapped valid frame proc =>
    rcases proc with rfl | rfl
    · exact frame.swapLimits hs
    · exact (frame.swapLimits hs).swappedIn _
  | loaded low unmapped valid frame =>
    have hin := (frame.swapLimits hs).swappedIn (pgRoundDown va)
    exact ⟨hin.limit, hin.slot_lt⟩

/-- **A page fault keeps the tables right and within their limits.** -/
theorem TablesOk.fault {fs : Fs} {va : Nat} {w x : Bool} {r : Int} (htask : TaskOk t root tf own)
    (htask' : TaskOk t' root tf own') (hrun : demandPageLoadNew fs va w x t = .ok (r, t'))
    (hf : Fault fs t va w root own r t' own') (h : TablesOk t root) : TablesOk t' root := by
  have hfits := htask.fits h.resident_limit
  have hproc := demandPageLoadNew_proc htask.pagetable hfits.pages hrun
  exact .of_tracks htask' (hf.tracks htask h.tracks) (hproc.fits hfits).limit
    (hproc.swapLimits h.swapLimits)

/-! ## `sbrk`, `exec` and `fork` -/

/-- **`sbrk`** keeps the tables right: the entries that a shrink drops are those of the
pages that it unmaps. -/
theorem TablesOk.sbrk {n r : Int} (htask : TaskOk t root tf own) (htask' : TaskOk t' root tf own')
    (hg : Grow n t root own r t' own') (h : TablesOk t root) : TablesOk t' root := by
  cases hg with
  | refused | same | wrapped => exact h
  | grown pos limit =>
    exact .of_tracks htask' h.tracks h.resident_limit ⟨h.swapped_limit, h.slot_lt⟩
  | shrunk neg heap small unmapped =>
    rename_i m'
    have hsize := htask.size
    refine .of_tracks htask' ?_ ((List.length_filter_le _ _).trans h.resident_limit)
      ⟨h.swapped_limit, h.slot_lt⟩
    have hr : residentVas { t.p with
        resident := t.p.resident.filter fun e =>
          !(shrunkSize t.p.sz n ≤ e.va && e.va < t.p.sz)
        sz := shrunkSize t.p.sz n } =
        (residentVas t.p).filter fun a => !(shrunkSize t.p.sz n ≤ a && a < t.p.sz) := by
      simp only [residentVas, List.filter_map]
      rfl
    dsimp only
    rw [hr]
    refine (h.tracks.filter _).congr (fun a ha => ?_) fun a ha hc => ?_
    · obtain ⟨hmem, hkeep⟩ := List.mem_filter.mp ha
      obtain ⟨e, he, rfl⟩ := mem_residentVas.mp hmem
      obtain ⟨hlow, halign⟩ := htask.resident e he
      obtain ⟨pte, hpte⟩ := h.resident_mapped e he
      refine ⟨pte, (unmapped.lookup e.va (hlow.trans (by decide)) ?_).trans hpte⟩
      -- an aligned address outside of the range is in a page outside of it
      simp only [Bool.not_eq_true', Bool.and_eq_false_iff, decide_eq_false_iff_not] at hkeep
      unfold pgRoundUp u64
      simp only [trapframeVa, trampolineVa, maxVa, pgSize] at *
      omega
    · obtain ⟨e, he, rfl⟩ := mem_swappedVas.mp ha
      obtain ⟨pte, hpte⟩ := hc
      have hlow : e.va < maxVa := (htask.swapped e he).1.trans (by decide)
      have hnone := h.swapped_unmapped e he
      by_cases hP : pgRoundUp (shrunkSize t.p.sz n) / pgSize ≤ e.va / pgSize ∧
          e.va / pgSize < pgRoundUp t.p.sz / pgSize
      · rw [unmapped.gone e.va hlow hP] at hpte
        cases hpte
      · rw [unmapped.lookup e.va hlow hP, hnone] at hpte
        cases hpte

/-- What is taken from free memory does not touch the address space. -/
theorem TaskOk.lookup_acts {m' : Mem} {o : Set Frame} (h : TaskOk t root tf own)
    (hacts : t.mem.Acts ∅ m' o) (va : Nat) : m'.lookup root va = t.mem.lookup root va := by
  have happart : Apart t.mem root tf own ∅ := ⟨h.space, fun _ _ => id, id, id⟩
  exact happart.lookup hacts va

/-- The tables and the page table are all that counts. -/
theorem TablesOk.congr (h : TablesOk t root) (hres : t'.p.resident = t.p.resident)
    (hsw : t'.p.swapped = t.p.swapped)
    (hlook : ∀ va, t'.mem.lookup root va = t.mem.lookup root va) :
    TablesOk t' root := by
  constructor <;> simp only [hres, hsw, hlook]
  exacts [h.resident_aligned, h.resident_nodup, h.resident_mapped, h.resident_limit,
    h.swapped_nodup, h.swapped_unmapped, h.disjoint, h.swapped_limit, h.slot_lt]

/-- The tables without an entry. -/
theorem TablesOk.of_empty (hres : t.p.resident = []) (hsw : t.p.swapped = []) :
    TablesOk t root := by
  constructor <;> simp [hres, hsw]

/-- **`exec`** keeps the tables right when it fails, and makes new ones with the stack page. -/
theorem TablesOk.exec {fs : Fs} {ip : Nat} {argv : List (List UInt8)} {r : Int} {root' : Frame}
    (htask : TaskOk t root tf own) (hout : ExecOut fs ip argv t root tf own r t')
    (hp : t'.p.pagetable = some root') (h : TablesOk t root) : TablesOk t' root' := by
  -- a failed call leaves the old page table in place
  have hsame : t'.p.pagetable = t.p.pagetable → root' = root := fun hpt =>
    Option.some.inj (hp.symm.trans (hpt.trans htask.pagetable))
  cases hout with
  | noElf bad =>
    obtain rfl := hsame rfl
    exact h
  | noTable elf table acts =>
    obtain rfl := hsame rfl
    exact h.congr rfl rfl (htask.lookup_acts acts)
  | bad elf scan table acts why =>
    obtain rfl := hsame rfl
    exact h.congr rfl rfl (htask.lookup_acts acts)
  | noRoom elf scan base room mapped acts =>
    obtain rfl := hsame rfl
    exact h.congr rfl rfl (htask.lookup_acts acts)
  | done elf scan base image space disjoint acts stack empty fresh mapped =>
    rename_i hdr l m' root₁ own' sp argc b
    obtain rfl : root₁ = root' := Option.some.inj hp
    obtain ⟨f, hf, -⟩ := stack
    have hone : ∀ e ∈ (newImage (execProc t.p ip l) root₁ (stackBase l + pgSize) sp (stackBase l)
        hdr.entry).resident, e.va = stackBase l := fun e he => by rw [List.mem_singleton.mp he]
    refine ⟨fun e he => ?_, List.nodup_singleton _, fun e he => ?_,
      Nat.succ_le_of_lt (Nat.succ_pos _), List.nodup_nil,
      fun e he => ?_, fun _ _ e he => ?_, Nat.zero_le _, fun e he => ?_⟩
    · rw [hone e he]
      exact (execStackbase_spec (segEnd l 0)).1
    · rw [hone e he]
      exact ⟨_, hf⟩
    all_goals cases he

/-- The rule of `EveryTask` applies to the tables. -/
theorem stable_tables (m : Move) (j : Nat) : Stable TablesOk k m k' j where
  congr root t t' hv h := h.congr (congrArg Proc.resident hv.paging :)
    (congrArg Proc.swapped hv.paging :) hv.lookup
  fault _ _ _ _ _ _ _ _ _ _ htask htask' hrun hf h := h.fault htask htask' hrun hf
  write va bytes root tf o e _ _ _ _ _ _ _ h := h.congr rfl rfl fun va' =>
    lookup_setBytes _ _ _ _ _ va'
  sbrk _ _ _ _ _ _ _ _ htask htask' hg h := h.sbrk htask htask' hg
  child i root root' tf tf' o _ _ _ hproc _ _ _ := by
    apply TablesOk.of_empty
    · show (k'.procs j).resident = []
      rw [hproc]
      rfl
    · show (k'.procs j).swapped = []
      rw [hproc]
      rfl

theorem preserved_tables (m : Move) : Preserved TablesOk k m k' where
  stable := stable_tables m
  exec _ _ _ _ _ _ _ _ _ _ _ htask _ hout hp h := h.exec htask hout hp

/-! ## Every reachable state -/

/-- No call of the fault handler by this process finds the resident list full, and every index that
the handler computes is within its array. -/
structure NeverFull (t : Task) (root : Frame) : Prop where
  fault : ∀ fs va w x, demandPageLoadNew fs va w x t ≠ .error (.panic .residentFull)
  copyin : ∀ fs src len, Xv6.copyin fs root src len t ≠ .error (.panic .residentFull)
  copyinstr : ∀ fs src max, Xv6.copyinstr fs root src max t ≠ .error (.panic .residentFull)
  copyout : ∀ fs dst src, Xv6.copyout fs root dst src t ≠ .error (.panic .residentFull)
  exec : ∀ fs ip argv, execImage fs ip argv t ≠ .error (.panic .residentFull)
  victim : ∀ idx, findVictimPage t.p.resident = some idx → idx < t.p.resident.length
  free_slot : ∀ slot, FreeSlot t.p slot → slot < 1024

theorem findVictimLoop_lt : ∀ (l : List ResidentPage) (i idx : Nat) (seq : Int), idx < i →
    findVictimLoop l i idx seq < i + l.length := by
  intro l
  induction l with
  | nil => exact fun i idx seq h => h
  | cons e rest ih =>
    intro i idx seq h
    unfold findVictimLoop
    rw [List.length_cons]
    split
    · have := ih (i + 1) i e.seq (Nat.lt_succ_self i)
      omega
    · have := ih (i + 1) idx seq (Nat.lt_succ_of_lt h)
      omega

/-- The victim is one of the entries. -/
theorem findVictimPage_lt {l : List ResidentPage} {idx : Nat} (h : findVictimPage l = some idx) :
    idx < l.length := by
  cases l with
  | nil => cases h
  | cons e rest =>
    obtain rfl := Option.some.inj h
    have := findVictimLoop_lt rest 1 0 e.seq Nat.one_pos
    rw [List.length_cons]
    omega

theorem Fits.neverFull (h : Fits t.p) (root : Frame) : NeverFull t root where
  fault fs va w x he := (safe_demandPageLoadNew fs va w x t h).1 _ he rfl
  copyin fs src len he := (safe_copyin fs root src len t h).1 _ he rfl
  copyinstr fs src max he := (safe_copyinstr fs root src max t h).1 _ he rfl
  copyout fs dst src he := (safe_copyout fs root dst src t h).1 _ he rfl
  exec fs ip argv he := (safe_execImage fs ip argv t h).1 _ he rfl
  victim _ := findVictimPage_lt
  free_slot _ := FreeSlot.lt

theorem tablesOk_reachable (h : SmallReachable k) :
    (∃ own, SysInv k own) ∧ EveryTask TablesOk k :=
  h.everyTask
    (fun _ _ _ _ hp _ => .of_empty (congrArg Proc.resident hp :) (congrArg Proc.swapped hp :))
    fun _ m _ _ _ _ => preserved_tables m

/-- **The tables of every process agree with its page table in every reachable state**, and the
panic of `add_resident_page` is out of reach. -/
theorem paging_metadata (h : SmallReachable k) :
    ∀ i root, (k.procs i).pagetable = some root →
      TablesOk (k.task i) root ∧ NeverFull (k.task i) root := by
  intro i root hp
  obtain ⟨⟨own, hinv⟩, htables⟩ := tablesOk_reachable h
  obtain ⟨tf, o, -, -, htask⟩ := hinv.live hp
  have hok := htables i root hp
  exact ⟨hok, (htask.fits hok.resident_limit).neverFull root⟩

set_option maxRecDepth 100000 in
/-- The tables of a process with a page in memory and a page swapped out. -/
theorem paging_metadata_afterSwap : ∃ root, (afterSwap.procs 0).pagetable = some root ∧
    (afterSwap.procs 0).resident.length = 1 ∧ (afterSwap.procs 0).swapped.length = 1 ∧
    TablesOk (afterSwap.task 0) root ∧ NeverFull (afterSwap.task 0) root := by
  have hrun : (afterSwap.procs 0).pagetable.any
    (fun _ => decide ((afterSwap.procs 0).resident.length = 1) &&
      decide ((afterSwap.procs 0).swapped.length = 1)) = true := by decide +kernel
  obtain ⟨root, hroot, hrun⟩ := (Option.any_eq_true _ _).mp hrun
  simp only [Bool.and_eq_true, decide_eq_true_eq] at hrun
  exact ⟨root, hroot, hrun.1, hrun.2, paging_metadata afterSwap_reachable.small 0 root hroot⟩

end Xv6
