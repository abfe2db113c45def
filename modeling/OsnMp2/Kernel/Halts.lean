import OsnMp2.Kernel.Replace

/-!
# How kernel functions halt

The page-table functions halt with a panic of their own, the file system with one of its own or by
sleeping. The resident list has 256 entries and `add_resident_page` panics when it is full; the
limit of 40 pages keeps the fault handler, and what calls it, away from that panic.

## Main definitions

* `Halt.FromVm`, `Halt.FromFs`: the halts of the two layers
* `Fits`: the resident list is within its limit, and lists pages

## Main results

* `safe_demandPageLoadNew`: the fault handler keeps the resident list within its limit
* `safe_copyin`, `safe_copyinstr`, `safe_copyout`, `safe_execImage`: so do its callers
-/

namespace Xv6

open Halting

variable {t t' : Task} {root : Frame}

/-! ## Page tables -/

/-- The halts of the functions on physical memory and page tables. -/
def Halt.FromVm : Halt → Prop
  | .panic .kfree | .panic .walk | .panic .mappagesVa | .panic .mappagesSize | .panic .mappagesZero
  | .panic .remap | .panic .uvmunmap | .panic .kstack => True
  | _ => False

theorem raises_kalloc {E : Halt → Prop} : Raises E kalloc := by
  intro m e h
  unfold kalloc at h
  split at h <;> cases h

theorem raises_kfree (f : Frame) : Raises Halt.FromVm (kfree f) := by
  intro m e h
  unfold kfree at h
  split at h
  · cases h
  · cases h
    trivial

theorem raises_readPte {E : Halt → Prop} (f : Frame) (i : Fin 512) : Raises E (readPte f i) := by
  intro m e h
  cases h

theorem raises_walkLevel {E : Halt → Prop} (va : Nat) (alloc : Bool) :
    ∀ level pagetable, Raises E (walkLevel va alloc level pagetable) := by
  intro level
  induction level with
  | zero => exact fun pagetable => raises_pure _
  | succ level ih =>
    intro pagetable
    refine raises_bind (raises_readPte _ _) fun pte => ?_
    split
    · exact ih _
    · split
      · refine raises_bind raises_kalloc ?_
        rintro (_ | f)
        · exact raises_pure _
        · refine raises_bind (raises_modify _) fun _ => ?_
          refine raises_bind (raises_modify _) fun _ => ?_
          exact ih _
      · exact raises_pure _

theorem raises_walk (pagetable : Frame) (va : Nat) (alloc : Bool) :
    Raises Halt.FromVm (walk pagetable va alloc) := by
  unfold walk
  split
  · exact raises_halt trivial
  · exact raises_walkLevel va alloc 2 pagetable

theorem raises_walkaddr (pagetable : Frame) (va : Nat) :
    Raises Halt.FromVm (walkaddr pagetable va) := by
  unfold walkaddr
  split
  · exact raises_pure _
  · refine raises_bind (raises_walk _ _ _) ?_
    rintro (_ | ⟨f, i⟩)
    · exact raises_pure _
    · refine raises_bind (raises_readPte _ _) fun pte => ?_
      repeat' split
      all_goals exact raises_pure _

theorem raises_mappagesLoop (pagetable : Frame) (perm : Perm) :
    ∀ n a pa, Raises Halt.FromVm (mappagesLoop pagetable perm n a pa) := by
  intro n
  induction n with
  | zero => exact fun a pa => raises_pure _
  | succ n ih =>
    intro a pa
    refine raises_bind (raises_walk _ _ _) ?_
    rintro (_ | ⟨f, i⟩)
    · exact raises_pure _
    · refine raises_bind (raises_readPte _ _) fun pte => ?_
      split
      · exact raises_halt trivial
      · refine raises_bind (raises_modify _) fun _ => ?_
        exact ih _ _

theorem raises_mappages (pagetable : Frame) (va size : Nat) (pa : Frame) (perm : Perm) :
    Raises Halt.FromVm (mappages pagetable va size pa perm) := by
  unfold mappages
  split
  · exact raises_halt trivial
  · split
    · exact raises_halt trivial
    · split
      · exact raises_halt trivial
      · exact raises_mappagesLoop _ _ _ _ _

theorem raises_uvmunmapLoop (pagetable : Frame) (doFree : Bool) :
    ∀ n a, Raises Halt.FromVm (uvmunmapLoop pagetable doFree n a) := by
  intro n
  induction n with
  | zero => exact fun a => raises_pure _
  | succ n ih =>
    intro a
    refine raises_bind (raises_walk _ _ _) ?_
    rintro (_ | ⟨f, i⟩)
    · exact ih _
    · refine raises_bind (raises_readPte _ _) fun pte => ?_
      split
      · exact ih _
      · dsimp only
        split
        · refine raises_bind (raises_kfree _) fun _ => ?_
          exact raises_bind (raises_modify _) fun _ => ih _
        · exact raises_bind (raises_modify _) fun _ => ih _

theorem raises_uvmunmap (pagetable : Frame) (va n : Nat) (doFree : Bool) :
    Raises Halt.FromVm (uvmunmap pagetable va n doFree) := by
  unfold uvmunmap
  split
  · exact raises_halt trivial
  · exact raises_uvmunmapLoop _ _ _ _

theorem raises_freewalkLoop {freeChild : Frame → VM Unit}
    (h : ∀ f, Raises Halt.FromVm (freeChild f))
    (pagetable : Frame) : ∀ l, Raises Halt.FromVm (freewalkLoop freeChild pagetable l) := by
  intro l
  induction l with
  | nil => exact raises_pure _
  | cons i rest ih =>
    refine raises_bind (raises_readPte _ _) fun pte => ?_
    split
    · refine raises_bind (h _) fun _ => ?_
      refine raises_bind (raises_modify _) fun _ => ?_
      exact ih
    · exact ih

theorem raises_freewalk : ∀ depth pagetable, Raises Halt.FromVm (freewalk depth pagetable) := by
  intro depth
  induction depth with
  | zero => exact fun _ => raises_halt trivial
  | succ depth ih =>
    intro pagetable
    refine raises_bind (raises_freewalkLoop ih _ _) fun _ => ?_
    exact raises_kfree _

theorem raises_uvmfree (pagetable : Frame) (sz : Nat) :
    Raises Halt.FromVm (uvmfree pagetable sz) := by
  unfold uvmfree
  dsimp only
  split
  · exact raises_bind (raises_uvmunmap _ _ _ _) fun _ => raises_freewalk _ _
  · exact raises_freewalk _ _

theorem raises_procFreepagetable (pagetable : Frame) (sz : Nat) :
    Raises Halt.FromVm (procFreepagetable pagetable sz) := by
  refine raises_bind (raises_uvmunmap _ _ _ _) fun _ => ?_
  refine raises_bind (raises_uvmunmap _ _ _ _) fun _ => ?_
  exact raises_uvmfree _ _

theorem raises_procPagetable (tf : Frame) : Raises Halt.FromVm (procPagetable tf) := by
  have hcreate : Raises Halt.FromVm uvmcreate := by
    refine raises_bind raises_kalloc ?_
    rintro (_ | f)
    · exact raises_pure _
    · exact raises_bind (raises_modify _) fun _ => raises_pure _
  refine raises_bind hcreate ?_
  rintro (_ | pagetable)
  · exact raises_pure _
  refine raises_bind raises_get fun m => ?_
  refine raises_bind (raises_mappages _ _ _ _ _) fun r => ?_
  split
  · exact raises_bind (raises_uvmfree _ _) fun _ => raises_pure _
  refine raises_bind (raises_mappages _ _ _ _ _) fun r => ?_
  split
  · refine raises_bind (raises_uvmunmap _ _ _ _) fun _ => ?_
    exact raises_bind (raises_uvmfree _ _) fun _ => raises_pure _
  · exact raises_pure _

/-! ## Files -/

/-- The halts of reading a file. -/
def Halt.FromFs : Halt → Prop
  | .panic .ilock | .panic .ilockNoType | .panic .schedLocks | .asleep (.inode _) | .asleep
      (.buf _) => True
  | _ => False

theorem except_bind_eq_error {α β : Type} {x : Except Halt α} {f : α → Except Halt β} {e : Halt} :
    (x >>= f) = .error e ↔ x = .error e ∨ ∃ a, x = .ok a ∧ f a = .error e := by
  cases x with
  | error e' => simp [bind, Except.bind]
  | ok a => simp [bind, Except.bind]

theorem sched_error {fs : Fs} {e : Halt} (h : sched fs = .error e) : e = .panic .schedLocks := by
  unfold sched at h
  split at h
  · cases h
    rfl
  · cases h

theorem acquiresleep_error {fs : Fs} {locked : Bool} {c : Chan} {e : Halt}
    (h : acquiresleep fs locked c = .error e) : e = .panic .schedLocks ∨ e = .asleep c := by
  unfold acquiresleep at h
  split at h
  · rcases except_bind_eq_error.mp h with h | ⟨_, -, h⟩
    · exact Or.inl (sched_error h)
    · cases h
      exact Or.inr rfl
  · cases h

theorem bread_error {fs : Fs} {b : Nat} {e : Halt} (h : bread fs b = .error e) : e.FromFs := by
  unfold bread at h
  split at h
  · cases h
  · rcases acquiresleep_error h with rfl | rfl <;> trivial
  · rw [sched_error h]
    trivial

theorem ilock_error {fs : Fs} {ip : Option Nat} {e : Halt} (h : ilock fs ip = .error e) :
    e.FromFs := by
  cases ip with
  | none =>
    cases h
    trivial
  | some ip =>
    simp only [ilock] at h
    split at h
    · cases h
      trivial
    · rcases except_bind_eq_error.mp h with h | ⟨_, -, h⟩
      · rcases acquiresleep_error h with rfl | rfl <;> trivial
      · split at h
        · cases h
        rcases except_bind_eq_error.mp h with h | ⟨_, -, h⟩
        · exact bread_error h
        · split at h
          · cases h
            trivial
          · cases h

theorem readiBlocks_error {fs : Fs} {d : Dinode} {e : Halt} :
    ∀ l, readiBlocks fs d l = .error e → e.FromFs := by
  intro l
  induction l with
  | nil =>
    intro h
    cases h
  | cons bn rest ih =>
    intro h
    -- the block itself, after the indirect block or without it
    have hblock : (bread fs (d.addr bn) >>= fun _ => readiBlocks fs d rest) = .error e →
      e.FromFs := by
      intro h
      rcases except_bind_eq_error.mp h with h | ⟨_, -, h⟩
      · exact bread_error h
      · exact ih h
    unfold readiBlocks at h
    dsimp only at h
    split at h
    · rcases except_bind_eq_error.mp h with h | ⟨_, -, h⟩
      · exact bread_error h
      · exact hblock h
    · exact hblock h

theorem readi_error {fs : Fs} {ip off n : Nat} {e : Halt} (h : readi fs ip off n = .error e) :
    e.FromFs := by
  unfold readi at h
  rcases except_bind_eq_error.mp h with h | ⟨_, -, h⟩
  · exact readiBlocks_error _ h
  · cases h

/-! ## The fault handler -/

/-- The halts other than the panic of `add_resident_page`. -/
def Halt.NotFull (e : Halt) : Prop := e ≠ .panic .residentFull

theorem Halt.FromVm.notFull {e : Halt} (h : e.FromVm) : e.NotFull := by
  rintro rfl
  exact h

theorem Halt.FromFs.notFull {e : Halt} (h : e.FromFs) : e.NotFull := by
  rintro rfl
  exact h

theorem raises_onMem {α : Type} {x : VM α} (hx : Raises Halt.FromVm x) :
    Raises Halt.NotFull (onMem x) := raises_zoom (hx.mono fun _ => Halt.FromVm.notFull)

theorem raises_liftFs {α : Type} {x : Except Halt α} (hx : ∀ e, x = .error e → e.FromFs) :
    Raises Halt.NotFull (liftFs x) := by
  intro t e h
  cases x with
  | ok a => cases h
  | error e' =>
    cases h
    exact (hx _ rfl).notFull

theorem raises_pagetableOf : Raises Halt.NotFull pagetableOf := by
  intro t e h
  unfold pagetableOf at h
  split at h
  · cases h
  · cases h
    rintro ⟨⟩

theorem raises_swapOutPage (va slot : Nat) : Raises Halt.NotFull (swapOutPage va slot) := by
  unfold swapOutPage
  refine raises_bind raises_pagetableOf fun pt => raises_bind (raises_onMem (raises_walk _ _ _)) ?_
  rintro (_ | ⟨f, i⟩)
  · exact raises_pure _
  · refine raises_bind (raises_onMem (raises_readPte _ _)) fun pte =>
      raises_bind raises_get fun t => ?_
    split
    · exact raises_pure _
    · split
      · exact raises_pure _
      · exact raises_bind (raises_modify _) fun _ => raises_pure _

theorem raises_freeVictim (va : Nat) : Raises Halt.NotFull (freeVictim va) := by
  unfold freeVictim
  refine raises_bind raises_pagetableOf fun pt => raises_bind (raises_onMem (raises_walk _ _ _)) ?_
  rintro (_ | ⟨f, i⟩)
  · exact raises_pure _
  · refine raises_bind (raises_onMem (raises_readPte _ _)) fun pte => ?_
    split
    · refine raises_bind (raises_onMem (raises_kfree _)) fun _ => ?_
      exact raises_onMem (raises_modify _)
    · exact raises_pure _

theorem raises_evictPage : Raises Halt.NotFull evictPage := by
  have hfree : ∀ va, Raises Halt.NotFull
      (do freeVictim va; removeResidentPage va; pure true : TM Bool) := fun va =>
    raises_bind (raises_freeVictim va) fun _ => raises_bind (raises_modify _) fun _ => raises_pure _
  have hslot : Raises Halt.NotFull findFreeSwapSlot := by
    refine raises_bind raises_get fun t => ?_
    split
    · exact raises_pure _
    · exact raises_bind (raises_modify _) fun _ => raises_pure _
  refine raises_bind raises_get fun t => ?_
  split
  · exact raises_pure _
  split
  · exact raises_pure _
  split
  · refine raises_bind hslot ?_
    rintro (_ | slot)
    · exact raises_pure _
    · refine raises_bind (raises_swapOutPage _ _) fun r => ?_
      split
      · exact raises_pure _
      · exact hfree _
  · exact hfree _

theorem raises_faultFrame : Raises Halt.NotFull faultFrame := by
  have hevict : Raises Halt.NotFull
      (do if ← evictPage then onMem kalloc else pure none : TM (Option Frame)) := by
    refine raises_bind raises_evictPage fun b => ?_
    split
    · exact raises_onMem raises_kalloc
    · exact raises_pure _
  refine raises_bind raises_get fun t => ?_
  dsimp only
  split
  · exact hevict
  · refine raises_bind (raises_onMem raises_kalloc) ?_
    rintro (_ | f)
    · exact hevict
    · exact raises_pure _

theorem raises_loadPage (fs : Fs) (va : Nat) (slot : Option Nat) (si : Option (Fin 16))
    (mem : Frame) : Raises Halt.NotFull (loadPage fs va slot si mem) := by
  refine raises_bind raises_get fun t => ?_
  split
  · refine raises_bind ?_ fun r => ?_
    · refine raises_bind raises_get fun t => ?_
      split
      · exact raises_pure _
      split
      · exact raises_pure _
      refine raises_bind (raises_onMem (raises_modify _)) fun _ => ?_
      exact raises_bind (raises_modify _) fun _ => raises_pure _
    · split <;> exact raises_pure _
  · unfold loadSegment
    dsimp only
    split
    · refine raises_bind (raises_liftFs fun _ => ilock_error) fun _ => ?_
      split
      · exact raises_pure _
      refine raises_bind (raises_liftFs fun _ => readi_error) ?_
      rintro ⟨r, bytes⟩
      dsimp only
      split
      · exact raises_pure _
      · exact raises_bind (raises_onMem (raises_modify _)) fun _ => raises_pure _
    · exact raises_pure _
  · exact raises_pure _

/-- The resident list of the process is within its limit, and lists pages of the address space. -/
structure Fits (p : Proc) : Prop where
  pagetable : ∃ root, p.pagetable = some root
  pages : ∀ e ∈ p.resident, e.va < maxVa
  limit : p.resident.length ≤ maxResidentPages

theorem Fits.congr {p p' : Proc} (h : Fits p) (hp : p'.pagetable = p.pagetable)
    (hr : p'.resident = p.resident) : Fits p' := by
  obtain ⟨hroot, hpages, hlimit⟩ := h
  rw [← hp] at hroot
  rw [← hr] at hpages hlimit
  exact ⟨hroot, hpages, hlimit⟩

/-- A page that goes makes room. -/
theorem Replaced.fits {b : Bool} {p' : Proc} (h : Replaced t root b p') (hf : Fits t.p) :
    Fits p' ∧ (b = true → p'.resident.length < maxResidentPages) := by
  have herase : ∀ {e}, Victim t.p e → Fits { t.p with
      resident := t.p.resident.eraseP fun x => x.va == e.va } ∧
      (t.p.resident.eraseP fun x => x.va == e.va).length < maxResidentPages := by
    intro e ⟨idx, _, he⟩
    have hlen := List.length_eraseP_of_mem (List.mem_of_getElem? he) (p := fun x => x.va == e.va)
      (beq_self_eq_true e.va)
    have hpos := List.length_pos_of_mem (List.mem_of_getElem? he)
    have hlim := hf.limit
    have hlt : (t.p.resident.eraseP fun x => x.va == e.va).length < maxResidentPages := by omega
    exact ⟨⟨hf.pagetable, fun x hx => hf.pages x (List.mem_of_mem_eraseP hx), hlt.le⟩, hlt⟩
  cases h with
  | empty | noSlot => exact ⟨hf, by rintro ⟨⟩⟩
  | refused => exact ⟨hf.congr rfl rfl, by rintro ⟨⟩⟩
  | discard victim clean => exact ⟨(herase victim).1, fun _ => (herase victim).2⟩
  | swapOut victim => exact ⟨(herase victim).1.congr rfl rfl, fun _ => (herase victim).2⟩

theorem FrameProc.fits {found : Bool} {p₁ : Proc} (h : FrameProc t root found p₁) (hf : Fits t.p) :
    Fits p₁ ∧ (found = true → p₁.resident.length < maxResidentPages) := by
  cases h with
  | free room => exact ⟨hf, fun _ => room⟩
  | replaced full out got =>
    obtain ⟨hp, hlt⟩ := out.fits hf
    exact ⟨hp, fun hfound => hlt (got hfound)⟩

theorem swappedIn_resident (p : Proc) (a : Nat) : (swappedIn p a).resident = p.resident := by
  unfold swappedIn
  split <;> rfl

theorem swappedIn_pagetable (p : Proc) (a : Nat) : (swappedIn p a).pagetable = p.pagetable := by
  unfold swappedIn
  split <;> rfl

theorem map_va_markDirty (a : Nat) (l : List ResidentPage) :
    (markDirty a l).map (·.va) = l.map (·.va) := by
  unfold markDirty
  split
  · rfl
  · apply List.ext_getElem?
    intro n
    rw [List.getElem?_map, List.getElem?_map, List.getElem?_modify]
    cases l[n]? with
    | none => rfl
    | some e => dsimp only [Option.map_some]; split <;> rfl

/-- **The fault handler** keeps the resident list within its limit. -/
theorem FaultProc.fits {va : Nat} {w : Bool} {r : Int} {p' : Proc} (h : FaultProc t va w root r p')
    (hf : Fits t.p) : Fits p' := by
  cases h with
  | refused => exact hf
  | present low mapped =>
    refine ⟨hf.pagetable, fun e he => ?_, ?_⟩
    · dsimp only at he
      split at he
      · obtain ⟨e', he', hva⟩ := mem_markDirty he
        exact hva ▸ hf.pages e' he'
      · exact hf.pages e he
    · dsimp only
      split
      · rw [← List.length_map, map_va_markDirty, List.length_map]
        exact hf.limit
      · exact hf.limit
  | stopped low unmapped valid frame proc =>
    rcases proc with rfl | rfl
    · exact (frame.fits hf).1
    · exact (frame.fits hf).1.congr (swappedIn_pagetable _ _) (swappedIn_resident _ _)
  | loaded low unmapped valid frame =>
    obtain ⟨hp₁, hlt⟩ := frame.fits hf
    have hlt := hlt rfl
    refine ⟨?_, fun e he => ?_, ?_⟩
    · obtain ⟨root', hroot⟩ := hp₁.pagetable
      exact ⟨root', (swappedIn_pagetable _ _).trans hroot⟩
    · rcases List.mem_append.mp he with he | he
      · exact hp₁.pages e (swappedIn_resident _ _ ▸ he)
      · rw [List.mem_singleton.mp he]
        exact (pgRoundDown_le va).trans_lt low
    · simp only [addResidentProc, List.length_append, List.length_singleton, swappedIn_resident]
      omega

/-- Loading a page finds room in the resident list. -/
theorem faultLoad_notFull {fs : Fs} {va : Nat} {w : Bool} {e : Halt}
    (hp : t.p.pagetable = some root)
    (hf : Fits t.p) (hnone : t.mem.lookup root va = none) (hrun : faultLoad fs va w t = .error e) :
    e.NotFull := by
  unfold faultLoad at hrun
  rw [Halting.bind_of_ok (Halting.get_apply _)] at hrun
  rcases bind_eq_error.mp hrun with hrun | ⟨o, t₁, hframe, hrun⟩
  · exact raises_faultFrame _ _ hrun
  have hout := faultFrame_proc hp hf.pages hframe
  cases o with
  | none => exact absurd hrun (by rintro ⟨⟩)
  | some f =>
    dsimp only at hrun
    rcases bind_eq_error.mp hrun with hrun | ⟨_, t₂, hset, hrun⟩
    · exact raises_onMem (raises_modify _) _ _ hrun
    obtain ⟨m₂, -, rfl⟩ := onMem_eq_ok.mp hset
    rcases bind_eq_error.mp hrun with hrun | ⟨o₃, t₃, hload, hrun⟩
    · exact raises_loadPage _ _ _ _ _ _ _ hrun
    have hres : t₃.p.resident = t₁.p.resident := by
      rcases loadPage_proc (t := ⟨m₂, t₁.p⟩) hout hnone hload with ⟨-, hp₃⟩ | ⟨-, hp₃⟩
      · rw [hp₃]
      · rw [hp₃, swappedIn_resident]
    cases o₃ with
    | none =>
      rcases bind_eq_error.mp hrun with hrun | ⟨_, _, _, hrun⟩
      · exact raises_onMem (raises_kfree _) _ _ hrun
      · cases hrun
    | some perm =>
      dsimp only at hrun
      rcases bind_eq_error.mp hrun with hrun | ⟨pt, t₄, hpt, hrun⟩
      · exact raises_pagetableOf _ _ hrun
      have ht₄ : t₄ = t₃ := by
        unfold pagetableOf at hpt
        split at hpt
        · cases hpt
          rfl
        · cases hpt
      rcases bind_eq_error.mp hrun with hrun | ⟨r₅, t₅, hmap, hrun⟩
      · exact raises_onMem (raises_mappages _ _ _ _ _) _ _ hrun
      obtain ⟨m₅, -, rfl⟩ := onMem_eq_ok.mp hmap
      split at hrun
      · rcases bind_eq_error.mp hrun with hrun | ⟨_, _, _, hrun⟩
        · exact raises_onMem (raises_kfree _) _ _ hrun
        · cases hrun
      · -- here the list has fewer than 40 entries
        have hlt := (hout.fits hf).2 rfl
        rcases bind_eq_error.mp hrun with hrun | ⟨_, _, _, hrun⟩
        · unfold addResidentPage at hrun
          rcases bind_eq_error.mp hrun with hrun | ⟨_, t₆, hset, hrun⟩
          · cases hrun
          cases hset
          rw [Halting.bind_of_ok (Halting.get_apply _)] at hrun
          split at hrun
          · next hfull =>
            dsimp only at hfull
            rw [ht₄, hres] at hfull
            simp only [maxResidentPages] at hlt
            omega
          · cases hrun
        · cases hrun

/-- **The fault handler never finds the resident list full.** -/
theorem safe_demandPageLoadNew (fs : Fs) (va : Nat) (w x : Bool) :
    Safe (fun t => Fits t.p) Halt.NotFull (demandPageLoadNew fs va w x) fun _ t => Fits t.p := by
  intro t hf
  obtain ⟨root, hp⟩ := hf.pagetable
  refine ⟨fun e hrun => ?_, fun r t' hrun => (demandPageLoadNew_proc hp hf.pages hrun).fits hf⟩
  unfold demandPageLoadNew at hrun
  split at hrun
  · cases hrun
  next hlow =>
  have hva' : pgRoundDown va < maxVa := by
    have := pgRoundDown_le va
    omega
  have hunmapped : t.mem.lookup root va = none →
      (if isValid t.p va then faultLoad fs va w else pure (-1) : TM Int) t = .error e →
      e.NotFull := by
    intro hnone hrun
    split at hrun
    · exact faultLoad_notFull hp hf hnone hrun
    · cases hrun
  rw [Halting.bind_of_ok (pagetableOf_apply hp), Halting.bind_of_ok (onMem_walk hva'),
    vpath_pgRoundDown, px_pgRoundDown] at hrun
  cases hpt : t.mem.node root (vpath va) with
  | none =>
    rw [hpt] at hrun
    dsimp only [Option.map_none] at hrun
    rw [Halting.bind_of_ok (Halting.get_apply _)] at hrun
    exact hunmapped (lookup_of_no_node hpt) hrun
  | some pt =>
    rw [hpt] at hrun
    dsimp only [Option.map_some] at hrun
    rw [Halting.bind_of_ok (onMem_readPte _ _ _), Halting.bind_of_ok (Halting.get_apply _)] at hrun
    have hlook := lookup_of_node hpt
    split at hrun
    · unfold faultMapped at hrun
      split at hrun
      · split at hrun
        · cases hrun
        · cases hrun
      · cases hrun
    · next hv =>
      rw [if_neg hv] at hlook
      exact hunmapped hlook hrun

/-! ## The callers of the fault handler -/

theorem safe_onMem {α : Type} {I : Proc → Prop} {x : VM α} (hx : Raises Halt.FromVm x) :
    Safe (fun t => I t.p) Halt.NotFull (onMem x) fun _ t => I t.p := by
  refine safe_of_raises (raises_onMem hx) fun t a t' h hi => ?_
  obtain ⟨m, -, rfl⟩ := onMem_eq_ok.mp h
  exact hi

theorem safe_liftFs {α : Type} {I : Proc → Prop} {x : Except Halt α}
    (hx : ∀ e, x = .error e → e.FromFs) :
    Safe (fun t => I t.p) Halt.NotFull (liftFs x) fun _ t => I t.p := by
  refine safe_of_raises (raises_liftFs hx) fun t a t' h hi => ?_
  obtain ⟨-, rfl⟩ := liftFs_eq_ok.mp h
  exact hi

theorem safe_halt {α : Type} {I : Task → Prop} {e : Halt} {Q : α → Task → Prop} (he : e.NotFull) :
    Safe I Halt.NotFull (halt e : TM α) Q := by
  refine fun t _ => ⟨fun e' h => ?_, fun a t' h => ?_⟩
  · cases h
    exact he
  · cases h

theorem safe_walkaddrFault (fs : Fs) (pagetable : Frame) (va : Nat) (w : Bool) :
    Safe (fun t => Fits t.p) Halt.NotFull (walkaddrFault fs pagetable va w) fun _ t =>
    Fits t.p := by
  unfold walkaddrFault
  refine safe_bind (safe_onMem (raises_walkaddr _ _)) ?_
  rintro (_ | pa)
  · refine safe_bind (safe_demandPageLoadNew fs va w false) fun r => ?_
    split
    · exact safe_pure fun _ => id
    · exact safe_onMem (raises_walkaddr _ _)
  · exact safe_pure fun _ => id

theorem safe_copyoutLoop (fs : Fs) (pagetable : Frame) : ∀ fuel dst src,
    Safe (fun t => Fits t.p) Halt.NotFull (copyoutLoop fs pagetable fuel dst src)
      fun _ t => Fits t.p := by
  intro fuel
  induction fuel with
  | zero => exact fun _ _ => safe_pure fun _ => id
  | succ fuel ih =>
    intro dst src
    unfold copyoutLoop
    split
    · exact safe_pure fun _ => id
    split
    · exact safe_pure fun _ => id
    refine safe_bind (safe_walkaddrFault fs pagetable _ true) ?_
    rintro (_ | pa)
    · exact safe_pure fun _ => id
    refine safe_bind (safe_onMem (raises_walk _ _ _)) ?_
    rintro (_ | ⟨f, i⟩)
    · exact safe_halt (by rintro ⟨⟩)
    refine safe_bind (safe_onMem (raises_readPte _ _)) fun pte => ?_
    dsimp only
    split
    · exact safe_pure fun _ => id
    · exact safe_bind (safe_onMem (raises_modify _)) fun _ => ih _ _

/-- **`copyout`** never finds the resident list full. -/
theorem safe_copyout (fs : Fs) (pagetable : Frame) (dst : Nat) (src : List UInt8) :
    Safe (fun t => Fits t.p) Halt.NotFull (copyout fs pagetable dst src) fun _ t => Fits t.p :=
  safe_bind (safe_copyoutLoop fs pagetable _ dst src) fun _ => safe_pure fun _ => id

/-- **`copyin`** never finds the resident list full. -/
theorem safe_copyin (fs : Fs) (pagetable : Frame) (src len : Nat) :
    Safe (fun t => Fits t.p) Halt.NotFull (copyin fs pagetable src len) fun _ t => Fits t.p := by
  have hloop : ∀ fuel src len dst, Safe (fun t => Fits t.p) Halt.NotFull
      (copyinLoop fs pagetable fuel src len dst) fun _ t => Fits t.p := by
    intro fuel
    induction fuel with
    | zero => exact fun _ _ _ => safe_pure fun _ => id
    | succ fuel ih =>
      intro src len dst
      unfold copyinLoop
      split
      · exact safe_pure fun _ => id
      split
      · exact safe_pure fun _ => id
      refine safe_bind (safe_walkaddrFault fs pagetable _ false) ?_
      rintro (_ | pa)
      · exact safe_pure fun _ => id
      refine safe_get_bind fun t hf => ?_
      rintro t' rfl
      exact ih _ _ _ t' hf
  exact hloop _ _ _ _

/-- **`copyinstr`** never finds the resident list full. -/
theorem safe_copyinstr (fs : Fs) (pagetable : Frame) (src max : Nat) :
    Safe (fun t => Fits t.p) Halt.NotFull (copyinstr fs pagetable src max) fun _ t => Fits t.p := by
  have hloop : ∀ fuel src max dst, Safe (fun t => Fits t.p) Halt.NotFull
      (copyinstrLoop fs pagetable fuel src max dst) fun _ t => Fits t.p := by
    intro fuel
    induction fuel with
    | zero => exact fun _ _ _ => safe_pure fun _ => id
    | succ fuel ih =>
      intro src max dst
      unfold copyinstrLoop
      split
      · exact safe_pure fun _ => id
      split
      · exact safe_pure fun _ => id
      refine safe_bind (safe_walkaddrFault fs pagetable _ false) ?_
      rintro (_ | pa)
      · exact safe_pure fun _ => id
      refine safe_get_bind fun t hf => ?_
      dsimp only
      split
      · exact safe_pure fun s (hs : s = t) => hs ▸ hf
      · rintro t' rfl
        exact ih _ _ _ t' hf
  exact hloop _ _ _ _

theorem safe_recordSegs (fs : Fs) (ip : Nat) : ∀ n off sz,
    Safe (fun t => Fits t.p) Halt.NotFull (recordSegs fs ip n off sz) fun _ t => Fits t.p := by
  intro n
  induction n with
  | zero => exact fun _ _ => safe_pure fun _ => id
  | succ n ih =>
    intro off sz
    unfold recordSegs
    refine safe_bind (safe_liftFs fun _ => readi_error) ?_
    rintro ⟨r, bytes⟩
    dsimp only
    split
    · exact safe_pure fun _ => id
    split
    · exact ih _ _
    split
    · exact safe_pure fun _ => id
    refine safe_get_bind fun t hf => ?_
    split
    · refine safe_bind (P := fun _ t => Fits t.p) (safe_modify fun s hs => ?_) fun _ => ih _ _
      exact (hs ▸ hf : Fits s.p).congr rfl rfl
    · exact safe_pure fun s (hs : s = t) => hs ▸ hf

theorem safe_pushStack (fs : Fs) (pagetable : Frame) (stackbase sp : Nat)
    (argv : List (List UInt8)) :
    Safe (fun t => Fits t.p) Halt.NotFull (pushStack fs pagetable stackbase sp argv)
      fun _ t => Fits t.p := by
  have hargs : ∀ argv sp ustack, Safe (fun t => Fits t.p) Halt.NotFull
      (pushArgs fs pagetable stackbase argv sp ustack) fun _ t => Fits t.p := by
    intro argv
    induction argv with
    | nil => exact fun _ _ => safe_pure fun _ => id
    | cons s rest ih =>
      intro sp ustack
      unfold pushArgs
      split
      · exact safe_pure fun _ => id
      split
      · exact safe_pure fun _ => id
      refine safe_bind (safe_copyout _ _ _ _) fun r => ?_
      split
      · exact safe_pure fun _ => id
      · exact ih _ _
  refine safe_bind (hargs _ _ _) ?_
  rintro (_ | ⟨sp', ustack⟩)
  · exact safe_pure fun _ => id
  dsimp only
  split
  · exact safe_pure fun _ => id
  refine safe_bind (safe_copyout _ _ _ _) fun r => ?_
  split <;> exact safe_pure fun _ => id

/-- **`exec`** never finds the resident list full: the pages it copies its arguments to are mapped
by itself, and a fault would be one of the old image. -/
theorem safe_execImage (fs : Fs) (ip : Nat) (argv : List (List UInt8)) :
    Safe (fun t => Fits t.p) Halt.NotFull (execImage fs ip argv) fun _ _ => True := by
  have hbad : ∀ pagetable, Safe (fun t => Fits t.p) Halt.NotFull (execBad pagetable)
      fun _ _ => True := fun pagetable =>
    safe_bind (safe_onMem (raises_procFreepagetable _ _)) fun _ => safe_pure fun _ _ => trivial
  have hcommit : ∀ pagetable sz sp stackPage entry, Raises Halt.NotFull
      (execCommit pagetable sz sp stackPage entry) := by
    intro pagetable sz sp stackPage entry
    refine raises_bind raises_get fun t => raises_bind (raises_modify _) fun _ => ?_
    split
    · exact raises_pure _
    · split
      · exact raises_onMem (raises_procFreepagetable _ _)
      · exact raises_pure _
  have hstack : ∀ pagetable sz entry, Safe (fun t => Fits t.p) Halt.NotFull
      (execStack fs pagetable sz entry argv) fun _ _ => True := by
    intro pagetable sz entry
    unfold execStack
    refine safe_bind (safe_onMem raises_kalloc) ?_
    rintro (_ | mem)
    · exact hbad _
    refine safe_bind (safe_onMem (raises_modify _)) fun _ => ?_
    refine safe_bind (safe_onMem (raises_mappages _ _ _ _ _)) fun r => ?_
    split
    · exact safe_bind (safe_onMem (raises_kfree _)) fun _ => hbad _
    refine safe_bind (safe_pushStack _ _ _ _ _) ?_
    rintro (_ | ⟨sp, argc⟩)
    · exact hbad _
    · refine safe_bind (P := fun _ _ => True) (fun s _ => ⟨fun e => hcommit _ _ _ _ _ s e,
        fun _ _ _ => trivial⟩) fun _ => safe_pure fun _ _ => trivial
  unfold execImage
  refine safe_bind (safe_liftFs fun _ => readi_error) ?_
  rintro ⟨r, bytes⟩
  dsimp only
  split
  · exact safe_pure fun _ _ => trivial
  split
  · exact safe_pure fun _ _ => trivial
  refine safe_get_bind fun t hf => ?_
  rintro t' rfl
  refine safe_bind (safe_onMem (I := Fits) (raises_procPagetable _)) ?_ t' hf
  rintro (_ | pagetable)
  · exact safe_pure fun _ _ => trivial
  refine safe_bind (P := fun _ t => Fits t.p) (safe_modify fun s hs => hs.congr rfl rfl) fun _ => ?_
  refine safe_bind (safe_recordSegs _ _ _ _ _) ?_
  rintro (_ | segEnd)
  · exact hbad _
  · exact hstack _ _ _

end Xv6
