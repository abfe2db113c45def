import OsnMp2.Kernel.Reclaim

/-!
# The frames of the processes

Every frame of physical memory that a process uses belongs to that process: the system invariant
`SysInv` gives each process slot the set of frames it owns, disjoint from the others' and from the
free list. Each kernel function is a local action of one process slot, so it keeps the invariant.

## Main definitions

* `ProcInv`: the frames that a process owns
* `SysInv`: the system invariant
* `Inert`, `Quiet`: what the functions do that do not touch memory

## Main results

* `SysInv.act`: a local action of one process slot keeps the invariant
* `freeproc_spec`, `allocproc_spec`: freeing and allocating a process
-/

namespace Xv6

variable {k k' k'' : Kernel} {m m' : Mem} {root tf : Frame} {own : Nat → Set Frame} {i : Nat}

/-! ## The invariant -/

/-- The fields of a process that its memory depends on are the same. -/
structure SameSpace (p p' : Proc) : Prop where
  pagetable : p'.pagetable = p.pagetable
  trapframe : p'.trapframe = p.trapframe
  sz : p'.sz = p.sz
  resident : p'.resident = p.resident
  swapped : p'.swapped = p.swapped

theorem SameSpace.refl (p : Proc) : SameSpace p p := ⟨rfl, rfl, rfl, rfl, rfl⟩

theorem SameSpace.trans {p p' p'' : Proc} (h : SameSpace p p') (h' : SameSpace p' p'') :
    SameSpace p p'' :=
  ⟨h'.pagetable.trans h.pagetable, h'.trapframe.trans h.trapframe, h'.sz.trans h.sz,
    h'.resident.trans h.resident, h'.swapped.trans h.swapped⟩

theorem TaskOk.congr {p p' : Proc} {o : Set Frame} (h : TaskOk ⟨m, p⟩ root tf o)
    (hs : SameSpace p p') : TaskOk ⟨m, p'⟩ root tf o where
  pagetable := hs.pagetable.trans h.pagetable
  trapframe := hs.trapframe.trans h.trapframe
  space := h.space
  size := (le_of_eq hs.sz).trans h.size
  resident e he := h.resident e (hs.resident ▸ he)
  swapped e he := h.swapped e (hs.swapped ▸ he)

/-- **The frames that a process owns**: none, its trap frame alone while it is being made, or its
trap frame and its address space. -/
inductive ProcInv (m : Mem) (p : Proc) : Set Frame → Prop
  | idle (pagetable : p.pagetable = none) (trapframe : p.trapframe = none) (sz : p.sz = 0) :
      ProcInv m p ∅
  | frame {tf : Frame} (pagetable : p.pagetable = none) (trapframe : p.trapframe = some tf)
      (sz : p.sz = 0) : ProcInv m p {tf}
  | live {root tf : Frame} {o : Set Frame} (task : TaskOk ⟨m, p⟩ root tf o) :
      ProcInv m p (insert tf o)

theorem ProcInv.congr {p p' : Proc} {o : Set Frame} (h : ProcInv m p o) (hs : SameSpace p p') :
    ProcInv m p' o := by
  cases h with
  | idle pagetable trapframe sz =>
    exact .idle (hs.pagetable.trans pagetable) (hs.trapframe.trans trapframe) (hs.sz.trans sz)
  | frame pagetable trapframe sz =>
    exact .frame (hs.pagetable.trans pagetable) (hs.trapframe.trans trapframe) (hs.sz.trans sz)
  | live task => exact .live (task.congr hs)

/-- Actions of others do not change what a process owns. -/
theorem ProcInv.of_other {p : Proc} {o oa oa' : Set Frame} (h : ProcInv m p o)
    (ha : m.Acts oa m' oa') (hdisj : ∀ a ∈ o, a ∉ oa) (htr : m.tramp ∉ oa) : ProcInv m' p o := by
  cases h with
  | idle pagetable trapframe sz => exact .idle pagetable trapframe sz
  | frame pagetable trapframe sz => exact .frame pagetable trapframe sz
  | live task =>
    have hapart : Apart m _ _ _ oa := ⟨task.space, fun a hc => hdisj a (Set.mem_insert_of_mem _ hc),
      htr, hdisj _ (Set.mem_insert _ _)⟩
    exact .live ⟨task.pagetable, task.trapframe, (hapart.acts ha).user, task.size, task.resident,
      task.swapped⟩

/-- An unused slot has no memory, and a process that may run has a page table. -/
structure StateOk (p : Proc) : Prop where
  unused : p.state = .unused → p.pagetable = none ∧ p.trapframe = none
  runnable : p.state = .runnable → p.pagetable ≠ none

/-- Frames in use or free, over the whole system. -/
def total (k : Kernel) (own : Nat → Set Frame) (a : Frame) : Prop :=
  a ∈ k.mem.freelist ∨ ∃ i, a ∈ own i

/-- **The system invariant**: the frames `own i` of the process slots are disjoint from each other
and from the free list, and none of them is the trampoline. -/
structure SysInv (k : Kernel) (own : Nat → Set Frame) : Prop where
  nodup : k.mem.freelist.Nodup
  refreed : k.mem.refreed = false
  tramp_free : k.mem.tramp ∉ k.mem.freelist
  own_free : ∀ i, ∀ a ∈ own i, a ∉ k.mem.freelist
  disjoint : ∀ i j, i ≠ j → ∀ a ∈ own i, a ∉ own j
  tramp_own : ∀ i, k.mem.tramp ∉ own i
  proc : ∀ i, ProcInv k.mem (k.procs i) (own i)
  state : ∀ i, StateOk (k.procs i)
  allocatable : ∀ a, total k own a → k.mem.Allocatable a

theorem SysInv.owned (h : SysInv k own) (i : Nat) : k.mem.store.Owned (own i) :=
  ⟨h.nodup, fun a hf ha => h.own_free i a ha hf⟩

theorem SysInv.idle (h : SysInv k own) {i : Nat} (hu : (k.procs i).state = .unused) :
    own i = ∅ ∧ (k.procs i).sz = 0 := by
  obtain ⟨hp, ht⟩ := (h.state i).unused hu
  obtain ⟨o, ho⟩ : ∃ o, o = own i := ⟨_, rfl⟩
  have hproc := h.proc i
  rw [← ho] at hproc ⊢
  cases hproc with
  | idle _ _ sz => exact ⟨rfl, sz⟩
  | frame _ trapframe => rw [ht] at trapframe; cases trapframe
  | live task => rw [show (k.procs i).pagetable = some _ from task.pagetable] at hp; cases hp

/-- **A step of the system**, by the process slots in `A`: the invariant holds after it, no frame
disappeared but `lost`, and the memory of the other slots is as it was. -/
structure SysStep (A : Set Nat) (k : Kernel) (own : Nat → Set Frame) (k' : Kernel)
    (own' : Nat → Set Frame) (lost : Set Frame) : Prop where
  inv : SysInv k' own'
  conserve : ∀ a, (total k' own' a ∨ a ∈ lost) ↔ total k own a
  other : ∀ j, j ∉ A → own' j = own j ∧ SameSpace (k.procs j) (k'.procs j) ∧
    ∀ a ∈ own j, k'.mem.phys a = k.mem.phys a

theorem SysStep.refl (h : SysInv k own) : SysStep ∅ k own k own ∅ :=
  ⟨h, fun a => by simp, fun _ _ => ⟨rfl, SameSpace.refl _, fun _ _ => rfl⟩⟩

theorem SysStep.trans {A A' : Set Nat} {own' own'' : Nat → Set Frame} {lost lost' : Set Frame}
    (h : SysStep A k own k' own' lost) (h' : SysStep A' k' own' k'' own'' lost') :
    SysStep (A ∪ A') k own k'' own'' (lost ∪ lost') where
  inv := h'.inv
  conserve a := by
    rw [← h.conserve a, ← h'.conserve a, Set.mem_union]
    tauto
  other j hj := by
    rw [Set.mem_union, not_or] at hj
    obtain ⟨ho, hs, hp⟩ := h.other j hj.1
    obtain ⟨ho', hs', hp'⟩ := h'.other j hj.2
    exact ⟨ho'.trans ho, hs.trans hs', fun a ha => (hp' a (ho ▸ ha)).trans (hp a ha)⟩

theorem SysStep.mono {A A' : Set Nat} {own' : Nat → Set Frame} {lost : Set Frame}
    (h : SysStep A k own k' own' lost) (hsub : A ⊆ A') : SysStep A' k own k' own' lost :=
  ⟨h.inv, h.conserve, fun j hj => h.other j fun hc => hj (hsub hc)⟩

/-- **A local action of one process slot** keeps the system invariant: of the frames it has after
the action it may lose some. -/
theorem SysInv.act (h : SysInv k own) (k' : Kernel) {o o' : Set Frame}
    (hacts : k.mem.Acts (own i) k'.mem o) (hsub : o' ⊆ o) (hproc : ProcInv k'.mem (k'.procs i) o')
    (hother : ∀ j, j ≠ i → SameSpace (k.procs j) (k'.procs j))
    (hstate : ∀ j, StateOk (k'.procs j)) :
    SysStep {i} k own k' (Function.update own i o') (o \ o') := by
  have hnot : ∀ a, a ∉ own i → a ∉ k.mem.freelist → a ∉ o ∧ a ∉ k'.mem.freelist := fun a ho hf => by
    rw [← not_or, hacts.mem_total, not_or]
    exact ⟨ho, hf⟩
  have hself : Function.update own i o' i = o' := Function.update_self ..
  have hne : ∀ j, j ≠ i → Function.update own i o' j = own j := fun j hj =>
    Function.update_of_ne hj ..
  have hoj : ∀ j, j ≠ i → ∀ a ∈ own j, a ∉ o ∧ a ∉ k'.mem.freelist := fun j hj a ha =>
    hnot a (fun hc => h.disjoint j i hj a ha hc) (h.own_free j a ha)
  have htr := hnot k.mem.tramp (h.tramp_own i) h.tramp_free
  have hconserve : ∀ a, (total k' (Function.update own i o') a ∨ a ∈ o \ o') ↔ total k own a := by
    intro a
    -- what slot `i` owns or has freed is what it owned or found free
    have htot := hacts.mem_total a
    constructor
    · rintro ((hf | ⟨j, hj⟩) | ⟨ho, -⟩)
      · rcases htot.mp (Or.inr hf) with hc | hc
        · exact Or.inr ⟨i, hc⟩
        · exact Or.inl hc
      · by_cases hji : j = i
        · subst hji
          rw [hself] at hj
          rcases htot.mp (Or.inl (hsub hj)) with hc | hc
          · exact Or.inr ⟨j, hc⟩
          · exact Or.inl hc
        · rw [hne j hji] at hj
          exact Or.inr ⟨j, hj⟩
      · rcases htot.mp (Or.inl ho) with hc | hc
        · exact Or.inr ⟨i, hc⟩
        · exact Or.inl hc
    · have hi : a ∈ own i ∨ a ∈ k.mem.freelist →
          (total k' (Function.update own i o') a ∨ a ∈ o \ o') := fun hc => by
        rcases htot.mpr hc with hc | hc
        · by_cases ho' : a ∈ o'
          · exact Or.inl (Or.inr ⟨i, by rw [hself]; exact ho'⟩)
          · exact Or.inr ⟨hc, ho'⟩
        · exact Or.inl (Or.inl hc)
      rintro (hf | ⟨j, hj⟩)
      · exact hi (Or.inr hf)
      · by_cases hji : j = i
        · subst hji
          exact hi (Or.inl hj)
        · exact Or.inl (Or.inr ⟨j, by rw [hne j hji]; exact hj⟩)
  refine ⟨⟨hacts.owned.nodup, hacts.refreed.trans h.refreed, hacts.tramp ▸ htr.2, fun j a ha => ?_,
    fun j l hjl a ha => ?_, fun j => ?_, fun j => ?_, hstate, fun a ha => ?_⟩, hconserve,
    fun j hj => ⟨hne j hj, hother j hj, fun a ha => ?_⟩⟩
  · by_cases hj : j = i
    · subst hj
      rw [hself] at ha
      exact fun hf => hacts.owned.disjoint a hf (hsub ha)
    · rw [hne j hj] at ha
      exact (hoj j hj a ha).2
  · by_cases hj : j = i
    · subst hj
      rw [hself] at ha
      rw [hne l (Ne.symm hjl)]
      exact fun hc => (hoj l (Ne.symm hjl) a hc).1 (hsub ha)
    · rw [hne j hj] at ha
      by_cases hl : l = i
      · subst hl
        rw [hself]
        exact fun hc => (hoj j hj a ha).1 (hsub hc)
      · rw [hne l hl]
        exact h.disjoint j l hjl a ha
  · rw [hacts.tramp]
    by_cases hj : j = i
    · subst hj
      rw [hself]
      exact fun hc => htr.1 (hsub hc)
    · rw [hne j hj]
      exact h.tramp_own j
  · by_cases hj : j = i
    · subst hj
      rw [hself]
      exact hproc
    · rw [hne j hj]
      exact ((h.proc j).of_other hacts (fun a ha hc => h.disjoint j i hj a ha hc)
        (h.tramp_own i)).congr (hother j hj)
  · exact (hacts.allocatable a).mpr (h.allocatable a ((hconserve a).mp (Or.inl ha)))
  · exact hacts.phys (fun hc => h.disjoint j i hj a ha hc) (h.own_free j a ha)

/-! ## Functions that do not touch memory -/

/-- Memory and the address spaces of all processes are as they were; a process may have exited. -/
structure Quiet (k k' : Kernel) : Prop where
  mem : k'.mem = k.mem
  procs : ∀ i, SameSpace (k.procs i) (k'.procs i)
  state : ∀ i, (k'.procs i).state = (k.procs i).state ∨ (k'.procs i).state = .zombie

theorem Quiet.trans (h : Quiet k k') (h' : Quiet k' k'') : Quiet k k'' :=
  ⟨h'.mem.trans h.mem, fun i => (h.procs i).trans (h'.procs i), fun i => by
    rcases h'.state i with he | he
    · rw [he]
      exact h.state i
    · exact Or.inr he⟩

theorem StateOk.congr {p p' : Proc} (h : StateOk p) (hs : SameSpace p p')
    (hstate : p'.state = p.state ∨ p'.state = .zombie) : StateOk p' := by
  rcases hstate with he | he
  · refine ⟨fun hu => ?_, fun hr => ?_⟩
    · obtain ⟨hp, ht⟩ := h.unused (he ▸ hu)
      exact ⟨hs.pagetable.trans hp, hs.trapframe.trans ht⟩
    · rw [hs.pagetable]
      exact h.runnable (he ▸ hr)
  · exact ⟨fun hu => absurd (he.symm.trans hu) (by decide), fun hr => absurd (he.symm.trans hr)
      (by decide)⟩

/-- Such a function keeps the system invariant. -/
theorem SysInv.quiet (h : SysInv k own) (hq : Quiet k k') : SysStep ∅ k own k' own ∅ := by
  refine ⟨⟨hq.mem ▸ h.nodup, hq.mem ▸ h.refreed, hq.mem ▸ h.tramp_free,
    fun i => hq.mem ▸ h.own_free i, h.disjoint, fun i => hq.mem ▸ h.tramp_own i, fun i => ?_,
    fun i => (h.state i).congr (hq.procs i) (hq.state i), fun a ha => ?_⟩, fun a => ?_,
    fun j _ => ⟨rfl, hq.procs j, fun a _ => by rw [hq.mem]⟩⟩
  · rw [hq.mem]
    exact (h.proc i).congr (hq.procs i)
  · rw [hq.mem]
    refine h.allocatable a ?_
    unfold total at ha ⊢
    rwa [hq.mem] at ha
  · simp [total, hq.mem]

/-- What the functions on inodes and files leave alone: memory and the processes. -/
structure FsOnly (k k' : Kernel) : Prop where
  mem : k'.mem = k.mem
  procs : k'.procs = k.procs

theorem FsOnly.refl (k : Kernel) : FsOnly k k := ⟨rfl, rfl⟩

theorem FsOnly.trans (h : FsOnly k k') (h' : FsOnly k' k'') : FsOnly k k'' :=
  ⟨h'.mem.trans h.mem, h'.procs.trans h.procs⟩

open Halting

theorem fsOnly_pure {α : Type} (a : α) : Keeps FsOnly (pure a : K α) := keeps_pure FsOnly.refl a

theorem fsOnly_get : Keeps FsOnly (get : K Kernel) := keeps_get FsOnly.refl

theorem fsOnly_bind {α β : Type} {x : K α} {f : α → K β} (hx : Keeps FsOnly x)
    (hf : ∀ a, Keeps FsOnly (f a)) : Keeps FsOnly (x >>= f) :=
  keeps_bind (fun _ _ _ h h' => h.trans h') hx hf

theorem fsOnly_modify {f : Kernel → Kernel} (hm : ∀ k, (f k).mem = k.mem)
    (hp : ∀ k, (f k).procs = k.procs) : Keeps FsOnly (modify f : K Unit) :=
  keeps_modify fun k => ⟨hm k, hp k⟩

theorem fsOnly_updInode (ip : Nat) (f : Inode → Inode) : Keeps FsOnly (updInode ip f) :=
  fsOnly_modify (fun _ => rfl) fun _ => rfl

theorem fsOnly_getProc (j : Nat) : Keeps FsOnly (getProc j) := by
  intro k a k' h
  cases h
  exact FsOnly.refl k

theorem fsOnly_iget (inum : Nat) : Keeps FsOnly (iget inum) := by
  unfold iget
  refine fsOnly_bind fsOnly_get fun k => ?_
  split
  · exact fsOnly_bind (fsOnly_updInode _ _) fun _ => fsOnly_pure _
  · split
    · exact fsOnly_bind (fsOnly_updInode _ _) fun _ => fsOnly_pure _
    · exact keeps_halt _

theorem fsOnly_iput (ip : Nat) : Keeps FsOnly (iput ip) := by
  unfold iput
  refine fsOnly_bind fsOnly_get fun k => ?_
  dsimp only
  split
  · exact fsOnly_bind (fsOnly_modify (fun _ => rfl) fun _ => rfl) fun _ =>
      fsOnly_bind (fsOnly_updInode _ _) fun _ => fsOnly_updInode _ _
  · exact fsOnly_updInode _ _

theorem fsOnly_ilockInode (j ip : Nat) : Keeps FsOnly (ilockInode j ip) := by
  unfold ilockInode
  refine fsOnly_bind fsOnly_get fun k => ?_
  split
  · exact keeps_halt _
  · exact fsOnly_updInode _ _

theorem fsOnly_iunlock (j ip : Nat) : Keeps FsOnly (iunlock j ip) := by
  unfold iunlock
  refine fsOnly_bind fsOnly_get fun k => ?_
  split
  · exact keeps_halt _
  · exact fsOnly_updInode _ _

theorem fsOnly_dirlookup (dp : Nat) (name : Name) : Keeps FsOnly (dirlookup dp name) := by
  unfold dirlookup
  refine fsOnly_bind fsOnly_get fun k => ?_
  split
  · exact keeps_halt _
  · split
    · exact fsOnly_pure _
    · exact fsOnly_bind (fsOnly_iget _) fun _ => fsOnly_pure _

theorem fsOnly_namexLoop (j : Nat) : ∀ names ip, Keeps FsOnly (namexLoop j names ip) := by
  intro names
  induction names with
  | nil => exact fun ip => fsOnly_pure _
  | cons name rest ih =>
    intro ip
    rw [namexLoop]
    refine fsOnly_bind (fsOnly_ilockInode j ip) fun _ => fsOnly_bind fsOnly_get fun k => ?_
    split
    · exact fsOnly_bind (fsOnly_iunlock j ip) fun _ => fsOnly_bind (fsOnly_iput ip) fun _ =>
        fsOnly_pure _
    · refine fsOnly_bind (fsOnly_dirlookup ip name) fun o => ?_
      split
      · exact fsOnly_bind (fsOnly_iunlock j ip) fun _ => fsOnly_bind (fsOnly_iput ip) fun _ =>
          fsOnly_pure _
      · exact fsOnly_bind (fsOnly_iunlock j ip) fun _ => fsOnly_bind (fsOnly_iput ip) fun _ => ih _

theorem fsOnly_namei (j : Nat) (path : List UInt8) : Keeps FsOnly (namei j path) := by
  unfold namei
  split
  · exact fsOnly_bind (fsOnly_iget _) fun _ => fsOnly_namexLoop j _ _
  · refine fsOnly_bind (fsOnly_getProc j) fun p => ?_
    split
    · exact keeps_halt _
    · exact fsOnly_bind (fsOnly_updInode _ _) fun _ => fsOnly_namexLoop j _ _

theorem fsOnly_updFile (f : Nat) (g : File → File) : Keeps FsOnly (updFile f g) :=
  fsOnly_modify (fun _ => rfl) fun _ => rfl

theorem fsOnly_fileclose (f : Nat) : Keeps FsOnly (fileclose f) := by
  unfold fileclose
  refine fsOnly_bind fsOnly_get fun k => ?_
  split
  · exact keeps_halt _
  · split
    · exact fsOnly_updFile _ _
    · refine fsOnly_bind (fsOnly_updFile _ _) fun _ => ?_
      split
      · exact fsOnly_iput _
      · exact fsOnly_pure _

/-- Only reference counts have changed. -/
structure RefsOnly (k k' : Kernel) : Prop where
  mem : k'.mem = k.mem
  procs : k'.procs = k.procs
  fs : k'.fs = { k.fs with itable := k'.fs.itable }
  inode : ∀ ip, ∃ ref, k'.fs.itable ip = { k.fs.itable ip with ref := ref }

theorem RefsOnly.refl (k : Kernel) : RefsOnly k k := ⟨rfl, rfl, rfl, fun _ => ⟨_, rfl⟩⟩

theorem RefsOnly.trans (h : RefsOnly k k') (h' : RefsOnly k' k'') : RefsOnly k k'' where
  mem := h'.mem.trans h.mem
  procs := h'.procs.trans h.procs
  fs := by rw [h'.fs, h.fs]
  inode ip := by
    obtain ⟨r, hr⟩ := h.inode ip
    obtain ⟨r', hr'⟩ := h'.inode ip
    exact ⟨r', by rw [hr', hr]⟩

theorem RefsOnly.fsOnly (h : RefsOnly k k') : FsOnly k k' := ⟨h.mem, h.procs⟩

/-- The contents of the inodes do not depend on reference counts. -/
theorem RefsOnly.content (h : RefsOnly k k') (ip : Nat) : k'.fs.content ip = k.fs.content ip := by
  obtain ⟨r, hr⟩ := h.inode ip
  unfold Fs.content
  rw [hr, h.fs]

theorem refsOnly_bind {α β : Type} {x : K α} {f : α → K β} (hx : Keeps RefsOnly x)
    (hf : ∀ a, Keeps RefsOnly (f a)) : Keeps RefsOnly (x >>= f) :=
  keeps_bind (fun _ _ _ h h' => h.trans h') hx hf

theorem refsOnly_idup (ip : Nat) : Keeps RefsOnly (idup ip) := by
  refine keeps_modify fun k => ⟨rfl, rfl, rfl, fun l => ?_⟩
  by_cases hl : l = ip
  · subst hl
    exact ⟨_, Function.update_self ..⟩
  · exact ⟨_, Function.update_of_ne hl ..⟩

theorem refsOnly_filedup (f : Nat) : Keeps RefsOnly (filedup f) := by
  unfold filedup
  refine refsOnly_bind (keeps_get RefsOnly.refl) fun k => ?_
  split
  · exact keeps_halt _
  · exact keeps_modify fun k => ⟨rfl, rfl, rfl, fun _ => ⟨_, rfl⟩⟩

theorem refsOnly_dupSegs (segs : Fin 16 → LazySeg) : ∀ l, Keeps RefsOnly (dupSegs segs l) := by
  intro l
  induction l with
  | nil => exact keeps_pure RefsOnly.refl _
  | cons s rest ih =>
    rw [dupSegs]
    split
    · exact ih
    · exact refsOnly_bind (refsOnly_idup _) fun _ => ih

theorem refsOnly_dupFiles (files : Fin 16 → Option Nat) :
    ∀ l, Keeps RefsOnly (dupFiles files l) := by
  intro l
  induction l with
  | nil => exact keeps_pure RefsOnly.refl _
  | cons s rest ih =>
    rw [dupFiles]
    split
    · exact ih
    · exact refsOnly_bind (refsOnly_filedup _) fun _ => ih

/-- Two processes that differ at most in the references they hold: segments, files, directory. -/
def SameButRefs (p p' : Proc) : Prop :=
  ∃ segs files dir, p' = { p with lazySegs := segs, ofile := files, cwd := dir }

theorem SameButRefs.refl (p : Proc) : SameButRefs p p := ⟨_, _, _, rfl⟩

theorem SameButRefs.trans {p p' p'' : Proc} (h : SameButRefs p p') (h' : SameButRefs p' p'') :
    SameButRefs p p'' := by
  obtain ⟨_, _, _, rfl⟩ := h
  obtain ⟨_, _, _, rfl⟩ := h'
  exact ⟨_, _, _, rfl⟩

theorem SameButRefs.sameSpace {p p' : Proc} (h : SameButRefs p p') : SameSpace p p' := by
  obtain ⟨_, _, _, rfl⟩ := h
  exact ⟨rfl, rfl, rfl, rfl, rfl⟩

theorem SameButRefs.state {p p' : Proc} (h : SameButRefs p p') : p'.state = p.state := by
  obtain ⟨_, _, _, rfl⟩ := h
  rfl

/-- What the functions on inodes and files leave alone: memory, and the processes but for the
references they hold. -/
structure Inert (k k' : Kernel) : Prop where
  mem : k'.mem = k.mem
  procs : ∀ i, SameButRefs (k.procs i) (k'.procs i)

theorem Inert.trans (h : Inert k k') (h' : Inert k' k'') : Inert k k'' :=
  ⟨h'.mem.trans h.mem, fun i => (h.procs i).trans (h'.procs i)⟩

theorem Inert.quiet (h : Inert k k') : Quiet k k' :=
  ⟨h.mem, fun i => (h.procs i).sameSpace, fun i => Or.inl (h.procs i).state⟩

theorem FsOnly.inert (h : FsOnly k k') : Inert k k' :=
  ⟨h.mem, fun _ => h.procs ▸ SameButRefs.refl _⟩

theorem inert_updProc {f : Proc → Proc} (hf : ∀ p, SameButRefs p (f p)) (j : Nat) :
    Keeps Inert (updProc j f) := by
  refine keeps_modify fun k => ⟨rfl, fun l => ?_⟩
  by_cases hl : l = j
  · subst hl
    simpa using hf (k.procs l)
  · simpa [hl] using SameButRefs.refl (k.procs l)

theorem inert_bind {α β : Type} {x : K α} {f : α → K β} (hx : Keeps Inert x)
    (hf : ∀ a, Keeps Inert (f a)) : Keeps Inert (x >>= f) :=
  keeps_bind (fun _ _ _ h h' => h.trans h') hx hf

theorem inert_of_fsOnly {α : Type} {x : K α} (hx : Keeps FsOnly x) : Keeps Inert x :=
  hx.mono fun _ _ h => h.inert

theorem inert_putSegs (j : Nat) : ∀ l, Keeps Inert (putSegs j l) := by
  intro l
  induction l with
  | nil => exact inert_of_fsOnly (fsOnly_pure _)
  | cons s rest ih =>
    rw [putSegs]
    refine inert_bind (inert_of_fsOnly (fsOnly_getProc j)) fun p => ?_
    split
    · exact ih
    · refine inert_bind (inert_of_fsOnly (fsOnly_iput _)) fun _ =>
        inert_bind (inert_updProc ?_ j) fun _ => ih
      exact fun p => ⟨_, _, _, rfl⟩

theorem inert_closeFiles (j : Nat) : ∀ l, Keeps Inert (closeFiles j l) := by
  intro l
  induction l with
  | nil => exact inert_of_fsOnly (fsOnly_pure _)
  | cons fd rest ih =>
    rw [closeFiles]
    refine inert_bind (inert_of_fsOnly (fsOnly_getProc j)) fun p => ?_
    split
    · exact ih
    · refine inert_bind (inert_of_fsOnly (fsOnly_fileclose _)) fun _ =>
        inert_bind (inert_updProc ?_ j) fun _ => ih
      exact fun p => ⟨_, _, _, rfl⟩

theorem quiet_updProc {f : Proc → Proc} (hf : ∀ p, SameSpace p (f p))
    (hu : ∀ p, (f p).state = p.state ∨ (f p).state = .zombie) (j : Nat) :
    Keeps Quiet (updProc j f) := by
  refine keeps_modify fun k => ⟨rfl, fun l => ?_, fun l => ?_⟩
  · by_cases hl : l = j
    · subst hl
      simpa using hf (k.procs l)
    · simpa [hl] using SameSpace.refl (k.procs l)
  · by_cases hl : l = j
    · subst hl
      simpa using hu (k.procs l)
    · simp [hl]

/-- **`kexit`** keeps the memory of the process until it is reaped. -/
theorem quiet_kexit (j : Nat) (status : Int) : Keeps Quiet (kexit j status) := by
  have htrans : ∀ a b c : Kernel, Quiet a b → Quiet b c → Quiet a c := fun _ _ _ h h' => h.trans h'
  have hinert : ∀ {α : Type} {x : K α}, Keeps Inert x → Keeps Quiet x :=
    fun hx => hx.mono fun _ _ h => h.quiet
  have hfs : ∀ {α : Type} {x : K α}, Keeps FsOnly x → Keeps Quiet x :=
    fun hx => hinert (inert_of_fsOnly hx)
  unfold kexit
  refine keeps_bind htrans (hfs fsOnly_get) fun k => ?_
  split
  · exact keeps_halt _
  refine keeps_bind htrans (hinert (inert_closeFiles j _)) fun _ =>
    keeps_bind htrans (hfs (fsOnly_getProc j)) fun p => ?_
  split
  · exact keeps_halt _
  refine keeps_bind htrans (hfs (fsOnly_iput _)) fun _ =>
    keeps_bind htrans (hinert (inert_updProc (fun p => ⟨_, _, _, rfl⟩) j)) fun _ =>
      keeps_bind htrans (keeps_modify fun k => ⟨rfl, fun l => ?_, fun l => ?_⟩) fun _ =>
        quiet_updProc ?_ ?_ j
  · dsimp only
    split
    · exact ⟨rfl, rfl, rfl, rfl, rfl⟩
    · exact SameSpace.refl _
  · dsimp only
    split
    · exact Or.inl rfl
    · exact Or.inl rfl
  · exact fun p => ⟨rfl, rfl, rfl, rfl, rfl⟩
  · exact fun p => Or.inr rfl

/-! ## Freeing and allocating a process -/

theorem onPhys_eq_ok {α : Type} {x : VM α} {a : α} :
    onPhys x k = .ok (a, k') ↔ ∃ m, x k.mem = .ok (a, m) ∧ k' = { k with mem := m } :=
  Halting.zoom_eq_ok

theorem onTask_eq_ok {α : Type} {x : Fs → TM α} {a : α} :
    onTask i x k = .ok (a, k') ↔ ∃ t, x k.fs (k.task i) = .ok (a, t) ∧ k' = k.setTask i t :=
  Halting.zoom_eq_ok

theorem updProc_apply (j : Nat) (f : Proc → Proc) (k : Kernel) :
    updProc j f k = .ok ((), { k with procs := Function.update k.procs j (f (k.procs j)) }) := rfl

/-- The user pages that `freeproc` loses: those at or above the size of the process. -/
def lostPages (m : Mem) (p : Proc) : Set Frame :=
  {a | ∃ root, p.pagetable = some root ∧ a ∈ userPages m root (pgRoundUp p.sz / pgSize)}

/-- **`freeproc`** frees everything the process owns but the user pages above its size. -/
theorem freeproc_spec (h : SysInv k own) (hrun : freeproc i k = .ok ((), k')) :
    k.mem.Acts (own i) k'.mem (lostPages k.mem (k.procs i)) ∧
      (∀ j, j ≠ i → SameSpace (k.procs j) (k'.procs j) ∧ (k'.procs j).state = (k.procs j).state) ∧
      (k'.procs i).pagetable = none ∧ (k'.procs i).trapframe = none ∧ (k'.procs i).sz = 0 ∧
      (k'.procs i).state = .unused := by
  unfold freeproc at hrun
  obtain ⟨p, k₀, hget, hrun⟩ := Halting.bind_eq_ok.mp hrun
  cases hget
  -- the memory is freed
  have hmem : ∃ m', k.mem.Acts (own i) m' (lostPages k.mem (k.procs i)) ∧
      (do updProc i fun p => { p with trapframe := none, pagetable := none, sz := 0 }
          putSegs i (List.finRange 16)
          updProc i fun p => { cleanupSwapFile p with
            pid := 0, parent := none, killed := false, xstate := 0, state := .unused } : K Unit)
        { k with mem := m' } = .ok ((), k') := by
    obtain ⟨o, ho⟩ : ∃ o, o = own i := ⟨_, rfl⟩
    have hproc := h.proc i
    have howned := h.owned i
    rw [← ho] at hproc howned ⊢
    cases hproc with
    | idle pagetable trapframe sz =>
      rw [trapframe, pagetable] at hrun
      have hlost : lostPages k.mem (k.procs i) = ∅ := by
        ext a
        simp [lostPages, pagetable]
      rw [hlost]
      exact ⟨k.mem, Mem.Acts.refl howned, hrun⟩
    | frame pagetable trapframe sz =>
      rw [trapframe, pagetable] at hrun
      have hlost : lostPages k.mem (k.procs i) = ∅ := by
        ext a
        simp [lostPages, pagetable]
      obtain ⟨_, k₁, hk, hrun⟩ := Halting.bind_eq_ok.mp hrun
      obtain ⟨m₁, hm₁, rfl⟩ := onPhys_eq_ok.mp hk
      obtain ⟨hacts, -⟩ := kfree_spec hm₁ howned (Set.mem_singleton _)
      rw [hlost]
      rw [Set.sdiff_self] at hacts
      exact ⟨m₁, hacts, hrun⟩
    | live task =>
      rename_i root tf o
      have hpt : (k.procs i).pagetable = some root := task.pagetable
      have htf : (k.procs i).trapframe = some tf := task.trapframe
      rw [htf, hpt] at hrun
      obtain ⟨_, k₁, hk, hrun⟩ := Halting.bind_eq_ok.mp hrun
      obtain ⟨m₁, hm₁, rfl⟩ := onPhys_eq_ok.mp hk
      obtain ⟨_, k₂, hfp, hrun⟩ := Halting.bind_eq_ok.mp hrun
      obtain ⟨m₂, hm₂, rfl⟩ := onPhys_eq_ok.mp hfp
      have hlost : lostPages k.mem (k.procs i) =
          userPages k.mem root (pgRoundUp (k.procs i).sz / pgSize) := by
        ext a
        simp [lostPages, hpt]
      rw [hlost]
      exact ⟨m₂, freeProcMem_spec task.space task.size hm₁ hm₂, hrun⟩
  obtain ⟨m', hacts, hrun⟩ := hmem
  -- the fields are cleared
  obtain ⟨_, k₁, hclear, hrun⟩ := Halting.bind_eq_ok.mp hrun
  rw [updProc_apply] at hclear
  cases hclear
  obtain ⟨_, k₂, hput, hrun⟩ := Halting.bind_eq_ok.mp hrun
  rw [updProc_apply] at hrun
  cases hrun
  have hq := inert_putSegs i _ _ _ _ hput
  refine ⟨?_, fun j hj => ?_, ?_, ?_, ?_, ?_⟩
  · rw [show k₂.mem = m' from hq.mem]
    exact hacts
  · have hqj := hq.procs j
    simp only [Function.update_of_ne hj] at hqj ⊢
    exact ⟨hqj.sameSpace, hqj.state⟩
  · have hqi := (hq.procs i).sameSpace.pagetable
    simpa [cleanupSwapFile] using hqi
  · have hqi := (hq.procs i).sameSpace.trapframe
    simpa [cleanupSwapFile] using hqi
  · have hqi := (hq.procs i).sameSpace.sz
    simpa [cleanupSwapFile] using hqi
  · simp [cleanupSwapFile]

/-- After `freeproc` the slot owns nothing, and the frames of user pages above the size are lost. -/
theorem SysInv.freeproc (h : SysInv k own) (hrun : Xv6.freeproc i k = .ok ((), k')) :
    SysStep {i} k own k' (Function.update own i ∅) (lostPages k.mem (k.procs i)) := by
  obtain ⟨hacts, hother, hpt, htf, hsz, hunused⟩ := freeproc_spec h hrun
  have hstep := h.act k' hacts (Set.empty_subset _) (.idle hpt htf hsz)
      (fun j hj => (hother j hj).1)
    fun j => ?_
  · rwa [Set.sdiff_empty] at hstep
  · by_cases hj : j = i
    · subst hj
      exact ⟨fun _ => ⟨hpt, htf⟩, fun hr => by rw [hunused] at hr; cases hr⟩
    · obtain ⟨hsame, hstate⟩ := hother j hj
      exact (h.state j).congr hsame (Or.inl hstate)

/-- A step of the memory and of the process in slot `i` alone. -/
theorem SysInv.actProc (h : SysInv k own) {o : Set Frame} {p' : Proc} {m' : Mem}
    (hacts : k.mem.Acts (own i) m' o) (hproc : ProcInv m' p' o) (hstate : StateOk p') :
    SysStep {i} k own { k with mem := m', procs := Function.update k.procs i p' }
      (Function.update own i o) ∅ := by
  have hstep := h.act { k with mem := m', procs := Function.update k.procs i p' } hacts
    (subset_refl o) (by simpa using hproc) (fun j hj => by simpa [hj] using SameSpace.refl _)
    fun j => ?_
  · rwa [Set.sdiff_self] at hstep
  · by_cases hj : j = i
    · subst hj
      simpa using hstate
    · simpa [hj] using h.state j

theorem lostPages_of_none {p : Proc} (h : p.pagetable = none) : lostPages m p = ∅ := by
  ext a
  simp [lostPages, h]

/-- **`allocproc`** makes a process with an empty user address space, or gives everything back. -/
theorem allocproc_spec (h : SysInv k own) {r : Option Nat} (hrun : allocproc k = .ok (r, k')) :
    (r = none ∧ SysStep {j | (k.procs j).state = .unused} k own k' own ∅ ∧
      ∀ j, (k.procs j).state ≠ .unused → SameSpace (k.procs j) (k'.procs j)) ∨
    ∃ i tf root o, r = some i ∧ (k.procs i).state = .unused ∧
      SysStep {i} k own k' (Function.update own i (insert tf o)) ∅ ∧ TaskOk (k'.task i) root tf o ∧
      k.mem.Acts ∅ k'.mem (insert tf o) ∧
      (∀ va, va < trapframeVa → k'.mem.lookup root va = none) ∧
      k' = { k with
        mem := k'.mem
        nextpid := k.nextpid + 1
        procs := Function.update k.procs i (initProc { k.procs i with
          pid := k.nextpid, state := .used, trapframe := some tf, pagetable := some root }) } := by
  unfold allocproc at hrun
  rw [Halting.bind_of_ok (Halting.get_apply _)] at hrun
  cases hfind : (List.range nProc).find? fun i => (k.procs i).state == .unused with
  | none =>
    rw [hfind] at hrun
    obtain ⟨rfl, rfl⟩ := Halting.pure_eq_ok.mp hrun
    exact Or.inl ⟨rfl, (SysStep.refl h).mono (Set.empty_subset _), fun _ _ => SameSpace.refl _⟩
  | some i =>
    have hun : (k.procs i).state = .unused := by simpa using List.find?_some hfind
    obtain ⟨hown, hsz⟩ := h.idle hun
    obtain ⟨hpt, htf⟩ := (h.state i).unused hun
    rw [hfind] at hrun
    dsimp only at hrun
    obtain ⟨_, k₀, hnp, hrun⟩ := Halting.bind_eq_ok.mp hrun
    cases hnp
    obtain ⟨_, k₁, hup, hrun⟩ := Halting.bind_eq_ok.mp hrun
    rw [updProc_apply] at hup
    cases hup
    obtain ⟨o, k₂, hk, hrun⟩ := Halting.bind_eq_ok.mp hrun
    obtain ⟨m₂, hm₂, rfl⟩ := onPhys_eq_ok.mp hk
    dsimp only at hm₂ hrun
    -- the process that is being made, with the frames it has so far
    have hstep : ∀ {m : Mem} {o : Set Frame} {p : Proc}, k.mem.Acts ∅ m o → ProcInv m p o →
        p.state = .used →
        SysStep {i} k own { k with
          mem := m
          nextpid := k.nextpid + 1
          procs := Function.update k.procs i p } (Function.update own i o) ∅ := by
      intro m o p hacts hproc hused
      have hs := h.actProc (i := i) (by rw [hown]; exact hacts) hproc
        ⟨fun hc => absurd (hused.symm.trans hc) (by decide), fun hc => absurd (hused.symm.trans hc)
         (by decide)⟩
      have hq : Quiet { k with mem := m, procs := Function.update k.procs i p } { k with
          mem := m, nextpid := k.nextpid + 1, procs := Function.update k.procs i p } :=
        ⟨rfl, fun _ => SameSpace.refl _, fun _ => Or.inl rfl⟩
      simpa using hs.trans (hs.inv.quiet hq)
    -- giving up: what was taken is given back
    have hfail : ∀ {m : Mem} {o : Set Frame} {p : Proc}, k.mem.Acts ∅ m o → ProcInv m p o →
        p.state = .used → p.pagetable = none →
        (do Xv6.freeproc i; pure none : K (Option Nat)) { k with
          mem := m, nextpid := k.nextpid + 1, procs := Function.update k.procs i p } = .ok (r, k') →
        r = none ∧ SysStep {j | (k.procs j).state = .unused} k own k' own ∅ ∧
          ∀ j, (k.procs j).state ≠ .unused → SameSpace (k.procs j) (k'.procs j) := by
      intro m o p hacts hproc hused hnone hrun
      obtain ⟨_, k₃, hfree, hrun⟩ := Halting.bind_eq_ok.mp hrun
      obtain ⟨rfl, rfl⟩ := Halting.pure_eq_ok.mp hrun
      have hs := hstep hacts hproc hused
      have hf := hs.inv.freeproc hfree
      obtain ⟨-, hother, -⟩ := freeproc_spec hs.inv hfree
      rw [lostPages_of_none (by simpa using hnone), Function.update_idem,
        show Function.update own i ∅ = own by rw [← hown, Function.update_eq_self]] at hf
      refine ⟨rfl, ?_, fun j hj => ?_⟩
      · have hboth : SysStep {i} k own k₃ own ∅ := by simpa using hs.trans hf
        exact hboth.mono (Set.singleton_subset_iff.mpr hun)
      have hji : j ≠ i := fun hc => hj (hc ▸ hun)
      simpa [hji] using (hother j hji).1
    have howned : k.mem.store.Owned ∅ := hown ▸ h.owned i
    rcases kalloc_spec hm₂ howned with ⟨rfl, hacts, -⟩ | ⟨tf, rfl, hacts, htfree, -, -⟩
    · exact Or.inl (hfail (p := { k.procs i with pid := k.nextpid, state := .used }) hacts
        (.idle hpt htf hsz) rfl hpt hrun)
    · obtain ⟨_, k₃, hup, hrun⟩ := Halting.bind_eq_ok.mp hrun
      rw [updProc_apply] at hup
      cases hup
      obtain ⟨r', k₄, hpp, hrun⟩ := Halting.bind_eq_ok.mp hrun
      obtain ⟨m₄, hm₄, rfl⟩ := onPhys_eq_ok.mp hpp
      simp only [Function.update_idem, Function.update_self] at hrun
      have htf' : tf ∉ m₂.freelist := fun hc => hacts.owned.disjoint tf hc (Set.mem_insert _ _)
      have htramp : m₂.tramp ≠ tf := by
        rw [hacts.tramp]
        exact fun hc => h.tramp_free (hc ▸ htfree)
      have htrfree : m₂.tramp ∉ m₂.freelist := fun hc => by
        rcases (hacts.mem_total m₂.tramp).mp (Or.inr hc) with hc | hc
        · exact hc
        · exact h.tramp_free (hacts.tramp ▸ hc)
      have htfown : m₂.store.Owned {tf} := hacts.owned.mono (by simp)
      rcases procPagetable_spec hacts.owned.nodup htrfree htf' htramp hm₄ with
        ⟨rfl, hacts'⟩ | ⟨root, o, rfl, hspace, hacts', hroot, hempty⟩
      · have hboth := hacts.trans ((hacts'.frame htfown (by simp)) |> fun hc => by
          rw [Set.empty_union] at hc
          rwa [show (insert tf ∅ : Set Frame) = {tf} by simp])
        exact Or.inl (hfail (p := { k.procs i with
          pid := k.nextpid, state := .used, trapframe := some tf }) hboth (.frame hpt rfl hsz) rfl
          hpt hrun)
      · have hframe := hacts'.frame htfown (by simp)
        rw [Set.empty_union, Set.union_singleton] at hframe
        rw [show (insert tf ∅ : Set Frame) = {tf} by simp] at hacts
        obtain ⟨_, k₅, hup, hrun⟩ := Halting.bind_eq_ok.mp hrun
        rw [updProc_apply] at hup
        cases hup
        obtain ⟨rfl, rfl⟩ := Halting.pure_eq_ok.mp hrun
        simp only [Function.update_idem, Function.update_self]
        have htask : TaskOk ⟨m₄, initProc { k.procs i with
            pid := k.nextpid, state := .used, trapframe := some tf, pagetable := some root }⟩
            root tf o := ⟨rfl, rfl, hspace, by simp [initProc, hsz], by simp [initProc],
          by simp [initProc]⟩
        refine Or.inr ⟨i, tf, root, o, rfl, hun, hstep (hacts.trans hframe) (.live htask) rfl, ?_,
          hacts.trans hframe, hempty, rfl⟩
        simpa [Kernel.task] using htask

end Xv6
