import OsnMp2.Kernel.Returns
import OsnMp2.Kernel.RefCount

/-!
# A fork that fails

`kfork` takes a slot, a trap frame, a page table and a frame for every page it copies, and each of
these can be missing. What was taken is given back in three places: `uvmcopy` removes the pages it
has copied, `freeproc` frees the trap frame and the page table, with a size that is still zero,
and `freewalk` the page-table pages, skipping leaves. None of them panics here, and together they
leave the kernel as it was.

## Main definitions

* `forkMemory`: there is memory for all that `kfork` allocates
* `Undone`: the kernel is as before, but for idle slots and the contents of free frames

## Main results

* `uvmcopy_returns`, `freeproc_gives_back`: the two cleanups
* `idleSegs_reachable`: slots that are not in use hold no segment
* `kfork_undone`: without the memory `kfork` returns `-1` and has no effect
-/

namespace Xv6

open Halting

variable {k k' : Kernel} {m m' : Mem} {own : Nat → Set Frame} {i j : Nat} {root tf : Frame}
  {o : Set Frame} {t : Task}

/-- There is memory for all that `kfork` allocates: the trap frame, the page table of
`proc_pagetable`, and the pages and page-table pages of `uvmcopy`. -/
def forkMemory (k : Kernel) (i : Nat) : Bool :=
  match kalloc k.mem with
  | .ok (some tf, m₁) =>
    match procPagetable tf m₁ with
    | .ok (some new, m₂) =>
      match (k.procs i).pagetable with
      | some old =>
        match uvmcopy old new (k.procs i).sz m₂ with
        | .ok (r, _) => r == 0
        | .error _ => false
      | none => false
    | _ => false
  | _ => false

/-- **The kernel is as before**: the free frames are the same ones, every other frame has
its contents, and the processes, the inodes and the open files have not changed, but for
slots that are not in use. -/
structure Undone (k k' : Kernel) : Prop where
  free : k'.mem.freelist.Perm k.mem.freelist
  phys : ∀ a, a ∉ k.mem.freelist → k'.mem.phys a = k.mem.phys a
  unused : ∀ j, (k.procs j).state = .unused → (k'.procs j).state = .unused
  procs : ∀ j, (k.procs j).state ≠ .unused → k'.procs j = k.procs j
  fs : k'.fs = k.fs
  ftable : k'.ftable = k.ftable

/-- An action that has given back all it took. -/
theorem Undone.of_acts (hacts : k.mem.Acts ∅ k'.mem ∅) (hnd : k.mem.freelist.Nodup)
    (hab : Aborted k k') (hfs : k'.fs = k.fs) (hftable : k'.ftable = k.ftable) : Undone k k' where
  free := by
    apply (List.perm_ext_iff_of_nodup hacts.owned.nodup hnd).mpr
    intro a
    have htotal := hacts.mem_total a
    simpa using htotal
  phys a ha := hacts.phys (Set.notMem_empty a) ha
  unused j hj := by
    rcases hab j with heq | hidle
    · rw [heq, hj]
    · exact hidle.after
  procs j hj := by
    rcases hab j with heq | hidle
    · exact heq
    · exact absurd hidle.before hj
  fs := hfs
  ftable := hftable

/-! ## Slots that are not in use -/

/-- A step that leaves the process in slot `i` in use and the other slots alone. -/
theorem IdleSegs.update (h : IdleSegs k) (hlive : (k'.procs i).state ≠ .unused)
    (hother : ∀ l, l ≠ i → k'.procs l = k.procs l) : IdleSegs k' := by
  intro l hl
  by_cases hli : l = i
  · exact absurd (hli ▸ hl) hlive
  · rw [hother l hli] at hl ⊢
    exact h l hl

theorem IdleSegs.setTask (h : IdleSegs k) (hlive : t.p.state = .runnable) :
    IdleSegs (k.setTask i t) := by
  refine h.update (i := i) ?_ fun l hl => setTask_other k t hl
  rw [setTask_state, hlive]
  decide

theorem IdleSegs.aborted (h : IdleSegs k) (hab : Aborted k k') : IdleSegs k' := by
  intro l hl
  rcases hab l with heq | hidle
  · rw [heq] at hl ⊢
    exact h l hl
  · exact hidle.segs

/-- **A small step keeps idle slots without segments.** -/
theorem IdleSegs.step {mv : Move} (h : IdleSegs k) (hinv : SysInv k own) (hs : SmallStep k mv k') :
    IdleSegs k' := by
  -- A slot that is not unused keeps the clause out of reach; what remains are the slots a step
  -- frees.
  cases hs with
  | others change =>
    intro l hl
    obtain ⟨_, _, hp⟩ := change.procs l
    rw [hp] at hl ⊢
    exact h l hl
  | op hr does =>
    rename_i i op
    obtain ⟨root, tf, o, hroot, -, -, htask⟩ := hinv.runnable hr
    cases does with
    | fault run =>
      obtain ⟨t, hf, rfl⟩ := onTask_eq_ok.mp run
      obtain ⟨o', -, -, hout⟩ := htask.fault hf
      exact h.setTask (hout.sameImage.state.trans hr)
    | write => exact h.setTask hr
    | kill run =>
      rw [updProc_apply] at run
      cases run
      refine h.update (i := i) ?_ fun l hl => Function.update_of_ne hl ..
      dsimp only
      rw [Function.update_self, hr]
      decide
    | sbrk int run =>
      obtain ⟨t, hrun, rfl⟩ := onTask_eq_ok.mp run
      obtain ⟨o', -, -, hgrow⟩ := htask.growproc hrun
      refine h.setTask ?_
      cases hgrow <;> exact hr
    | fork run =>
      rcases kfork_effect (by rw [hr]; decide) run with ⟨hab, -⟩ | ⟨l, tf', root', -, -, hprocs, -⟩
      · exact h.aborted hab
      · refine h.update (i := l) ?_ fun l' hl => by rw [hprocs, Function.update_of_ne hl]
        rw [hprocs, Function.update_self]
        rintro ⟨⟩
    | exec argvOk run =>
      cases exec_spec hinv hr argvOk run with
      | noFile missing quiet =>
        intro l hl
        rw [quiet.procs] at hl ⊢
        exact h l hl
      | image opened ho htf htask₁ out closed =>
        rename_i k₁ ip t root₁ tf₁ o₁
        have hprocs : k'.procs = Function.update k.procs i t.p := by
          rw [closed.procs, ← opened.procs]
          rfl
        refine h.update (i := i) ?_ fun l hl => by rw [hprocs, Function.update_of_ne hl]
        have hstate : t.p.state = (k.procs i).state := out.segs.2.2.2.1
        rw [hprocs, Function.update_self, hstate, hr]
        decide
    | exit run =>
      obtain ⟨files, -, hprocs, -⟩ := kexit_effect run
      intro l hl
      obtain ⟨q, hq⟩ := hprocs l
      rw [hq] at hl ⊢
      split at hl
      · cases hl
      -- the exiting process becomes a zombie, the others keep their segments
      · next hli =>
        rw [if_neg hli]
        exact h l hl
    | reap zombie parent run =>
      rename_i l
      have hf := freeproc_effect run
      intro l' hl'
      by_cases hl : l' = l
      · subst hl
        rw [hf.procs, Function.update_self]
        exact fun s => by simp [freedProc, cleanupSwapFile, clearSegs]
      · rw [hf.procs, Function.update_of_ne hl] at hl' ⊢
        exact h l' hl'

/-- **Slots that are not in use hold no segment**, in every reachable state. -/
theorem idleSegs_reachable (h : SmallReachable k) : (∃ own, SysInv k own) ∧ IdleSegs k := by
  obtain ⟨k₀, k₁, ms, hboot, huser, hrun⟩ := h
  obtain ⟨hinv, -⟩ := userinit_task hboot huser
  refine hrun.invariant (I := fun k => (∃ own, SysInv k own) ∧ IdleSegs k) ?_
    ⟨hinv, (hboot.refInv huser).segs⟩
  rintro k m k' ⟨⟨own, hown⟩, hidle⟩ hs
  obtain ⟨own', hown', -⟩ := hs.slots hown
  exact ⟨⟨own', hown'⟩, hidle.step hown hs⟩

/-! ## What `freeproc` gives back -/

theorem getProc_apply (i : Nat) (k : Kernel) : getProc i k = .ok (k.procs i, k) := rfl

/-- The loop of `freeproc` has nothing to put. -/
theorem putSegs_idle (h : ∀ s, ((k.procs j).lazySegs s).ip = none) :
    ∀ l, putSegs j l k = .ok ((), k) := by
  intro l
  induction l with
  | nil => rfl
  | cons s rest ih =>
    rw [putSegs]
    refine (bind_of_ok (getProc_apply j k)).trans ?_
    rw [h s]
    exact ih

/-- Freeing the trap frame, then the page table, returns. -/
theorem freeProcMem_returns (h : UserSpace m root tf o) (hpool : Pool m (insert tf o)) {sz : Nat}
    (hsz : sz ≤ trapframeVa) :
    ∃ m₁ m', kfree tf m = .ok ((), m₁) ∧ procFreepagetable root sz m₁ = .ok ((), m') := by
  obtain ⟨_, m₁, hk⟩ := kfree_returns (hpool tf (Or.inl (Set.mem_insert tf o)))
  obtain ⟨hm₁, -⟩ := kfree_cases hk
  have htfown : tf ∉ o := fun hc => (h.own_ne tf hc).2 rfl
  -- `procFreepagetable` does the same whatever is on the free list
  obtain ⟨m₂, hm₂⟩ : ∃ m₂, m₂ = m.setPage tf (PhysPage.fill 1) := ⟨_, rfl⟩
  have h₂ : UserSpace m₂ root tf o := by
    refine h.congr (fun a ha => ?_) ?_ (by rw [hm₂]; rfl) fun a ha => ?_
    · have hne : a ≠ tf := fun hc => htfown (hc ▸ ha)
      rw [hm₂, phys_setPage_of_ne hne]
    · rw [hm₂]
      exact ⟨h.space.owned.nodup, h.space.owned.disjoint⟩
    · rw [hm₂] at ha
      exact ⟨(h.not_free ha).1, (h.not_free ha).2.1⟩
  have hpool₂ : Pool m₂ o := by
    intro a ha
    rw [hm₂] at ha ⊢
    exact hpool a (ha.imp_left (Set.mem_insert_of_mem tf))
  obtain ⟨_, m₃, hrun⟩ := procFreepagetable_returns h₂ hpool₂ hsz
  obtain ⟨pushed, -, -, hany⟩ := procFreepagetable_freeOnly root sz _ _ _ hrun
  obtain ⟨re, hrun₁⟩ := hany m₁.freelist m₁.refreed
  have hmem : m₁ = { m₂ with freelist := m₁.freelist, refreed := m₁.refreed } := by
    rw [hm₂, hm₁]
  exact ⟨m₁, _, hk, by rw [hmem]; exact hrun₁⟩

/-- What `freeproc` does once the memory of a process without segments is freed. -/
theorem freeproc_clear (hsegs : ∀ s, ((k.procs j).lazySegs s).ip = none) :
    (do updProc j fun p => { p with trapframe := none, pagetable := none, sz := 0 }
        putSegs j (List.finRange 16)
        updProc j fun p => { cleanupSwapFile p with
          pid := 0, parent := none, killed := false, xstate := 0, state := .unused } : K Unit) k =
      .ok ((), { k with procs := Function.update k.procs j (freedProc (k.procs j)) }) := by
  have hclear : clearSegs (List.finRange 16) (k.procs j).lazySegs = (k.procs j).lazySegs := by
    funext s
    have hs := hsegs s
    simp only [clearSegs, List.mem_finRange, if_true]
    rw [← hs]
  rw [bind_of_ok (updProc_apply _ _ _),
    bind_of_ok (putSegs_idle (fun s => by simpa using hsegs s) _), updProc_apply]
  simp only [Function.update_self, Function.update_idem, freedProc, hclear, cleanupSwapFile]

/-- **`freeproc` of a process that has no segment and no user page** gives its frames
back, and clears its slot. -/
theorem freeproc_gives_back {own : Set Frame} (hproc : ProcInv k.mem (k.procs j) own)
    (hpool : Pool k.mem own) (howned : k.mem.store.Owned own)
    (hsegs : ∀ s, ((k.procs j).lazySegs s).ip = none) (hlost : lostPages k.mem (k.procs j) = ∅) :
    ∃ m', k.mem.Acts own m' ∅ ∧ freeproc j k = .ok ((), { k with
      mem := m', procs := Function.update k.procs j (freedProc (k.procs j)) }) := by
  unfold freeproc
  cases hproc with
  | idle pagetable trapframe sz =>
    refine ⟨k.mem, Mem.Acts.refl howned, ?_⟩
    rw [bind_of_ok (getProc_apply j k), trapframe, pagetable]
    exact freeproc_clear hsegs
  | frame pagetable trapframe sz =>
    rename_i tf
    obtain ⟨_, m₁, hk⟩ := kfree_returns (hpool tf (Or.inl (Set.mem_singleton tf)))
    obtain ⟨hacts, -⟩ := kfree_spec hk howned (Set.mem_singleton tf)
    rw [Set.sdiff_self] at hacts
    refine ⟨m₁, hacts, ?_⟩
    rw [bind_of_ok (getProc_apply j k), trapframe, pagetable]
    refine (bind_of_ok (onPhys_eq_ok.mpr ⟨m₁, hk, rfl⟩)).trans ?_
    exact freeproc_clear (k := { k with mem := m₁ }) hsegs
  | live task =>
    rename_i root tf o
    have htf : (k.procs j).trapframe = some tf := task.trapframe
    have hroot : (k.procs j).pagetable = some root := task.pagetable
    obtain ⟨m₁, m₂, hk, hfree⟩ := freeProcMem_returns task.space hpool task.size
    have hacts := freeProcMem_spec task.space task.size hk hfree
    have hpages : userPages k.mem root (pgRoundUp (k.procs j).sz / pgSize) = ∅ := by
      rw [← hlost]
      ext a
      simp [lostPages, hroot]
    rw [hpages] at hacts
    refine ⟨m₂, hacts, ?_⟩
    rw [bind_of_ok (getProc_apply j k), htf, hroot]
    refine (bind_of_ok (onPhys_eq_ok.mpr ⟨m₁, hk, rfl⟩)).trans ?_
    refine (bind_of_ok (onPhys_eq_ok.mpr ⟨m₂, hfree, rfl⟩)).trans ?_
    exact freeproc_clear (k := { k with mem := m₂ }) hsegs

/-! ## What `uvmcopy` removes -/

variable {old new tfo : Frame} {owno own₁ : Set Frame}

/-- The unwinding of `uvmcopy` returns. -/
theorem UserSpace.unwind_returns (h : UserSpace m new tf own₁) (hpool : Pool m own₁) {n : Nat}
    (hn : n ≤ trapframeVa / pgSize) :
    Returns (do Xv6.uvmunmap new 0 n true; pure (-1) : VM Int) m := by
  refine returns_bind (uvmunmap_returns h.space hpool (fun va e hva _ h2 he => ?_) rfl ?_)
    fun _ _ _ => returns_pure _
  · rw [if_pos rfl]
    refine h.user ?_ he
    simp only [trapframeVa, trampolineVa, maxVa, pgSize] at *
    omega
  · simp only [trapframeVa, trampolineVa, maxVa, pgSize] at *
    omega

/-- **The loop of `uvmcopy`** returns, whether or not there is memory. -/
theorem uvmcopyLoop_returns :
    ∀ n {m : Mem} {own₁ : Set Frame} {a : Nat}, a % pgSize = 0 →
    a / pgSize + n ≤ trapframeVa / pgSize →
      Apart m old tfo owno own₁ → UserSpace m new tf own₁ → Pool m own₁ →
      (∀ va, va < trapframeVa → a / pgSize ≤ va / pgSize → m.lookup new va = none) →
      Returns (uvmcopyLoop old new n a) m := by
  intro n
  induction n with
  | zero => exact fun _ _ _ _ _ _ => returns_pure _
  | succ n ih =>
    intro m own₁ a hal hn ho h hpool hnone
    have hpage : (a + pgSize) / pgSize = a / pgSize + 1 := Nat.add_div_right a (by decide)
    have hlow : a < trapframeVa := by
      simp only [trapframeVa, trampolineVa, maxVa, pgSize] at *
      omega
    have hva : a < maxVa := by
      simp only [trapframeVa, trampolineVa, maxVa, pgSize] at *
      omega
    -- the pages that are left
    have hnext : ∀ {m₁ : Mem} {own₂ : Set Frame}, UserSpace m₁ new tf own₂ → m.Acts own₁ m₁ own₂ →
        (∀ va, va < maxVa → ¬ va / pgSize = a / pgSize → m₁.lookup new va = m.lookup new va) →
        Returns (uvmcopyLoop old new n (a + pgSize)) m₁ := by
      intro m₁ own₂ h₁ hacts hkeep
      refine ih (by simp only [pgSize] at *; omega) (by omega) (ho.acts hacts) h₁ (hpool.acts hacts)
        fun va hva' hle => ?_
      have hmax : va < maxVa := by
        simp only [trapframeVa, trampolineVa, maxVa, pgSize] at *
        omega
      rw [hkeep va hmax (by omega)]
      exact hnone va hva' (by omega)
    have hskip : Returns (uvmcopyLoop old new n (a + pgSize)) m :=
      hnext h (Mem.Acts.refl h.space.owned) fun _ _ _ => rfl
    rw [uvmcopyLoop]
    refine returns_bind_of_ok (walk_noalloc hva old m) ?_
    cases hpt : m.node old (vpath a) with
    | none => exact hskip
    | some pt =>
      have hlook := lookup_of_node hpt
      refine returns_bind_of_ok (readPte_apply pt (px 0 a) m) ?_
      by_cases hv : (m.tbl pt (px 0 a)).v = true
      · rw [if_pos hv] at hlook
        rw [if_neg (by simpa using hv)]
        have hunwind : ∀ {m₂ : Mem} {own₂ : Set Frame}, UserSpace m₂ new tf own₂ →
          m.Acts own₁ m₂ own₂ →
            Returns (do uvmunmap new 0 (a / pgSize) true; pure (-1) : VM Int) m₂ := fun h₂ hacts₂ =>
          h₂.unwind_returns (hpool.acts hacts₂) (by omega)
        refine returns_bind (kalloc_returns m) fun f m₁ hk => ?_
        rcases h.kalloc hk with ⟨rfl, h₁, hacts₁, -⟩ | ⟨f, rfl, hheld, hacts, hfree, hphys⟩
        · exact hunwind h₁ hacts₁
        -- the frame has the bytes of the old page
        obtain ⟨pg, hpg⟩ : ∃ pg : PhysPage, pg = { m₁.phys f with
          byte := (m₁.phys (m.tbl pt (px 0 a)).ppn).byte } := ⟨_, rfl⟩
        obtain ⟨hheld₂, hacts₂⟩ := hheld.setPage pg
        refine returns_bind_of_ok (get_apply m₁)
          (returns_bind_of_ok (?_ : _ = Except.ok ((), m₁.setPage f pg)) ?_)
        · rw [hpg]
          rfl
        have hnew : (m₁.setPage f pg).lookup new a = none := by
          rw [← hnone a hlow le_rfl]
          refine h.lookup_congr (fun b hb => ?_) a
          have hbf : b ≠ f := fun hc => hheld.notMem (hc ▸ hb)
          rw [phys_setPage_of_ne hbf, hphys b hbf]
        refine returns_bind (mappages_returns hheld₂.user.space f _ hal hva hnew) fun r m₃ hmap =>
          ?_
        rcases uvmcopy_page ho h hlow hlook hk (by rw [hpg]) hmap with
          ⟨rfl, own₃, hheld₃, hacts₃, -⟩ | ⟨rfl, own₃, h₃, hc⟩
        · rw [if_pos (by decide)]
          have hpool₃ := (hpool.acts hacts₃) f (Or.inl (Or.inr rfl))
          refine returns_bind (kfree_returns hpool₃) fun _ m₄ hkf => ?_
          obtain ⟨h₄, hacts₄, -⟩ := hheld₃.kfree hkf
          exact hunwind h₄ (hacts₃.trans hacts₄)
        · rw [if_neg (by decide)]
          exact hnext h₃ hc.acts hc.keep
      · rw [if_pos (by simpa using hv)]
        exact hskip

theorem uvmcopy_returns {sz : Nat} (ho : Apart m old tfo owno own₁) (h : UserSpace m new tf own₁)
    (hpool : Pool m own₁) (hsz : sz ≤ trapframeVa)
    (hnone : ∀ va, va < trapframeVa → m.lookup new va = none) : Returns (uvmcopy old new sz) m := by
  unfold uvmcopy
  refine uvmcopyLoop_returns _ rfl ?_ ho h hpool fun va hva _ => hnone va hva
  simp only [trapframeVa, trampolineVa, maxVa, pgSize] at *
  omega

/-! ## `allocproc` and `kfork` -/

/-- A slot that was taken and is free again. -/
theorem aborted_of_freed {p : Proc} (hun : (k.procs j).state = .unused)
    (hprocs : k'.procs = Function.update k.procs j (freedProc p))
    (hcwd : p.cwd = (k.procs j).cwd) (hofile : p.ofile = (k.procs j).ofile) : Aborted k k' := by
  intro l
  rw [hprocs]
  by_cases hl : l = j
  · subst hl
    rw [Function.update_self]
    exact Or.inr ⟨hun, rfl, hcwd, hofile, fun s => by simp [freedProc, cleanupSwapFile, clearSegs]⟩
  · rw [Function.update_of_ne hl]
    exact Or.inl rfl

/-- **`allocproc`** returns: it gives everything back, or has got a trap frame and a page table. -/
theorem allocproc_returns (h : SysInv k own) (hidle : IdleSegs k) :
    (∃ k', allocproc k = .ok (none, k') ∧ Undone k k') ∨
    ∃ j tf new m₁ k', allocproc k = .ok (some j, k') ∧ kalloc k.mem = .ok (some tf, m₁) ∧
      procPagetable tf m₁ = .ok (some new, k'.mem) ∧ (k'.procs j).pagetable = some new := by
  unfold allocproc
  rw [bind_of_ok (get_apply k)]
  cases hfind : (List.range nProc).find? fun i => (k.procs i).state == .unused with
  | none =>
    refine Or.inl ⟨k, rfl, Undone.of_acts (Mem.Acts.refl ?_) h.nodup (fun _ => Or.inl rfl) rfl rfl⟩
    exact ⟨h.nodup, fun _ _ => Set.notMem_empty _⟩
  | some j =>
    have hun : (k.procs j).state = .unused := by simpa using List.find?_some hfind
    obtain ⟨hown, hsz⟩ := h.idle hun
    obtain ⟨hpt, htf⟩ := (h.state j).unused hun
    have howned : k.mem.store.Owned ∅ := hown ▸ h.owned j
    have hpool : Pool k.mem ∅ := hown ▸ h.pool j
    -- giving up, with the frames in `o` taken
    have hfail : ∀ {m : Mem} {o : Set Frame} {p : Proc}, k.mem.Acts ∅ m o → ProcInv m p o →
        p.pagetable = none → p.lazySegs = (k.procs j).lazySegs → p.cwd = (k.procs j).cwd →
        p.ofile = (k.procs j).ofile →
        ∃ k', (do freeproc j; pure none : K (Option Nat)) { k with
          mem := m, nextpid := k.nextpid + 1, procs :=
            Function.update k.procs j p } = .ok (none, k') ∧
          Undone k k' := by
      intro m o p hacts hproc hnone hsegs hcwd hofile
      obtain ⟨m', hacts', hfree⟩ := freeproc_gives_back (j := j) (k := { k with
          mem := m, nextpid := k.nextpid + 1, procs := Function.update k.procs j p })
        (by simpa using hproc) (hpool.acts hacts) hacts.owned
        (fun s => by simpa [hsegs] using hidle j hun s) (lostPages_of_none (by simpa using hnone))
      refine ⟨_, bind_of_ok hfree, Undone.of_acts (hacts.trans hacts') h.nodup ?_ rfl rfl⟩
      exact aborted_of_freed hun (by simp) hcwd hofile
    dsimp only
    rw [bind_of_ok (modify_apply _ k), bind_of_ok (updProc_apply _ _ _)]
    obtain ⟨otf, m₁, hk⟩ := kalloc_returns k.mem
    have hphys : ∀ {α : Type} {x : VM α} {a : α} {m m' : Mem} {procs : Nat → Proc},
      x m = .ok (a, m') →
        onPhys x { k with mem := m, nextpid := k.nextpid + 1, procs := procs } =
          .ok (a, { k with mem := m', nextpid := k.nextpid + 1, procs := procs }) := fun hx =>
      onPhys_eq_ok.mpr ⟨_, hx, rfl⟩
    dsimp only
    rw [bind_of_ok (hphys hk)]
    rcases kalloc_spec hk howned with ⟨rfl, hacts, -⟩ | ⟨tf, rfl, hacts, htfree, -, -⟩
    · obtain ⟨k', hrun, hundone⟩ := hfail (p := { k.procs j with pid := k.nextpid, state := .used })
        hacts (.idle hpt htf hsz) hpt rfl rfl rfl
      exact Or.inl ⟨k', hrun, hundone⟩
    rw [show (insert tf ∅ : Set Frame) = {tf} by simp] at hacts
    have htfmem : tf ∉ m₁.freelist := fun hc => hacts.owned.disjoint tf hc rfl
    have htramp : m₁.tramp ≠ tf := by
      rw [hacts.tramp]
      exact fun hc => h.tramp_free (hc ▸ htfree)
    have htrfree : m₁.tramp ∉ m₁.freelist := fun hc => by
      rcases (hacts.mem_total m₁.tramp).mp (Or.inr hc) with hc | hc
      · exact hc
      · exact h.tramp_free (hacts.tramp ▸ hc)
    have hpool₁ : Pool m₁ ∅ := (hpool.acts hacts).mono (Set.empty_subset _)
    obtain ⟨oroot, m₂, hpp⟩ := procPagetable_returns hacts.owned.nodup htrfree htfmem htramp hpool₁
    dsimp only
    rw [bind_of_ok (updProc_apply _ _ _), bind_of_ok (hphys hpp)]
    simp only [Function.update_idem, Function.update_self]
    rcases procPagetable_spec hacts.owned.nodup htrfree htfmem htramp hpp with
      ⟨rfl, hacts'⟩ | ⟨root, o, rfl, -⟩
    · have hboth := hacts.trans ((hacts'.frame hacts.owned (by simp)) |> fun hc => by
        rwa [Set.empty_union] at hc)
      obtain ⟨k', hrun, hundone⟩ := hfail (p := { k.procs j with
        pid := k.nextpid, state := .used, trapframe :=
          some tf }) hboth (.frame hpt rfl hsz) hpt rfl rfl rfl
      exact Or.inl ⟨k', hrun, hundone⟩
    · refine Or.inr ⟨j, tf, root, m₁, _, rfl, hk, hpp, ?_⟩
      simp [initProc]

/-- **A fork that runs out of memory has no effect**: whatever `kalloc` refuses, `kfork` returns
`-1`, every slot that was not in use is not in use again, the free frames are the same ones, no
reference count has changed, and the parent has the memory and the paging metadata it had. -/
theorem kfork_undone (h : SmallReachable k) (hr : (k.procs i).state = .runnable)
    (hmem : forkMemory k i = false) :
    ∃ k', kfork i k = .ok (-1, k') ∧ Undone k k' ∧
      ∀ root, (k.procs i).pagetable = some root → SameView root (k.task i) (k'.task i) := by
  obtain ⟨⟨own, hinv⟩, hidle⟩ := idleSegs_reachable h
  have hview : ∀ {k'}, Undone k k' → ∀ root, (k.procs i).pagetable = some root →
      SameView root (k.task i) (k'.task i) := by
    intro k' hundone root hroot
    have hproc := hundone.procs i (by rw [hr]; decide)
    refine hinv.sameView (by rw [hproc]; exact hroot) (by rw [hproc]) fun a ha => ?_
    exact hundone.phys a (hinv.own_free i a ha)
  suffices hgoal : ∃ k', kfork i k = .ok (-1, k') ∧ Undone k k' by
    obtain ⟨k', hrun, hundone⟩ := hgoal
    exact ⟨k', hrun, hundone, hview hundone⟩
  rcases allocproc_returns hinv hidle with ⟨k', halloc, hundone⟩ | ⟨j, tf, new, m₁, k₁, halloc,
    hk, hpp, hnew⟩
  · refine ⟨k', ?_, hundone⟩
    unfold kfork
    rw [bind_of_ok halloc]
    rfl
  obtain ⟨root, tf₀, o, hroot, ho, htf, htask⟩ := hinv.runnable hr
  rcases allocproc_spec hinv halloc with
    ⟨hno, -⟩ | ⟨j', tf', root', o', hj, hun, hstep, htask', hacts₁, hempty, hk₁⟩
  · cases hno
  obtain rfl := Option.some.inj hj
  obtain rfl := Option.some.inj (hnew.symm.trans htask'.pagetable)
  have hij : i ≠ j := fun hc => absurd ((hc ▸ hr).symm.trans hun) (by decide)
  have hpi : k₁.procs i = k.procs i := by
    rw [hk₁]
    simp [hij]
  have hownj : Function.update own j (insert tf' o') j = insert tf' o' := Function.update_self ..
  have howni : Function.update own j (insert tf' o') i = insert tf₀ o := by
    rw [Function.update_of_ne hij, ho]
  obtain ⟨-, happart⟩ := hstep.inv.apart hij howni htf (by rw [hpi]; exact hroot)
    (by rw [hpi]; exact htask.trapframe) hownj
  have hpool : Pool k₁.mem (insert tf' o') := hownj ▸ hstep.inv.pool j
  obtain ⟨r, m₃, hcopy⟩ := uvmcopy_returns happart htask'.space
    (hpool.mono (Set.subset_insert _ _)) htask.size hempty
  -- there was no memory, so the copy failed
  rcases uvmcopy_spec happart htask'.space htask.size hempty hcopy with
    ⟨rfl, o₃, hspace, hacts₃, hnone⟩ | ⟨rfl, -⟩
  swap
  · simp [forkMemory, hk, hpp, hroot, show uvmcopy root new (k.procs i).sz k₁.mem =
      _ from hcopy] at hmem
  have htf' : tf' ∉ o' := fun hc => (htask'.space.own_ne _ hc).2 rfl
  have hacts : k₁.mem.Acts (insert tf' o') m₃ (insert tf' o₃) := by
    have hframed := hstep.inv.acts hownj htf' hacts₃
    rwa [hownj] at hframed
  have hpj : k₁.procs j = initProc { k.procs j with
      pid := k.nextpid, state := .used, trapframe := some tf', pagetable := some new } := by
    rw [hk₁]
    simp
  -- `freeproc` finds no user page and no segment
  have hproc : ProcInv m₃ (k₁.procs j) (insert tf' o₃) :=
    .live ⟨htask'.pagetable, htask'.trapframe, hspace, htask'.size, htask'.resident, htask'.swapped⟩
  have hlost : lostPages m₃ (k₁.procs j) = ∅ := by
    ext a
    simp only [lostPages, Set.mem_ofPred_eq, Set.mem_empty_iff_false, iff_false, not_exists]
    rintro root₂ ⟨hp, ha⟩
    obtain rfl := Option.some.inj (hp.symm.trans hnew)
    rw [userPages_empty hspace fun va hva _ => hnone va hva] at ha
    exact ha
  obtain ⟨m', hacts', hfree⟩ := freeproc_gives_back (k := { k₁ with mem := m₃ }) hproc
    (hpool.acts hacts) hacts.owned (fun s => by rw [hpj]; rfl) hlost
  have hall : k.mem.Acts ∅ m' ∅ := (hacts₁.trans hacts).trans hacts'
  refine ⟨{ k₁ with mem := m', procs := Function.update k₁.procs j (freedProc (k₁.procs j)) }, ?_,
    Undone.of_acts hall hinv.nodup ?_ ?_ ?_⟩
  · unfold kfork
    rw [bind_of_ok halloc]
    dsimp only
    rw [bind_of_ok (getProc_apply i k₁), bind_of_ok (getProc_apply j k₁), hpi, hnew, hroot]
    refine (bind_of_ok (onPhys_eq_ok.mpr ⟨m₃, hcopy, rfl⟩)).trans ?_
    rw [if_pos (by decide)]
    exact bind_of_ok hfree
  · refine aborted_of_freed (p := k₁.procs j) hun ?_ (by rw [hpj]; rfl) (by rw [hpj]; rfl)
    rw [hk₁]
    simp
  · rw [hk₁]
  · rw [hk₁]

/-- The other CPUs take the memory that the seventh `kalloc` of a fork would get: the page of the
stack has a frame then, but no page-table page. -/
def shortOfMemory : Kernel :=
  { afterExec with mem := { afterExec.mem with starved := List.replicate 6 false ++ [true] } }

theorem shortOfMemory_reachable : SmallReachable shortOfMemory := by
  refine afterExec_reachable.small.step (.others ⟨⟨_, rfl⟩, fun j => ?_, rfl⟩)
  exact ⟨(afterExec.procs j).ofile, (afterExec.procs j).cwd, rfl⟩

set_option maxRecDepth 100000 in
/-- A fork that has copied a page when it runs out of memory. -/
theorem kfork_undone_short : ∃ k', kfork 0 shortOfMemory = .ok (-1, k') ∧ Undone shortOfMemory k' ∧
    ∀ root, (shortOfMemory.procs 0).pagetable = some root →
      SameView root (shortOfMemory.task 0) (k'.task 0) := by
  have hstate : (shortOfMemory.procs 0).state = .runnable := by decide +kernel
  have hmem : forkMemory shortOfMemory 0 = false := by decide +kernel
  exact kfork_undone shortOfMemory_reachable hstate hmem

end Xv6
