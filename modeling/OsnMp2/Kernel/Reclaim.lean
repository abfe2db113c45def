import OsnMp2.Kernel.ExecInv
import OsnMp2.Kernel.Process

/-!
# Freeing the memory of a process

`freeproc` frees the trap frame before the page table that still maps it. Freeing only pushes frames
on the free list and never looks at it, so the order makes no difference: freeing the page table
does the same, whether the trap frame is on the free list already or not.

## Main definitions

* `FreeOnly`: a computation that pushes on the free list and does not look at it

## Main results

* `procFreepagetable_freeOnly`: freeing a page table is such a computation
* `freeProcMem_spec`: freeing the trap frame and the page table of a process
-/

namespace Xv6

variable {m m' : Mem} {root tf : Frame} {own own' : Set Frame} {α β : Type}

/-- A computation that pushes frames on the free list, the same ones whatever is on it. -/
def FreeOnly (x : VM α) : Prop := ∀ m a m', x m = .ok (a, m') →
  ∃ pushed, m'.freelist = pushed ++ m.freelist ∧ (m'.freelist.Nodup → m'.refreed = m.refreed) ∧
    ∀ fl re, ∃ re', x { m with freelist := fl, refreed := re } =
      .ok (a, { m' with freelist := pushed ++ fl, refreed := re' })

theorem FreeOnly.pure (a : α) : FreeOnly (Pure.pure a : VM α) := by
  intro m b m' h
  obtain ⟨rfl, rfl⟩ := Halting.pure_eq_ok.mp h
  exact ⟨[], rfl, fun _ => rfl, fun _ re => ⟨re, rfl⟩⟩

theorem FreeOnly.halt (e : Halt) : FreeOnly (Halting.halt e : VM α) := by
  intro m b m' h
  cases h

theorem FreeOnly.bind {x : VM α} {f : α → VM β} (hx : FreeOnly x) (hf : ∀ a, FreeOnly (f a)) :
    FreeOnly (x >>= f) := by
  intro m b m'' h
  obtain ⟨a, m', h₁, h₂⟩ := Halting.bind_eq_ok.mp h
  obtain ⟨l₁, hl₁, hre₁, hx₁⟩ := hx m a m' h₁
  obtain ⟨l₂, hl₂, hre₂, hx₂⟩ := hf a m' b m'' h₂
  refine ⟨l₂ ++ l₁, by rw [hl₂, hl₁, List.append_assoc], fun hnd => ?_, fun fl re => ?_⟩
  · rw [hre₂ hnd, hre₁ ((List.nodup_append.mp (hl₂ ▸ hnd)).2.1)]
  · obtain ⟨re₁, hrun₁⟩ := hx₁ fl re
    obtain ⟨re₂, hrun₂⟩ := hx₂ (l₁ ++ fl) re₁
    refine ⟨re₂, ?_⟩
    rw [Halting.bind_of_ok hrun₁, hrun₂, List.append_assoc]

theorem freeOnly_readPte (f : Frame) (i : Fin 512) : FreeOnly (readPte f i) := by
  intro m a m' h
  cases h
  exact ⟨[], rfl, fun _ => rfl, fun _ re => ⟨re, rfl⟩⟩

theorem freeOnly_writePte (f : Frame) (i : Fin 512) (e : Pte) : FreeOnly (writePte f i e) := by
  intro m a m' h
  cases h
  exact ⟨[], rfl, fun _ => rfl, fun _ re => ⟨re, rfl⟩⟩

theorem freeOnly_kfree (f : Frame) : FreeOnly (kfree f) := by
  intro m a m' h
  unfold kfree at h
  split at h
  · next halloc =>
    cases h
    refine ⟨[f], rfl, fun hnd => ?_, fun fl re => ⟨_, if_pos ?_⟩⟩
    · simp [(List.nodup_cons.mp hnd).1]
    · exact (show ({ m with freelist := fl, refreed := re } : Mem).Allocatable f from halloc)
  · cases h

theorem freeOnly_walk (pt : Frame) (va : Nat) : FreeOnly (walk pt va false) := by
  intro m a m' h
  have hva := lt_maxVa_of_walk h
  rw [walk_noalloc hva] at h
  cases h
  exact ⟨[], rfl, fun _ => rfl, fun fl re => ⟨re, walk_noalloc hva pt _⟩⟩

theorem freeOnly_uvmunmapLoop (pt : Frame) (doFree : Bool) :
    ∀ n a, FreeOnly (uvmunmapLoop pt doFree n a) := by
  intro n
  induction n with
  | zero => exact fun a => FreeOnly.pure ()
  | succ n ih =>
    intro a
    rw [uvmunmapLoop]
    refine (freeOnly_walk pt a).bind fun o => ?_
    cases o with
    | none => exact ih _
    | some fi =>
      refine (freeOnly_readPte _ _).bind fun e => ?_
      split
      · exact ih _
      · cases doFree with
        | true => exact (freeOnly_kfree _).bind fun _ =>
          (freeOnly_writePte _ _ _).bind fun _ => ih _
        | false => exact (freeOnly_writePte _ _ _).bind fun _ => ih _

theorem freeOnly_uvmunmap (pt : Frame) (va n : Nat) (doFree : Bool) :
    FreeOnly (uvmunmap pt va n doFree) := by
  unfold uvmunmap
  split
  · exact FreeOnly.halt _
  · exact freeOnly_uvmunmapLoop pt doFree n va

theorem freeOnly_freewalkLoop {freeChild : Frame → VM Unit} (hc : ∀ f, FreeOnly (freeChild f))
    (pt : Frame) : ∀ is, FreeOnly (freewalkLoop freeChild pt is) := by
  intro is
  induction is with
  | nil => exact FreeOnly.pure ()
  | cons i rest ih =>
    rw [freewalkLoop]
    refine (freeOnly_readPte _ _).bind fun e => ?_
    split
    · exact (hc _).bind fun _ => (freeOnly_writePte _ _ _).bind fun _ => ih
    · exact ih

theorem freeOnly_freewalk : ∀ depth pt, FreeOnly (freewalk depth pt) := by
  intro depth
  induction depth with
  | zero => exact fun pt => FreeOnly.halt _
  | succ depth ih =>
    intro pt
    rw [freewalk]
    exact (freeOnly_freewalkLoop ih pt _).bind fun _ => freeOnly_kfree pt

theorem procFreepagetable_freeOnly (pt : Frame) (sz : Nat) :
    FreeOnly (procFreepagetable pt sz) := by
  unfold procFreepagetable uvmfree
  refine (freeOnly_uvmunmap _ _ _ _).bind fun _ => (freeOnly_uvmunmap _ _ _ _).bind fun _ => ?_
  split
  · exact (freeOnly_uvmunmap _ _ _ _).bind fun _ => freeOnly_freewalk 3 pt
  · exact freeOnly_freewalk 3 pt

/-- **Freeing the trap frame, then the page table**: everything is freed but the user pages above
the size. -/
theorem freeProcMem_spec (h : UserSpace m root tf own) {sz : Nat} (hsz : sz ≤ trapframeVa)
    {m₁ : Mem} (hk : kfree tf m = .ok ((), m₁))
    (hrun : procFreepagetable root sz m₁ = .ok ((), m')) :
    m.Acts (insert tf own) m' (userPages m root (pgRoundUp sz / pgSize)) := by
  obtain ⟨rfl, -⟩ := kfree_cases hk
  have htfown : tf ∉ own := fun hc => (h.own_ne tf hc).2 rfl
  have htffree : tf ∉ m.freelist := fun hc => (h.not_free hc).2.1 rfl
  -- the memory with the trap frame written, and not yet on the free list
  obtain ⟨m₂, hm₂⟩ : ∃ m₂, m₂ = m.setPage tf (PhysPage.fill 1) := ⟨_, rfl⟩
  have hphys₂ : ∀ a, a ≠ tf → m₂.phys a = m.phys a := fun a ha => by
    rw [hm₂, phys_setPage_of_ne ha]
  have hown₂ : ∀ a ∈ own, (m₂.phys a).pte = (m.phys a).pte := fun a ha => by
    rw [hphys₂ a fun hc => htfown (hc ▸ ha)]
  have h₂ : UserSpace m₂ root tf own := by
    refine h.congr hown₂ ?_ (by rw [hm₂]; rfl) fun a ha => ?_
    · rw [hm₂]
      exact ⟨h.space.owned.nodup, h.space.owned.disjoint⟩
    · rw [hm₂] at ha
      exact ⟨(h.not_free ha).1, (h.not_free ha).2.1⟩
  obtain ⟨pushed, hpushed, hre, hany⟩ := procFreepagetable_freeOnly root sz _ _ _ hrun
  obtain ⟨re, hrun₂⟩ : ∃ re, procFreepagetable root sz m₂ =
      .ok ((), { m' with freelist := pushed ++ m.freelist, refreed := re }) := by
    rw [hm₂]
    exact hany m.freelist m.refreed
  have hacts := procFreepagetable_spec h₂ hsz hrun₂
  have hpages : userPages m₂ root (pgRoundUp sz / pgSize) = userPages m root (pgRoundUp
    sz / pgSize) := by
    simp only [userPages, h.lookup_congr hown₂]
  rw [hpages] at hacts
  have hfl₂ : m₂.freelist = m.freelist := by rw [hm₂]; rfl
  have htf : tf ∉ userPages m root (pgRoundUp sz / pgSize) ∧ tf ∉ pushed ++ m.freelist := by
    rw [← not_or]
    intro hc
    rcases (hacts.mem_total tf).mp hc with hc | hc
    · exact htfown hc
    · exact htffree (hfl₂ ▸ hc)
  have hfl : m'.freelist = pushed ++ (tf :: m.freelist) := hpushed
  have hmem : ∀ a, a ∈ m'.freelist ↔ a = tf ∨ a ∈ pushed ++ m.freelist := fun a => by
    rw [hfl]
    simp only [List.mem_append, List.mem_cons]
    tauto
  have hnd : m'.freelist.Nodup := by
    rw [hfl]
    exact (List.nodup_middle).mpr (List.nodup_cons.mpr ⟨htf.2, hacts.owned.nodup⟩)
  refine ⟨⟨⟨hnd, fun a ha => ?_⟩, fun a => ?_, fun a hown hfree => ?_⟩, ?_, ?_, ?_⟩
  · rcases (hmem a).mp ha with rfl | hc
    · exact htf.1
    · exact hacts.owned.disjoint a hc
  · rw [store_free, hmem, Set.mem_insert_iff]
    have htot := hacts.mem_total a
    rw [hfl₂] at htot
    change _ ∨ a ∈ pushed ++ m.freelist ↔ _ at htot
    rw [store_free]
    tauto
  · rw [Set.mem_insert_iff, not_or] at hown
    rw [store_heap, store_heap, ← hphys₂ a hown.1]
    exact hacts.phys (a := a) hown.2 (by rw [hfl₂]; exact hfree)
  · rw [show m'.tramp = m₂.tramp from hacts.tramp, hm₂]
    rfl
  · rw [hre hnd]
    simp [htffree]
  · rw [show m'.kend = m₂.kend from hacts.kend, hm₂]
    rfl

end Xv6
