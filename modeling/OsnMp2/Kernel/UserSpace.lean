import OsnMp2.Kernel.SpaceOps
import OsnMp2.Kernel.Exec

/-!
# User address spaces

A user address space is an address space with the trampoline and the trap frame at the two highest
pages, and user pages everywhere else. Its whole life is here: `proc_pagetable` creates it,
`uvmcopy` fills it from another one, `uvmdealloc` shrinks it and `proc_freepagetable` frees it.

## Main definitions

* `UserSpace`: an address space with trampoline and trap frame
* `userPages`: the frames of the user pages from a page on

## Main results

* `procPagetable_spec`: a new user address space without user pages
* `procFreepagetable_spec`: what is freed, and the user pages that are lost
* `uvmcopy_spec`: the copy has the same pages with the same bytes
-/

namespace Xv6

variable {m m' : Mem} {root tf : Frame} {own own' : Set Frame}

/-- The frames that every page table of a process maps and none owns. -/
def sharedFrames (m : Mem) (tf : Frame) : Set Frame := {m.tramp, tf}

/-- **A user address space** for the trap frame `tf`. -/
structure UserSpace (m : Mem) (root tf : Frame) (own : Set Frame) : Prop where
  space : Space m root (sharedFrames m tf) own
  trampoline : m.lookup root trampolineVa = some ⟨true, { r := true, x := true }, m.tramp⟩
  trapframe : m.lookup root trapframeVa = some ⟨true, { r := true, w := true }, tf⟩

/-- Two mapped addresses with the same frame are on the same page. -/
theorem Space.page_eq {shared : Set Frame} (h : Space m root shared own) {va va' : Nat} {e e' : Pte}
    (hva : va < maxVa) (hva' : va' < maxVa) (he : m.lookup root va = some e)
    (he' : m.lookup root va' = some e') (hf : e.ppn = e'.ppn) : va / pgSize = va' / pgSize := by
  rw [lookup_eq_leaf] at he he'
  have hpath := h.sep (vpath va ++ [px 0 va]) (vpath va' ++ [px 0 va']) e'.ppn (by simp) (by simp)
    (hf ▸ node_of_leaf he) (node_of_leaf he')
  have hsplit := List.append_inj hpath rfl
  exact page_eq_of_vpath hva hva' hsplit.1 (List.cons.inj hsplit.2).1

/-- Below the trap frame every mapped page is a user page. -/
theorem UserSpace.user (h : UserSpace m root tf own) {va : Nat} {e : Pte} (hva : va < trapframeVa)
    (he : m.lookup root va = some e) : e.perm.u = true := by
  have hlow : va < maxVa := by simp only [trapframeVa, trampolineVa, maxVa, pgSize] at *; omega
  refine (h.space.user _ _ e rfl ((lookup_eq_leaf m root va).symm.trans he)).mpr ?_
  rintro (hc | hc)
  · have hpage := h.space.page_eq hlow (by decide) he h.trampoline hc
    simp only [trapframeVa, trampolineVa, maxVa, pgSize] at *
    omega
  · have hpage := h.space.page_eq hlow (by decide) he h.trapframe hc
    simp only [trapframeVa, trampolineVa, maxVa, pgSize] at *
    omega

/-- The trap frame and the trampoline are not user pages. -/
theorem UserSpace.low_of_user (h : UserSpace m root tf own) {va : Nat} {e : Pte} (hva : va < maxVa)
    (he : m.lookup root va = some e) (hu : e.perm.u = true) : va < trapframeVa := by
  by_contra hge
  have hpage : va / pgSize = trampolineVa / pgSize ∨ va / pgSize = trapframeVa / pgSize := by
    simp only [trapframeVa, trampolineVa, maxVa, pgSize] at *
    omega
  rw [← lookup_pgRoundDown] at he
  rcases hpage with hp | hp
  · rw [pgRoundDown, hp, ← pgRoundDown, lookup_pgRoundDown, h.trampoline] at he
    cases he
    cases hu
  · rw [pgRoundDown, hp, ← pgRoundDown, lookup_pgRoundDown, h.trapframe] at he
    cases he
    cases hu

theorem UserSpace.lookup_congr (h : UserSpace m root tf own)
    (hphys : ∀ a ∈ own, (m'.phys a).pte = (m.phys a).pte) (va : Nat) :
    m'.lookup root va = m.lookup root va := by
  rw [lookup_eq_leaf, lookup_eq_leaf]
  refine leaf_congr_tables (fun p a hp ha => ?_) rfl _
  funext i
  rw [Mem.tbl, Mem.tbl, hphys a (h.space.table_own hp ha)]

theorem UserSpace.congr (h : UserSpace m root tf own)
    (hphys : ∀ a ∈ own, (m'.phys a).pte = (m.phys a).pte)
    (ho : m'.store.Owned own) (htr : m'.tramp = m.tramp)
    (hfree : ∀ a ∈ m'.freelist, a ≠ m.tramp ∧ a ≠ tf) :
    UserSpace m' root tf own := by
  have htbl : ∀ p a, p.length ≤ 2 → m.node root p = some a → m'.tbl a = m.tbl a :=
    fun p a hp ha => by
    funext i
    rw [Mem.tbl, Mem.tbl, hphys a (h.space.table_own hp ha)]
  have hsh : sharedFrames m' tf = sharedFrames m tf := by rw [sharedFrames, sharedFrames, htr]
  refine ⟨?_, by rw [h.lookup_congr hphys, h.trampoline, htr],
    by rw [h.lookup_congr hphys, h.trapframe]⟩
  rw [hsh]
  refine h.space.congr htbl ho fun a ha => ?_
  rintro (hc | hc)
  · exact (hfree a ha).1 hc
  · exact (hfree a ha).2 hc

theorem UserSpace.not_free (h : UserSpace m root tf own) {a : Frame} (ha : a ∈ m.freelist) :
    a ≠ m.tramp ∧ a ≠ tf ∧ a ∉ own := by
  have hsh := h.space.shared_free a ha
  simp only [sharedFrames, Set.mem_insert_iff, Set.mem_singleton_iff, not_or] at hsh
  exact ⟨hsh.1, hsh.2, h.space.owned.disjoint a ha⟩

/-- **A user address space that is not the one acted on**: its frames, the trampoline and its trap
frame are not among `o`. -/
structure Apart (m : Mem) (root tf : Frame) (own o : Set Frame) : Prop where
  user : UserSpace m root tf own
  disjoint : ∀ a ∈ own, a ∉ o
  tramp : m.tramp ∉ o
  trapframe : tf ∉ o

section Apart

variable {o o' : Set Frame}

/-- The frames of another address space keep their contents. -/
theorem Apart.phys (h : Apart m root tf own o) (ha : m.Acts o m' o') :
    ∀ a ∈ own, m'.phys a = m.phys a := fun a hown =>
  ha.phys (h.disjoint a hown) fun hf => h.user.space.owned.disjoint a hf hown

/-- **Actions of others** do not change a user address space. -/
theorem Apart.acts (h : Apart m root tf own o) (ha : m.Acts o m' o') : Apart m' root tf own o' := by
  have hnot : ∀ a, a ∉ o → a ∉ m.freelist → a ∉ o' ∧ a ∉ m'.freelist := fun a ho hf => by
    rw [← not_or, ha.mem_total, not_or]
    exact ⟨ho, hf⟩
  have htr := hnot m.tramp h.tramp fun hf => (h.user.not_free hf).1 rfl
  have htf := hnot tf h.trapframe fun hf => (h.user.not_free hf).2.1 rfl
  have hown : ∀ a ∈ own, a ∉ o' ∧ a ∉ m'.freelist := fun a hown =>
    hnot a (h.disjoint a hown) fun hf => (h.user.not_free hf).2.2 hown
  refine ⟨?_, fun a hc => (hown a hc).1, ha.tramp ▸ htr.1, htf.1⟩
  refine h.user.congr (fun a hc => by rw [h.phys ha a hc])
    ⟨ha.owned.nodup, fun a hf hc => (hown a hc).2 hf⟩ ha.tramp fun a hf => ⟨?_, ?_⟩
  · rintro rfl
    exact htr.2 hf
  · rintro rfl
    exact htf.2 hf

theorem Apart.lookup (h : Apart m root tf own o) (ha : m.Acts o m' o') (va : Nat) :
    m'.lookup root va = m.lookup root va :=
  h.user.lookup_congr (fun a hown => by rw [h.phys ha a hown]) va

end Apart

/-- The frames of the user pages from page number `n` on. -/
def userPages (m : Mem) (root : Frame) (n : Nat) : Set Frame :=
  {a | ∃ va e, va < maxVa ∧ n ≤ va / pgSize ∧ m.lookup root va = some e ∧ e.perm.u = true ∧
    e.ppn = a}

/-! ## Shrinking -/

/-- Removing pages below the trap frame leaves a user address space. -/
theorem UserSpace.unmapped (h : UserSpace m root tf own) {P : Nat → Prop}
    (hsp : Space m' root (sharedFrames m tf) own') (hun : Unmapped m root own P m' own')
    (hP : ∀ n, P n → n < trapframeVa / pgSize) : UserSpace m' root tf own' := by
  have hsh : sharedFrames m' tf = sharedFrames m tf := by
    rw [sharedFrames, sharedFrames, hun.acts.tramp]
  refine ⟨hsh ▸ hsp, ?_, ?_⟩
  · rw [hun.lookup _ (by decide), h.trampoline, hun.acts.tramp]
    intro hc
    exact absurd (hP _ hc) (by decide)
  · rw [hun.lookup _ (by decide), h.trapframe]
    intro hc
    exact absurd (hP _ hc) (by decide)

theorem pgRoundUp_of_le {sz : Nat} (h : sz ≤ trapframeVa) :
    pgRoundUp sz = (sz + 4095) / 4096 * 4096 ∧ pgRoundUp sz ≤ trapframeVa := by
  unfold pgRoundUp u64
  simp only [trapframeVa, trampolineVa, maxVa, pgSize] at *
  rw [Nat.mod_eq_of_lt (by omega)]
  omega

/-- **`uvmunmap` of user pages.** -/
theorem UserSpace.uvmunmap (h : UserSpace m root tf own) {va n : Nat}
    (hn : va / pgSize + n ≤ trapframeVa / pgSize)
    (hrun : uvmunmap root va n true m = .ok ((), m')) : ∃ own', UserSpace m' root tf own' ∧
      Unmapped m root own (fun q => va / pgSize ≤ q ∧ q < va / pgSize + n) m' own' := by
  obtain ⟨own', hsp, hun⟩ := uvmunmap_spec h.space (fun va' e hva' _ h2 he => by
    refine h.user ?_ he
    simp only [trapframeVa, trampolineVa, maxVa, pgSize] at *
    omega) hrun
  exact ⟨own', h.unmapped hsp hun fun q hq => by omega, hun⟩

/-- **`uvmdealloc`**: the pages between the two sizes are gone. -/
theorem UserSpace.uvmdealloc (h : UserSpace m root tf own) {oldsz newsz r : Nat}
    (hsz : oldsz ≤ trapframeVa) (hrun : uvmdealloc root oldsz newsz m = .ok (r, m')) :
    (oldsz ≤ newsz ∧ r = oldsz ∧ m' = m) ∨
    (newsz < oldsz ∧ r = newsz ∧ ∃ own', UserSpace m' root tf own' ∧
      Unmapped m root own (fun q => pgRoundUp newsz / pgSize ≤ q ∧ q < pgRoundUp oldsz / pgSize)
        m' own') := by
  unfold Xv6.uvmdealloc at hrun
  split at hrun
  · next hle =>
    cases hrun
    exact Or.inl ⟨hle, rfl, rfl⟩
  · next hle =>
    refine Or.inr ⟨by omega, ?_⟩
    obtain ⟨hold, hold'⟩ := pgRoundUp_of_le hsz
    obtain ⟨hnew, hnew'⟩ := pgRoundUp_of_le (show newsz ≤ trapframeVa by omega)
    split at hrun
    · next hlt =>
      obtain ⟨_, m₁, hun, hrun⟩ := Halting.bind_eq_ok.mp hrun
      cases hrun
      obtain ⟨own', husp, hunm⟩ := h.uvmunmap (by
        simp only [trapframeVa, trampolineVa, maxVa, pgSize] at *; omega) hun
      refine ⟨rfl, own', husp, hunm.congr fun q _ => ?_⟩
      simp only [pgSize] at *
      omega
    · next hlt =>
      cases hrun
      refine ⟨rfl, own, h, Mem.Acts.refl h.space.owned, subset_refl _, fun _ _ _ => rfl,
        fun va _ hc => ?_, fun _ _ => rfl, fun _ ha => ha, fun _ _ _ ha => ha⟩
      simp only [pgSize] at *
      omega

/-! ## Freeing -/

/-- Unmapping the trampoline or the trap frame frees nothing. -/
theorem Space.unmapShared {shared : Set Frame} (h : Space m root shared own) {va : Nat} {f : Frame}
    {perm : Perm} (he : m.lookup root va = some ⟨true, perm, f⟩) (hf : f ∈ shared)
    (hrun : uvmunmap root va 1 false m = .ok ((), m')) :
    ∃ own', Space m' root shared own' ∧ Unmapped m root own (· = va / pgSize) m' own' := by
  obtain ⟨own', hsp, hun⟩ := uvmunmap_spec h (fun va' e hva' h1 h2 he' => by
    have hpage : va' / pgSize = va / pgSize := by omega
    rw [← lookup_pgRoundDown, pgRoundDown, hpage, ← pgRoundDown, lookup_pgRoundDown, he] at he'
    cases he'
    exact hf) hrun
  exact ⟨own', hsp, hun.congr fun q _ => by omega⟩

/-- Removing pages and then the page-table pages loses the user pages that were left. -/
theorem Space.freewalk_unmapped {shared : Set Frame} {P : Nat → Prop}
    (h : Space m' root shared own') (hun : Unmapped m root own P m' own') {m'' : Mem}
    (hrun : Xv6.freewalk 3 root m' = .ok ((), m'')) :
    m.Acts own m'' {a | ∃ va e, va < maxVa ∧ ¬ P (va / pgSize) ∧ m.lookup root va = some e ∧
      e.perm.u = true ∧ e.ppn = a} := by
  have hset : own' \ tablesOf m' root = {a | ∃ va e, va < maxVa ∧ ¬ P (va / pgSize) ∧
      m.lookup root va = some e ∧ e.perm.u = true ∧ e.ppn = a} := by
    ext a
    rw [h.lost_iff]
    refine exists_congr fun va => exists_congr fun e => and_congr_right fun hva => ?_
    by_cases hP : P (va / pgSize)
    · simp [hun.gone va hva hP, hP]
    · simp [hun.lookup va hva hP, hP]
  rw [← hset]
  exact hun.acts.trans (h.freewalk hrun)

/-- **`proc_freepagetable`** frees the page-table pages and the user pages below the size; the user
pages above it are lost. -/
theorem procFreepagetable_spec (h : UserSpace m root tf own) {sz : Nat} (hsz : sz ≤ trapframeVa)
    (hrun : procFreepagetable root sz m = .ok ((), m')) :
    m.Acts own m' (userPages m root (pgRoundUp sz / pgSize)) := by
  unfold procFreepagetable at hrun
  obtain ⟨_, m₁, h₁, hrun⟩ := Halting.bind_eq_ok.mp hrun
  obtain ⟨_, m₂, h₂, hrun⟩ := Halting.bind_eq_ok.mp hrun
  obtain ⟨own₁, hsp₁, hun₁⟩ := h.space.unmapShared h.trampoline (Set.mem_insert _ _) h₁
  have htf : m₁.lookup root trapframeVa = some ⟨true, { r := true, w := true }, tf⟩ := by
    rw [hun₁.lookup _ (by decide) (by decide), h.trapframe]
  obtain ⟨own₂, hsp₂, hun₂⟩ := hsp₁.unmapShared htf
    (Set.mem_insert_of_mem _ (Set.mem_singleton tf)) h₂
  have hun₁₂ := hun₁.trans hun₂
  obtain ⟨hround, hround'⟩ := pgRoundUp_of_le hsz
  unfold uvmfree at hrun
  -- the pages that are left are the user pages above the size
  have hset : ∀ {P : Nat → Prop} {m₃ : Mem} {own₃ : Set Frame},
      (∀ q, q < trapframeVa / pgSize → (P q ↔ q < pgRoundUp sz / pgSize)) →
      (∀ q, trapframeVa / pgSize ≤ q → q < maxVa / pgSize → P q) →
      Space m₃ root (sharedFrames m tf) own₃ → Unmapped m root own P m₃ own₃ →
      Xv6.freewalk 3 root m₃ = .ok ((), m') →
      m.Acts own m' (userPages m root (pgRoundUp sz / pgSize)) := by
    intro P m₃ own₃ hlow hhigh hsp₃ hun₃ hfw
    have hacts := hsp₃.freewalk_unmapped hun₃ hfw
    have hpages : {a | ∃ va e, va < maxVa ∧ ¬ P (va / pgSize) ∧ m.lookup root va = some e ∧
        e.perm.u = true ∧ e.ppn = a} = userPages m root (pgRoundUp sz / pgSize) := by
      ext a
      refine exists_congr fun va => exists_congr fun e => and_congr_right fun hva => ?_
      by_cases hv : va / pgSize < trapframeVa / pgSize
      · rw [hlow _ hv, not_lt]
      · have hPv := hhigh _ (by omega) (page_lt hva)
        constructor
        · rintro ⟨hc, -⟩
          exact absurd hPv hc
        · rintro ⟨-, he, hu, -⟩
          have := h.low_of_user hva he hu
          simp only [trapframeVa, trampolineVa, maxVa, pgSize] at *
          omega
    rwa [hpages] at hacts
  by_cases hpos : 0 < sz
  · rw [if_pos hpos] at hrun
    obtain ⟨_, m₃, h₃, hfw⟩ := Halting.bind_eq_ok.mp hrun
    obtain ⟨own₃, hsp₃, hun₃⟩ := uvmunmap_spec hsp₂ (fun va e hva _ h2 he => by
      have hva' : va < trapframeVa := by
        simp only [trapframeVa, trampolineVa, maxVa, pgSize] at *
        omega
      have hnot : ¬ (va / pgSize = trampolineVa / pgSize ∨ va / pgSize = trapframeVa / pgSize) := by
        simp only [trapframeVa, trampolineVa, maxVa, pgSize] at *
        omega
      exact h.user hva' ((hun₁₂.lookup va hva hnot).symm.trans he)) h₃
    refine hset ?_ ?_ hsp₃ (hun₁₂.trans hun₃) hfw
    · intro q hq
      simp only [trapframeVa, trampolineVa, maxVa, pgSize] at *
      omega
    · intro q hq hq'
      simp only [trapframeVa, trampolineVa, maxVa, pgSize] at *
      omega
  · rw [if_neg hpos] at hrun
    refine hset ?_ ?_ hsp₂ hun₁₂ hrun
    · intro q hq
      simp only [trapframeVa, trampolineVa, maxVa, pgSize] at *
      omega
    · intro q hq hq'
      simp only [trapframeVa, trampolineVa, maxVa, pgSize] at *
      omega

/-! ## Creating -/

/-- Freeing the page-table pages of an address space without user pages frees all of it. -/
theorem Space.freeEmpty {shared : Set Frame} (h : Space m root shared own)
    (hno : ∀ va e, va < maxVa → m.lookup root va = some e → e.perm.u = false)
    (hrun : uvmfree root 0 m = .ok ((), m')) : m.Acts own m' ∅ := by
  unfold uvmfree at hrun
  rw [if_neg (by decide)] at hrun
  have hacts := h.freewalk hrun
  have hempty : own \ tablesOf m root = ∅ := by
    ext a
    rw [h.lost_iff]
    simp only [Set.mem_empty_iff_false, iff_false, not_exists]
    rintro va e ⟨hva, he, hu, -⟩
    rw [hno va e hva he] at hu
    cases hu
  rwa [hempty] at hacts

/-- A shared frame that is not mapped is not in the tree. -/
theorem Space.not_node_of_shared {shared : Set Frame} (h : Space m root shared own) {f : Frame}
    (hf : f ∈ shared) (hno : ∀ va e, va < maxVa → m.lookup root va = some e → e.ppn ≠ f) :
    ∀ p, p.length ≤ 3 → m.node root p ≠ some f := by
  intro p hp hc
  by_cases hlen : p.length ≤ 2
  · exact h.table p f hlen hc hf
  · obtain ⟨q, i, rfl⟩ : ∃ q i, p = q ++ [i] := by
      rcases List.eq_nil_or_concat p with rfl | ⟨q, i, rfl⟩
      · simp at hlen
      · exact ⟨q, i, List.concat_eq_append⟩
    have hq : q.length = 2 := by
      simp only [List.length_append, List.length_singleton] at hp hlen
      omega
    obtain ⟨e, he, hef⟩ := leaf_of_node hc
    obtain ⟨va, hva, rfl, rfl⟩ := h.low q i e hq he
    exact hno va e hva ((lookup_eq_leaf m root va).trans he) hef

/-- **`proc_pagetable`** gives a user address space without user pages. -/
theorem procPagetable_spec {r : Option Frame} (hnd : m.freelist.Nodup) (htr : m.tramp ∉ m.freelist)
    (htf : tf ∉ m.freelist) (hne : m.tramp ≠ tf) (hrun : procPagetable tf m = .ok (r, m')) :
    (r = none ∧ m.Acts ∅ m' ∅) ∨
    ∃ root own, r = some root ∧ UserSpace m' root tf own ∧ m.Acts ∅ m' own ∧ root ∈ m.freelist ∧
      ∀ va, va < trapframeVa → m'.lookup root va = none := by
  obtain ⟨shared, hshdef⟩ : ∃ shared, shared = sharedFrames m tf := ⟨_, rfl⟩
  have htrsh : m.tramp ∈ shared := hshdef ▸ Set.mem_insert _ _
  have htfsh : tf ∈ shared := hshdef ▸ Set.mem_insert_of_mem _ (Set.mem_singleton tf)
  have hsh : ∀ a ∈ m.freelist, a ∉ shared := by
    rintro a ha hc
    rw [hshdef] at hc
    rcases hc with hc | hc
    · exact htr (hc ▸ ha)
    · exact htf (hc ▸ ha)
  unfold procPagetable at hrun
  obtain ⟨o, m₁, hc, hrun⟩ := Halting.bind_eq_ok.mp hrun
  rcases uvmcreate_spec ⟨hnd, fun _ _ => Set.notMem_empty _⟩ hsh hc with
    ⟨rfl, hacts⟩ | ⟨root, rfl, hsp₁, hacts₁, hnone₁, hroot⟩
  · cases hrun
    exact Or.inl ⟨rfl, hacts⟩
  dsimp only at hrun
  rw [Halting.bind_of_ok (Halting.get_apply _)] at hrun
  obtain ⟨r₂, m₂, hmap₂, hrun⟩ := Halting.bind_eq_ok.mp hrun
  have htr₁ : m₁.tramp ∈ shared := hacts₁.tramp ▸ htrsh
  rcases mappages_page_spec hsp₁ (hsp₁.not_node_of_shared htr₁ fun va e _ he => by
      rw [hnone₁ va] at he; cases he) (fun hc => hsp₁.shared_free _ hc htr₁) rfl
      (iff_of_false (by decide) (not_not.mpr htr₁)) hmap₂ with
    ⟨rfl, own₂, hsp₂, hg₂, -⟩ | ⟨rfl, own₂, hsp₂, hat₂⟩
  · -- no page-table page for the trampoline
    rw [if_pos (by decide)] at hrun
    obtain ⟨_, m₃, hfree, hrun⟩ := Halting.bind_eq_ok.mp hrun
    cases hrun
    have hacts := hsp₂.freeEmpty (fun va e _ he => by
      rw [hg₂.lookup, hnone₁ va] at he; cases he) hfree
    exact Or.inl ⟨rfl, hacts₁.trans (hg₂.acts.trans hacts)⟩
  rw [added_of_mem htr₁, Set.union_empty] at hat₂
  rw [if_neg (by decide)] at hrun
  obtain ⟨r₃, m₃, hmap₃, hrun⟩ := Halting.bind_eq_ok.mp hrun
  have hlook₂ : ∀ va e, va < maxVa → m₂.lookup root va = some e →
      va / pgSize = trampolineVa / pgSize ∧ e = ⟨true, { r := true, x := true }, m₁.tramp⟩ := by
    intro va e hva he
    rw [hat₂.lookup va hva] at he
    split at he
    · next hp => exact ⟨hp, (Option.some.inj he).symm⟩
    · rw [hnone₁ va] at he
      cases he
  rcases mappages_page_spec hsp₂ (hsp₂.not_node_of_shared htfsh fun va e hva he hc => by
      rw [(hlook₂ va e hva he).2] at hc
      exact hne (hacts₁.tramp ▸ hc)) (fun hc => hsp₂.shared_free _ hc htfsh) rfl
      (iff_of_false (by decide) (not_not.mpr htfsh)) hmap₃ with
    ⟨rfl, own₃, hsp₃, hg₃, -⟩ | ⟨rfl, own₃, hsp₃, hat₃⟩
  · -- no page-table page for the trap frame
    rw [if_pos (by decide)] at hrun
    obtain ⟨_, m₄, hunmap, hrun⟩ := Halting.bind_eq_ok.mp hrun
    obtain ⟨_, m₅, hfree, hrun⟩ := Halting.bind_eq_ok.mp hrun
    cases hrun
    have htrl : m₃.lookup root trampolineVa = some ⟨true, { r := true, x := true }, m₁.tramp⟩ := by
      rw [hg₃.lookup, hat₂.lookup _ (by decide), if_pos rfl]
    obtain ⟨own₄, hsp₄, hun₄⟩ := hsp₃.unmapShared htrl htr₁ hunmap
    have hacts := hsp₄.freeEmpty (fun va e hva he => by
      by_cases hp : va / pgSize = trampolineVa / pgSize
      · rw [hun₄.gone va hva hp] at he
        cases he
      · rw [hun₄.lookup va hva hp, hg₃.lookup] at he
        exact absurd (hlook₂ va e hva he).1 hp) hfree
    exact Or.inl ⟨rfl, hacts₁.trans (hat₂.acts.trans (hg₃.acts.trans (hun₄.acts.trans hacts)))⟩
  rw [added_of_mem htfsh, Set.union_empty] at hat₃
  rw [if_neg (by decide)] at hrun
  cases hrun
  have hacts := hacts₁.trans (hat₂.acts.trans hat₃.acts)
  have hsh' : sharedFrames m' tf = shared := by rw [hshdef, sharedFrames, sharedFrames, hacts.tramp]
  have htramp : m₁.tramp = m'.tramp := by rw [hacts.tramp, hacts₁.tramp]
  refine Or.inr ⟨root, own₃, rfl, ⟨hsh' ▸ hsp₃, ?_, ?_⟩, hacts, hroot, ?_⟩
  · rw [hat₃.lookup _ (by decide), if_neg (by decide), hat₂.lookup _ (by decide),
      if_pos rfl, htramp]
  · rw [hat₃.lookup _ (by decide), if_pos rfl]
  · intro va hva
    have hva' : va < maxVa := by simp only [trapframeVa, trampolineVa, maxVa, pgSize] at *; omega
    have h1 : va / pgSize ≠ trapframeVa / pgSize := by
      simp only [trapframeVa, trampolineVa, maxVa, pgSize] at *; omega
    have h2 : va / pgSize ≠ trampolineVa / pgSize := by
      simp only [trapframeVa, trampolineVa, maxVa, pgSize] at *; omega
    rw [hat₃.lookup va hva', if_neg h1, hat₂.lookup va hva', if_neg h2, hnone₁]

/-! ## Frames that are held and not mapped -/

/-- A memory that differs from `m` in frames outside the address space only. -/
theorem UserSpace.of_held (h : UserSpace m root tf own) {o o' : Set Frame} (hacts : m.Acts o m' o')
    (ho : own ⊆ o') (hshared : ∀ a ∈ o, a ≠ m.tramp ∧ a ≠ tf)
    (hphys : ∀ a ∈ own, (m'.phys a).pte = (m.phys a).pte) : UserSpace m' root tf own := by
  refine h.congr hphys (hacts.owned.mono ho) hacts.tramp fun a ha => ?_
  rcases (hacts.mem_total a).mp (Or.inr ha) with hc | hc
  · exact hshared a hc
  · exact ⟨(h.not_free hc).1, (h.not_free hc).2.1⟩

theorem UserSpace.own_ne (h : UserSpace m root tf own) : ∀ a ∈ own, a ≠ m.tramp ∧ a ≠ tf := by
  intro a ha
  have hsh := ((h.space.mem_own a).mp ha).1
  simp only [sharedFrames, Set.mem_insert_iff, Set.mem_singleton_iff, not_or] at hsh
  exact hsh

/-- A frame held besides an address space: neither in it, nor free, nor shared. -/
structure Held (m : Mem) (root tf : Frame) (own : Set Frame) (f : Frame) : Prop where
  user : UserSpace m root tf own
  notMem : f ∉ own
  owned : m.store.Owned (own ∪ {f})
  ne_tramp : f ≠ m.tramp
  ne_trapframe : f ≠ tf

theorem Held.not_free {f : Frame} (h : Held m root tf own f) : f ∉ m.freelist :=
  fun hc => h.owned.disjoint f hc (Or.inr rfl)

theorem Held.ne_shared {f : Frame} (h : Held m root tf own f) :
    ∀ a ∈ own ∪ {f}, a ≠ m.tramp ∧ a ≠ tf := by
  rintro a (ha | rfl)
  · exact h.user.own_ne a ha
  · exact ⟨h.ne_tramp, h.ne_trapframe⟩

/-- **`kalloc`** gives a frame to hold, or nothing. -/
theorem UserSpace.kalloc (h : UserSpace m root tf own) {r : Option Frame}
    (hk : Xv6.kalloc m = .ok (r, m')) :
    (r = none ∧ UserSpace m' root tf own ∧ m.Acts own m' own ∧ m'.phys = m.phys ∧
      m'.freelist = m.freelist) ∨
    ∃ f, r = some f ∧ Held m' root tf own f ∧ m.Acts own m' (own ∪ {f}) ∧ f ∈ m.freelist ∧
      ∀ a, a ≠ f → m'.phys a = m.phys a := by
  rcases kalloc_spec hk h.space.owned with ⟨hr, hacts, hphys, hfree⟩ |
    ⟨f, hr, hacts, hfree, hfown, hphys⟩
  · refine Or.inl ⟨hr, ?_, hacts, hphys, hfree⟩
    exact h.of_held hacts (subset_refl _) h.own_ne fun a _ => by rw [hphys]
  · rw [← Set.union_singleton] at hacts
    have hne : ∀ a ∈ own, a ≠ f := fun a ha hc => hfown (hc ▸ ha)
    refine Or.inr ⟨f, hr, ⟨?_, hfown, hacts.owned, ?_, (h.not_free hfree).2.1⟩, hacts, hfree, hphys⟩
    · exact h.of_held hacts Set.subset_union_left h.own_ne fun a ha => by rw [hphys a (hne a ha)]
    · exact hacts.tramp ▸ (h.not_free hfree).1

/-- Writing a held frame does not touch the address space. -/
theorem Held.setPage {f : Frame} (h : Held m root tf own f) (pg : PhysPage) :
    Held (m.setPage f pg) root tf own f ∧ m.Acts (own ∪ {f}) (m.setPage f pg) (own ∪ {f}) := by
  have hacts : m.Acts (own ∪ {f}) (m.setPage f pg) (own ∪ {f}) := setPage_acts h.owned (Or.inr rfl)
  refine ⟨⟨?_, h.notMem, hacts.owned, h.ne_tramp, h.ne_trapframe⟩, hacts⟩
  refine h.user.of_held hacts Set.subset_union_left h.ne_shared fun a ha => ?_
  rw [phys_setPage_of_ne]
  rintro rfl
  exact h.notMem ha

/-- **`kfree`** of a held frame. -/
theorem Held.kfree {f : Frame} (h : Held m root tf own f) (hk : Xv6.kfree f m = .ok ((), m')) :
    UserSpace m' root tf own ∧ m.Acts (own ∪ {f}) m' own ∧ (∀ a, a ≠ f → m'.phys a = m.phys a) ∧
      m'.freelist = f :: m.freelist := by
  obtain ⟨hacts, hphys, hfl⟩ := kfree_spec hk h.owned (Or.inr rfl)
  have hset : (own ∪ {f}) \ {f} = own := by
    ext a
    simp only [Set.mem_sdiff, Set.mem_union, Set.mem_singleton_iff]
    constructor
    · rintro ⟨ha | ha, hne⟩
      · exact ha
      · exact absurd ha hne
    · intro ha
      exact ⟨Or.inl ha, fun hc => h.notMem (hc ▸ ha)⟩
  rw [hset] at hacts
  refine ⟨?_, hacts, hphys, hfl⟩
  refine h.user.of_held hacts (subset_refl _) h.ne_shared fun a ha => ?_
  rw [hphys a]
  rintro rfl
  exact h.notMem ha

/-! ## Mapping user pages and copying -/

/-- **`mappages` of a held frame** makes it a user page, or leaves it held. -/
theorem Held.mapUser {f : Frame} (h : Held m root tf own f) {va : Nat} {perm : Perm} {r : Int}
    (hr : perm.r = true) (hu : perm.u = true)
    (hrun : mappages root va pgSize f perm m = .ok (r, m')) :
    (r = -1 ∧ m.node root (vpath va) = none ∧ ∃ own', Held m' root tf own' f ∧
      Grown m root own m' own' ∧ m.Acts (own ∪ {f}) m' (own' ∪ {f})) ∨
    (r = 0 ∧ ∃ own', UserSpace m' root tf own' ∧
      MappedAt m root (own ∪ {f}) va ⟨true, perm, f⟩ m' own') := by
  have hsh : f ∉ sharedFrames m tf := by
    rintro (hc | hc)
    · exact h.ne_tramp hc
    · exact h.ne_trapframe hc
  rcases mappages_page_spec h.user.space (fun p hp hc => h.user.space.ne_of_node h.notMem
    hsh hp hc rfl)
      h.not_free hr (iff_of_true hu hsh) hrun with ⟨rfl, own', hsp, hg, hnode⟩ | ⟨rfl,
        own', hsp, hat⟩
  · have hsh' : sharedFrames m' tf = sharedFrames m tf := by
      rw [sharedFrames, sharedFrames, hg.acts.tramp]
    have hacts := hg.acts.frame (h.owned.mono Set.subset_union_right)
      (by rintro a rfl; exact h.notMem : ∀ a ∈ ({f} : Set Frame), a ∉ own)
    refine Or.inl ⟨rfl, hnode, own', ⟨⟨hsh' ▸ hsp, ?_, ?_⟩, ?_, hacts.owned, ?_, h.ne_trapframe⟩,
      hg, hacts⟩
    · rw [hg.lookup, h.user.trampoline, hg.acts.tramp]
    · rw [hg.lookup, h.user.trapframe]
    · intro hc
      rcases (hg.acts.mem_total f).mp (Or.inl hc) with hc | hc
      · exact h.notMem hc
      · exact h.not_free hc
    · exact hg.acts.tramp ▸ h.ne_tramp
  · rw [added_of_notMem hsh] at hat
    have hsh' : sharedFrames m' tf = sharedFrames m tf := by
      rw [sharedFrames, sharedFrames, hat.acts.tramp]
    -- the page was not mapped, so it is neither of the two shared ones
    have hpage : ∀ va' e, m.lookup root va' = some e → va' / pgSize ≠ va / pgSize := by
      intro va' e he hp
      have hnone := hat.fresh
      rw [← lookup_pgRoundDown, pgRoundDown, ← hp, ← pgRoundDown, lookup_pgRoundDown, he] at hnone
      cases hnone
    refine Or.inr ⟨rfl, own', ⟨hsh' ▸ hsp, ?_, ?_⟩, hat⟩
    · rw [hat.lookup _ (by decide), if_neg (hpage _ _ h.user.trampoline), h.user.trampoline,
        hat.acts.tramp]
    · rw [hat.lookup _ (by decide), if_neg (hpage _ _ h.user.trapframe), h.user.trapframe]

/-- The entry `e'` and its frame in `m'` are a copy of the entry `e` and its frame in `m`. -/
def CopyOf (m : Mem) (e : Option Pte) (m' : Mem) (e' : Option Pte) : Prop :=
  e'.map (fun x => (x.perm, (m'.phys x.ppn).byte)) = e.map fun x => (x.perm, (m.phys x.ppn).byte)

/-- What a completed copy of the pages in `P` does to the new address space. -/
structure Copied (m : Mem) (old new : Frame) (own : Set Frame) (P : Nat → Prop) (m' : Mem)
    (own' : Set Frame) : Prop where
  acts : m.Acts own m' own'
  copy : ∀ va, va < maxVa → P (va / pgSize) → CopyOf m (m.lookup old va) m' (m'.lookup new va)
  keep : ∀ va, va < maxVa → ¬ P (va / pgSize) → m'.lookup new va = m.lookup new va
  byte : ∀ a, a ∉ m.freelist → (m'.phys a).byte = (m.phys a).byte
  free : ∀ a, a ∈ m'.freelist → a ∈ m.freelist

variable {old new tfo : Frame} {owno : Set Frame}

/-- One round of the loop of `uvmcopy` that has got a frame. -/
theorem uvmcopy_page (ho : Apart m old tfo owno own) (h : UserSpace m new tf own) {i : Nat}
    {e : Pte} {f : Frame} {m₁ m₂ : Mem} (hi : i < trapframeVa) (he : m.lookup old i = some e)
    (hk : kalloc m = .ok (some f, m₁))
    (hm₂ : m₂ = m₁.setPage f { m₁.phys f with byte := (m₁.phys e.ppn).byte }) {r : Int}
    (hmap : mappages new i pgSize f e.perm m₂ = .ok (r, m')) :
    (r = -1 ∧ ∃ own', Held m' new tf own' f ∧ m.Acts own m' (own' ∪ {f}) ∧
      ∀ va, m'.lookup new va = m.lookup new va) ∨
    (r = 0 ∧ ∃ own', UserSpace m' new tf own' ∧ Copied m old new own (· = i / pgSize) m' own') := by
  rcases h.kalloc hk with ⟨hr, -⟩ | ⟨f', hr, hheld, hacts, hfree, hphys⟩
  · cases hr
  obtain rfl := Option.some.inj hr
  obtain ⟨hheld₂, hacts₂⟩ := hheld.setPage { m₁.phys f with byte := (m₁.phys e.ppn).byte }
  rw [← hm₂] at hheld₂ hacts₂
  have hacts₂' := hacts.trans hacts₂
  have hphys₂ : ∀ a, a ≠ f → m₂.phys a = m.phys a := fun a ha => by
    rw [hm₂, phys_setPage_of_ne ha, hphys a ha]
  have hlook₂ : ∀ va, m₂.lookup new va = m.lookup new va := h.lookup_congr fun a ha => by
    rw [hphys₂ a]
    rintro rfl
    exact hheld.notMem ha
  have hfree₂ : ∀ a, a ∈ m₂.freelist → a ∈ m.freelist := fun a ha => by
    rcases (hacts₂'.mem_total a).mp (Or.inr ha) with hown | hc
    · exact absurd (Or.inl hown) (hacts₂'.owned.disjoint a ha)
    · exact hc
  -- the page copied is one of the old address space, and `f` is not
  have hu := ho.user.user hi he
  have he' := (lookup_eq_leaf m old i).symm.trans he
  have hr := ho.user.space.readable _ _ e rfl he'
  have hef : e.ppn ≠ f := fun hc =>
    (ho.user.not_free hfree).2.2 (hc ▸ ho.user.space.leaf_own rfl he' hu)
  rcases hheld₂.mapUser hr hu hmap with ⟨rfl, -, own', hheld', hg, hacts'⟩ | ⟨rfl, own', h', hat⟩
  · exact Or.inl ⟨rfl, own', hheld', hacts₂'.trans hacts', fun va => by rw [hg.lookup, hlook₂]⟩
  · refine Or.inr ⟨rfl, own', h', hacts₂'.trans hat.acts, ?_, ?_, ?_, ?_⟩
    · intro va hva hp
      rw [hat.lookup va hva, if_pos hp, ← lookup_pgRoundDown m, pgRoundDown, hp, ← pgRoundDown,
        lookup_pgRoundDown, he, CopyOf, Option.map_some, Option.map_some,
        hat.byte f hheld₂.not_free, hm₂]
      simp only [Mem.setPage, Function.update_self, hphys _ hef]
    · intro va hva hp
      rw [hat.lookup va hva, if_neg hp, hlook₂]
    · intro a ha
      rw [hat.byte a fun hc => ha (hfree₂ a hc), hphys₂ a fun hc => ha (hc ▸ hfree)]
    · exact fun a ha => hfree₂ a (hat.free a ha)

/-- A page that the old address space does not map needs no copy. -/
theorem Copied.skip (h : UserSpace m new tf own) {n : Nat}
    (hold : ∀ va, va < maxVa → va / pgSize = n → m.lookup old va = none)
    (hnew : ∀ va, va < maxVa → va / pgSize = n → m.lookup new va = none) :
    Copied m old new own (· = n) m own where
  acts := Mem.Acts.refl h.space.owned
  copy va hva hp := by rw [hold va hva hp, hnew va hva hp]; rfl
  keep _ _ _ := rfl
  byte _ _ := rfl
  free _ ha := ha

theorem Copied.trans {m'' : Mem} {own'' : Set Frame} {P Q : Nat → Prop}
    (ho : Apart m old tfo owno own) (h' : UserSpace m' new tf own')
    (hP : ∀ va, va < maxVa → P (va / pgSize) → va < trapframeVa ∧ ¬ Q (va / pgSize))
    (hQ : ∀ va, va < maxVa → Q (va / pgSize) → va < trapframeVa)
    (hc : Copied m old new own P m' own') (hc' : Copied m' old new own' Q m'' own'') :
    Copied m old new own (fun q => P q ∨ Q q) m'' own'' where
  acts := hc.acts.trans hc'.acts
  copy va hva hp := by
    rcases hp with hp | hq
    · have hcopy := hc.copy va hva hp
      rw [CopyOf] at hcopy ⊢
      rw [hc'.keep va hva (hP va hva hp).2, ← hcopy]
      cases he : m'.lookup new va with
      | none => rfl
      | some e =>
        have hown := h'.space.leaf_own rfl ((lookup_eq_leaf m' new va).symm.trans he)
          (h'.user (hP va hva hp).1 he)
        rw [Option.map_some, Option.map_some,
          hc'.byte e.ppn fun hf => h'.space.owned.disjoint _ hf hown]
    · have hcopy := hc'.copy va hva hq
      rw [CopyOf] at hcopy ⊢
      rw [hcopy, ho.lookup hc.acts]
      cases he : m.lookup old va with
      | none => rfl
      | some e =>
        have hown := ho.user.space.leaf_own rfl ((lookup_eq_leaf m old va).symm.trans he)
          (ho.user.user (hQ va hva hq) he)
        rw [Option.map_some, Option.map_some, ho.phys hc.acts _ hown]
  keep va hva hn := by
    rw [not_or] at hn
    rw [hc'.keep va hva hn.2, hc.keep va hva hn.1]
  byte a ha := by rw [hc'.byte a fun hf => ha (hc.free a hf), hc.byte a ha]
  free a ha := hc.free a (hc'.free a ha)

/-- **`uvmcopy`** copies the mapped pages below the size, or fails and leaves no user page. -/
theorem uvmcopyLoop_spec :
    ∀ n {m m' : Mem} {own : Set Frame} {i : Nat} {r : Int}, i % pgSize = 0 →
      i / pgSize + n ≤ trapframeVa / pgSize → Apart m old tfo owno own → UserSpace m new tf own →
      (∀ va, va < trapframeVa → i / pgSize ≤ va / pgSize → m.lookup new va = none) →
      uvmcopyLoop old new n i m = .ok (r, m') →
      (r = -1 ∧ ∃ own', UserSpace m' new tf own' ∧ m.Acts own m' own' ∧
        ∀ va, va < trapframeVa → m'.lookup new va = none) ∨
      (r = 0 ∧ ∃ own', UserSpace m' new tf own' ∧
        Copied m old new own (fun q => i / pgSize ≤ q ∧ q < i / pgSize + n) m' own') := by
  intro n
  induction n with
  | zero =>
    intro m m' own i r _ _ _ h _ hrun
    cases hrun
    exact Or.inr ⟨rfl, own, h, Mem.Acts.refl h.space.owned, fun _ _ hc => by omega,
      fun _ _ _ => rfl, fun _ _ => rfl, fun _ ha => ha⟩
  | succ n ih =>
    intro m m' own i r hal hn ho h hnone hrun
    have hpage : (i + pgSize) / pgSize = i / pgSize + 1 := Nat.add_div_right i (by decide)
    have hlow : i < trapframeVa := by
      simp only [trapframeVa, trampolineVa, maxVa, pgSize] at *
      omega
    -- the rest of the loop, once the page `i` is dealt with
    have hrest : ∀ {m₁ : Mem} {own₁ : Set Frame}, UserSpace m₁ new tf own₁ →
        Copied m old new own (· = i / pgSize) m₁ own₁ →
        uvmcopyLoop old new n (i + pgSize) m₁ = .ok (r, m') →
        (r = -1 ∧ ∃ own', UserSpace m' new tf own' ∧ m.Acts own m' own' ∧
          ∀ va, va < trapframeVa → m'.lookup new va = none) ∨
        (r = 0 ∧ ∃ own', UserSpace m' new tf own' ∧
          Copied m old new own (fun q => i / pgSize ≤ q ∧ q < i / pgSize + (n + 1)) m' own') := by
      intro m₁ own₁ h₁ hc₁ hrun₁
      rcases ih (by simp only [pgSize] at *; omega) (by omega) (ho.acts hc₁.acts) h₁
          (fun va hva hle => by
            have hva' : va < maxVa := by
              simp only [trapframeVa, trampolineVa, maxVa, pgSize] at *
              omega
            rw [hc₁.keep va hva' (by omega)]
            exact hnone va hva (by omega)) hrun₁ with
        ⟨hr, own', h', hacts', hno⟩ | ⟨hr, own', h', hc'⟩
      · exact Or.inl ⟨hr, own', h', hc₁.acts.trans hacts', hno⟩
      · have hc := Copied.trans ho h₁ (fun va hva hp => by
            simp only [trapframeVa, trampolineVa, maxVa, pgSize] at *
            omega) (fun va hva hq => by
            simp only [trapframeVa, trampolineVa, maxVa, pgSize] at *
            omega) hc₁ hc'
        refine Or.inr ⟨hr, own', h', hc.acts, fun va hva hp => hc.copy va hva ?_,
          fun va hva hp => hc.keep va hva ?_, hc.byte, hc.free⟩
        · omega
        · omega
    have hskip : m.lookup old i = none → Copied m old new own (· = i / pgSize) m own := by
      intro hold
      refine Copied.skip h (fun va hva hp => ?_) fun va hva hp => ?_
      · rw [← lookup_pgRoundDown, pgRoundDown, hp, ← pgRoundDown, lookup_pgRoundDown, hold]
      · refine hnone va ?_ (by omega)
        simp only [trapframeVa, trampolineVa, maxVa, pgSize] at *
        omega
    rw [uvmcopyLoop] at hrun
    obtain ⟨w, m₀, hw, hrun⟩ := Halting.bind_eq_ok.mp hrun
    have hva := lt_maxVa_of_walk hw
    rw [walk_noalloc hva] at hw
    have hlook : m.lookup old i = (m.node old (vpath i)).bind fun pt =>
        if (m.tbl pt (px 0 i)).v then some (m.tbl pt (px 0 i)) else none := lookup_eq_leaf m old i
    cases hpt : m.node old (vpath i) with
    | none =>
      rw [hpt] at hw hlook
      cases hw
      exact hrest h (hskip hlook) hrun
    | some pt =>
      rw [hpt] at hw hlook
      cases hw
      dsimp only [Option.map_some] at hrun
      rw [Halting.bind_of_ok (readPte_apply _ _ _)] at hrun
      rw [Option.bind_some] at hlook
      split at hrun
      · next hv =>
        rw [if_neg (by simpa using hv)] at hlook
        exact hrest h (hskip hlook) hrun
      · next hv =>
        rw [if_pos (by simpa using hv)] at hlook
        obtain ⟨o, m₁, hk, hrun⟩ := Halting.bind_eq_ok.mp hrun
        -- a failure removes what was copied before, and nothing was mapped from here on
        have hunwind : ∀ {m₂ : Mem} {own₂ : Set Frame}, UserSpace m₂ new tf own₂ →
            m.Acts own m₂ own₂ →
            (∀ va, va < trapframeVa → i / pgSize ≤ va / pgSize → m₂.lookup new va = none) →
            (do uvmunmap new 0 (i / pgSize) true; pure (-1) : VM Int) m₂ = .ok (r, m') →
            r = -1 ∧ ∃ own', UserSpace m' new tf own' ∧ m.Acts own m' own' ∧
              ∀ va, va < trapframeVa → m'.lookup new va = none := by
          intro m₂ own₂ h₂ hacts₂ hnone₂ hrun₂
          obtain ⟨_, m₃, hun, hrun₂⟩ := Halting.bind_eq_ok.mp hrun₂
          cases hrun₂
          obtain ⟨own', h', hunm⟩ := h₂.uvmunmap (by simp only [pgSize] at *; omega) hun
          refine ⟨rfl, own', h', hacts₂.trans hunm.acts, fun va hva => ?_⟩
          have hva' : va < maxVa := by
            simp only [trapframeVa, trampolineVa, maxVa, pgSize] at *
            omega
          by_cases hp : va / pgSize < i / pgSize
          · exact hunm.gone va hva' ⟨by simp, by simpa using hp⟩
          · rw [hunm.lookup va hva' (by simpa using hp)]
            exact hnone₂ va hva (by omega)
        cases o with
        | none =>
          rcases h.kalloc hk with ⟨-, h₁, hacts, hphys, -⟩ | ⟨f, hf, -⟩
          · refine Or.inl (hunwind h₁ hacts (fun va hva hle => ?_) hrun)
            rw [Mem.lookup, hphys, ← Mem.lookup]
            exact hnone va hva hle
          · cases hf
        | some f =>
          dsimp only at hrun
          rw [Halting.bind_of_ok (Halting.get_apply _)] at hrun
          obtain ⟨_, m₂, hmove, hrun⟩ := Halting.bind_eq_ok.mp hrun
          cases hmove
          obtain ⟨r', m₃, hmap, hrun⟩ := Halting.bind_eq_ok.mp hrun
          rcases uvmcopy_page ho h hlow hlook hk rfl hmap with
            ⟨rfl, own₃, hheld, hacts, hlook₃⟩ | ⟨rfl, own₃, h₃, hc⟩
          · rw [if_pos (by decide)] at hrun
            obtain ⟨_, m₄, hkf, hrun⟩ := Halting.bind_eq_ok.mp hrun
            obtain ⟨h₄, hacts₄, hphys₄, -⟩ := hheld.kfree hkf
            refine Or.inl (hunwind h₄ (hacts.trans hacts₄) (fun va hva hle => ?_) hrun)
            rw [hheld.user.lookup_congr, hlook₃]
            · exact hnone va hva hle
            · intro a ha
              rw [hphys₄ a]
              rintro rfl
              exact hheld.notMem ha
          · rw [if_neg (by decide)] at hrun
            exact hrest h₃ hc hrun

theorem uvmcopy_spec (ho : Apart m old tfo owno own) (h : UserSpace m new tf own) {sz : Nat}
    {r : Int} (hsz : sz ≤ trapframeVa) (hnone : ∀ va, va < trapframeVa → m.lookup new va = none)
    (hrun : uvmcopy old new sz m = .ok (r, m')) :
    (r = -1 ∧ ∃ own', UserSpace m' new tf own' ∧ m.Acts own m' own' ∧
      ∀ va, va < trapframeVa → m'.lookup new va = none) ∨
    (r = 0 ∧ ∃ own', UserSpace m' new tf own' ∧
      Copied m old new own (· < (sz + (pgSize - 1)) / pgSize) m' own') := by
  unfold uvmcopy at hrun
  rcases uvmcopyLoop_spec _ rfl (by
      simp only [trapframeVa, trampolineVa, maxVa, pgSize] at *
      omega) ho h (fun va hva _ => hnone va hva) hrun with hfail | ⟨hr, own', h', hc⟩
  · exact Or.inl hfail
  · refine Or.inr ⟨hr, own', h', hc.acts, fun va hva hp => hc.copy va hva
      ⟨by simp, by simpa using hp⟩, fun va hva hp => hc.keep va hva ?_, hc.byte, hc.free⟩
    simpa using hp

end Xv6
