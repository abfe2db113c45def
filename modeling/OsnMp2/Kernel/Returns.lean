import OsnMp2.Kernel.Tables

/-!
# Page-table functions that return

On a well-formed address space whose frames are allocatable the page-table functions do not panic:
every address that they walk is below `MAXVA`, no page is mapped twice, every frame that is freed is
one that `kfree` accepts, and `freewalk` does not go deeper than the tree.

## Main definitions

* `Pool`: the frames that a computation may free are allocatable

## Main results

* `mappages_returns`, `uvmunmap_returns`, `freewalk_returns`
* `procPagetable_returns`, `procFreepagetable_returns`
-/

namespace Xv6

open Halting

variable {m m' : Mem} {root tf : Frame} {shared own own' : Set Frame}

/-- The owned frames and the free ones are frames that `kfree` accepts. -/
def Pool (m : Mem) (own : Set Frame) : Prop := ∀ a, a ∈ own ∨ a ∈ m.freelist → m.Allocatable a

theorem Pool.acts (h : Pool m own) (hacts : m.Acts own m' own') : Pool m' own' := fun a ha =>
  (hacts.allocatable a).mpr (h a ((hacts.mem_total a).mp ha))

theorem Pool.mono (h : Pool m own) (hsub : own' ⊆ own) : Pool m own' := fun a ha =>
  h a (ha.imp_left fun hc => hsub hc)

theorem SysInv.pool {k : Kernel} {own : Nat → Set Frame} (h : SysInv k own) (i : Nat) :
    Pool k.mem (own i) := by
  rintro a (ha | ha)
  · exact h.allocatable a (Or.inr ⟨i, ha⟩)
  · exact h.allocatable a (Or.inl ha)

/-! ## One page -/

theorem kalloc_returns (m : Mem) : Returns kalloc m := returns_of_raises raises_kalloc

theorem kfree_returns {f : Frame} (h : m.Allocatable f) : Returns (kfree f) m :=
  ⟨(), _, if_pos h⟩

theorem walk_returns (root : Frame) {va : Nat} (hva : va < maxVa) (alloc : Bool) (m : Mem) :
    Returns (walk root va alloc) m := by
  unfold walk
  rw [if_neg (Nat.not_le.mpr hva)]
  exact returns_of_raises (raises_walkLevel va alloc 2 root)

/-- **`mappages` of one page** returns when the page is not mapped. -/
theorem mappages_returns (h : Space m root shared own) {va : Nat} (f : Frame) (perm : Perm)
    (halign : va % pgSize = 0) (hva : va < maxVa) (hnone : m.lookup root va = none) :
    Returns (mappages root va pgSize f perm) m := by
  unfold mappages
  rw [if_neg (not_not.mpr halign), if_neg (by decide), if_neg (by decide),
    show pgSize / pgSize = 0 + 1 from rfl, mappagesLoop]
  refine returns_bind (walk_returns root hva true m) fun o m₁ hw => ?_
  cases o with
  | none => exact returns_pure _
  | some fi =>
    obtain ⟨pt, i⟩ := fi
    obtain ⟨own₁, hsp₁, hgrown, hfound⟩ := walk_alloc_spec h hw
    obtain ⟨hpt, rfl⟩ := hfound pt i rfl
    -- the entry that was found is not valid
    have hlook : m₁.lookup root va = none := (hgrown.lookup va).trans hnone
    rw [lookup_of_node hpt] at hlook
    have hv : ¬ (m₁.tbl pt (px 0 va)).v = true := fun hc => by
      rw [if_pos hc] at hlook
      cases hlook
    refine returns_bind_of_ok (readPte_apply pt (px 0 va) m₁) ?_
    rw [if_neg hv]
    refine returns_bind (returns_modify _) fun _ m₃ _ => ?_
    exact returns_pure _

/-! ## Unmapping -/

/-- **The loop of `uvmunmap`** returns on pages that may be removed. -/
theorem uvmunmapLoop_returns {doFree : Bool} :
    ∀ n {m : Mem} {own : Set Frame} {a : Nat}, Space m root shared own → Pool m own →
      (∀ va e, va < maxVa → a / pgSize ≤ va / pgSize → va / pgSize < a / pgSize + n →
        m.lookup root va = some e → if doFree then e.perm.u = true else e.ppn ∈ shared) →
      a / pgSize + n ≤ maxVa / pgSize → Returns (uvmunmapLoop root doFree n a) m := by
  intro n
  induction n with
  | zero =>
    intro m own a _ _ _ _
    exact returns_pure _
  | succ n ih =>
    intro m own a h hpool hleaf hrange
    have hva : a < maxVa := by
      simp only [maxVa, pgSize] at *
      omega
    have hpage : (a + pgSize) / pgSize = a / pgSize + 1 := Nat.add_div_right a (by decide)
    -- the pages that are left
    have hnext : ∀ {m₁ : Mem} {own₁ : Set Frame}, Space m₁ root shared own₁ →
        Unmapped m root own (· = a / pgSize) m₁ own₁ →
        Returns (uvmunmapLoop root doFree n (a + pgSize)) m₁ := by
      intro m₁ own₁ hsp₁ hun₁
      refine ih hsp₁ (hpool.acts hun₁.acts) (fun va e hlow h1 h2 he => ?_) (by omega)
      exact hleaf va e hlow (by omega) (by omega) ((hun₁.lookup va hlow (by omega)).symm.trans he)
    have hskip : m.lookup root a = none → Returns (uvmunmapLoop root doFree n (a + pgSize)) m := by
      intro hnone
      exact hnext h (Unmapped.refl h fun va _ hp => (lookup_of_page hp).trans hnone)
    rw [uvmunmapLoop]
    refine returns_bind_of_ok (walk_noalloc hva root m) ?_
    cases hpt : m.node root (vpath a) with
    | none => exact hskip (lookup_of_no_node hpt)
    | some pt =>
      have hlook := lookup_of_node hpt
      refine returns_bind_of_ok (readPte_apply pt (px 0 a) m) ?_
      by_cases hv : (m.tbl pt (px 0 a)).v = true
      · rw [if_pos hv] at hlook
        have hkind := hleaf a _ hva le_rfl (by omega) hlook
        rw [if_neg (by rw [hv]; decide)]
        cases doFree with
        | true =>
          have hown : (m.tbl pt (px 0 a)).ppn ∈ own :=
            h.leaf_own rfl (leaf_eq_some.mpr ⟨pt, hpt, hv, rfl⟩) hkind
          refine returns_bind (kfree_returns (hpool _ (Or.inl hown))) fun _ m₁ hk => ?_
          obtain ⟨hsp, hun⟩ := h.freeLeaf hva hpt hv hkind hk
          exact returns_bind_of_ok rfl (hnext hsp hun)
        | false =>
          obtain ⟨hsp, hun⟩ := h.clearLeaf hva hpt hv hkind
          exact returns_bind_of_ok rfl (hnext hsp hun)
      · rw [if_neg hv] at hlook
        rw [if_pos (by simpa using hv)]
        exact hskip hlook

theorem uvmunmap_returns {doFree : Bool} {va n : Nat} (h : Space m root shared own)
    (hpool : Pool m own)
    (hleaf : ∀ va' e, va' < maxVa → va / pgSize ≤ va' / pgSize → va' / pgSize < va / pgSize + n →
      m.lookup root va' = some e → if doFree then e.perm.u = true else e.ppn ∈ shared)
    (halign : va % pgSize = 0) (hrange : va / pgSize + n ≤ maxVa / pgSize) :
    Returns (uvmunmap root va n doFree) m := by
  unfold uvmunmap
  rw [if_neg (not_not.mpr halign)]
  exact uvmunmapLoop_returns n h hpool hleaf hrange

/-! ## Freeing page tables -/

/-- The loop of `freewalk`, entry by entry. -/
theorem freewalkLoop_cons (freeChild : Frame → VM Unit) (pt : Frame) (i : Fin 512)
    (rest : List (Fin 512)) (m : Mem) : freewalkLoop freeChild pt (i :: rest) m =
      (freewalkLoop freeChild pt [i] >>= fun _ => freewalkLoop freeChild pt rest) m := by
  rw [freewalkLoop, freewalkLoop, bind_of_ok (readPte_apply _ _ _), bind_apply,
    bind_of_ok (readPte_apply _ _ _)]
  split
  · rw [bind_apply, bind_apply]
    cases freeChild (m.tbl pt i).ppn m with
    | error e => rfl
    | ok p => rfl
  · rfl

/-- The loop of `freewalk` over entries whose subtrees can be freed. -/
theorem freewalkLoop_returns {pt : Frame} {d : Nat}
    (ih : 0 < d → ∀ {m : Mem} {pt : Frame} {own : Set Frame}, Tables m pt d own →
      m.store.Owned own → Pool m own → Returns (freewalk d pt) m) :
    ∀ (is : List (Fin 512)) {m : Mem} {own : Set Frame}, Tables m pt (d + 1) own →
    m.store.Owned own →
      Pool m own → Returns (freewalkLoop (freewalk d) pt is) m := by
  intro is
  induction is with
  | nil =>
    intro m own _ _ _
    exact returns_pure _
  | cons i rest ihl =>
    intro m own h ho hpool
    have hone : Returns (freewalkLoop (freewalk d) pt [i]) m := by
      rw [freewalkLoop]
      refine returns_bind_of_ok (readPte_apply pt i m) ?_
      split
      · next hchild =>
        simp only [Bool.and_eq_true, Bool.not_eq_true'] at hchild
        obtain ⟨⟨⟨hv, hr⟩, -⟩, -⟩ := hchild
        -- an entry of the last level would be readable
        have hd : 0 < d := by
          by_contra hd
          have := h.readable [] pt i (by simp only [List.length_nil]; omega) rfl hv
          rw [hr] at this
          cases this
        refine returns_bind (ih hd (h.child hv) (ho.mono h.child_subset)
          (hpool.mono h.child_subset)) ?_
        intro _ m₁ _
        exact returns_bind_of_ok rfl (returns_pure _)
      · exact returns_pure _
    obtain ⟨_, m₁, hrun⟩ := hone
    obtain ⟨m₂, own₂, h₂, hacts₂, -, -, hnil⟩ := freewalkLoop_step (freewalk_spec d) h ho hrun
    obtain ⟨-, rfl⟩ := pure_eq_ok.mp hnil
    unfold Returns
    rw [freewalkLoop_cons, bind_of_ok hrun]
    exact ihl h₂ hacts₂.owned (hpool.acts hacts₂)

/-- **`freewalk`** returns on a tree of its depth. -/
theorem freewalk_returns : ∀ d {m : Mem} {pt : Frame} {own : Set Frame}, 0 < d → Tables m pt d own →
    m.store.Owned own → Pool m own → Returns (freewalk d pt) m := by
  intro d
  induction d with
  | zero =>
    intro m pt own hd
    exact absurd hd (Nat.lt_irrefl 0)
  | succ d ih =>
    intro m pt own _ h ho hpool
    rw [freewalk]
    refine returns_bind (freewalkLoop_returns (fun hd => ih hd) _ h ho hpool) fun _ m₁ hloop => ?_
    obtain ⟨own₁, h₁, hacts₁, -⟩ := freewalkLoop_spec (freewalk_spec d) _ h ho hloop
    exact kfree_returns (hpool.acts hacts₁ _ (Or.inl h₁.self_mem))

theorem Space.freewalk_returns (h : Space m root shared own) (hpool : Pool m own) :
    Returns (Xv6.freewalk 3 root) m :=
  Xv6.freewalk_returns 3 (by decide) h.tables (h.owned.mono h.tables_subset)
    (hpool.mono h.tables_subset)

/-- Unmapping the trampoline or the trap frame returns. -/
theorem Space.unmapShared_returns (h : Space m root shared own) (hpool : Pool m own) {va : Nat}
    {f : Frame} {perm : Perm} (he : m.lookup root va = some ⟨true, perm, f⟩) (hf : f ∈ shared)
    (halign : va % pgSize = 0) (hva : va < maxVa) : Returns (uvmunmap root va 1 false) m := by
  refine uvmunmap_returns h hpool (fun va' e hva' h1 h2 he' => ?_) halign ?_
  · have hpage : va' / pgSize = va / pgSize := by omega
    rw [lookup_of_page hpage, he] at he'
    cases he'
    exact hf
  · simp only [maxVa, pgSize] at *
    omega

/-- **`proc_freepagetable`** returns. -/
theorem procFreepagetable_returns (h : UserSpace m root tf own) (hpool : Pool m own) {sz : Nat}
    (hsz : sz ≤ trapframeVa) : Returns (procFreepagetable root sz) m := by
  unfold procFreepagetable
  refine returns_bind (h.space.unmapShared_returns hpool h.trampoline (Set.mem_insert _ _)
    (by decide) (by decide)) fun _ m₁ h₁ => ?_
  obtain ⟨own₁, hsp₁, hun₁⟩ := h.space.unmapShared h.trampoline (Set.mem_insert _ _) h₁
  have hpool₁ := hpool.acts hun₁.acts
  have htf : m₁.lookup root trapframeVa = some ⟨true, { r := true, w := true }, tf⟩ := by
    rw [hun₁.lookup _ (by decide) (by decide), h.trapframe]
  have htfmem : tf ∈ sharedFrames m tf := Set.mem_insert_of_mem _ (Set.mem_singleton tf)
  refine returns_bind (hsp₁.unmapShared_returns hpool₁ htf htfmem (by decide) (by decide))
    fun _ m₂ h₂ => ?_
  obtain ⟨own₂, hsp₂, hun₂⟩ := hsp₁.unmapShared htf htfmem h₂
  have hpool₂ := hpool₁.acts hun₂.acts
  have hun₁₂ := hun₁.trans hun₂
  obtain ⟨hround, hround'⟩ := pgRoundUp_of_le hsz
  -- below the size every page is a user page
  have huser : ∀ va e, va < maxVa → 0 / pgSize ≤ va / pgSize →
      va / pgSize < 0 / pgSize + pgRoundUp sz / pgSize → m₂.lookup root va = some e →
      if true = true then e.perm.u = true else e.ppn ∈ sharedFrames m tf := by
    intro va e hva _ h2 he
    have hva' : va < trapframeVa := by
      simp only [trapframeVa, trampolineVa, maxVa, pgSize] at *
      omega
    have hnot : ¬ (va / pgSize = trampolineVa / pgSize ∨ va / pgSize = trapframeVa / pgSize) := by
      simp only [trapframeVa, trampolineVa, maxVa, pgSize] at *
      omega
    exact h.user hva' ((hun₁₂.lookup va hva hnot).symm.trans he)
  unfold uvmfree
  split
  · have hrange : 0 / pgSize + pgRoundUp sz / pgSize ≤ maxVa / pgSize := by
      simp only [trapframeVa, trampolineVa, maxVa, pgSize] at *
      omega
    refine returns_bind (uvmunmap_returns hsp₂ hpool₂ huser (by decide) hrange) fun _ m₃ h₃ => ?_
    obtain ⟨own₃, hsp₃, hun₃⟩ := uvmunmap_spec hsp₂ huser h₃
    exact hsp₃.freewalk_returns (hpool₂.acts hun₃.acts)
  · exact hsp₂.freewalk_returns hpool₂

/-! ## Creating page tables -/

theorem uvmcreate_returns (m : Mem) : Returns uvmcreate m := by
  unfold uvmcreate
  refine returns_bind (kalloc_returns m) fun o m₁ _ => ?_
  cases o with
  | none => exact returns_pure _
  | some f => exact returns_bind_of_ok rfl (returns_pure _)

theorem uvmfree_returns (h : Space m root shared own) (hpool : Pool m own) :
    Returns (uvmfree root 0) m := by
  unfold uvmfree
  rw [if_neg (by decide)]
  exact h.freewalk_returns hpool

/-- **`proc_pagetable`** returns. -/
theorem procPagetable_returns (hnd : m.freelist.Nodup) (htr : m.tramp ∉ m.freelist)
    (htf : tf ∉ m.freelist) (hne : m.tramp ≠ tf) (hpool : Pool m ∅) :
    Returns (procPagetable tf) m := by
  obtain ⟨shared, hshdef⟩ : ∃ shared, shared = sharedFrames m tf := ⟨_, rfl⟩
  have htrsh : m.tramp ∈ shared := hshdef ▸ Set.mem_insert _ _
  have htfsh : tf ∈ shared := hshdef ▸ Set.mem_insert_of_mem _ (Set.mem_singleton tf)
  have hsh : ∀ a ∈ m.freelist, a ∉ shared := by
    rintro a ha hc
    rw [hshdef] at hc
    rcases hc with hc | hc
    · exact htr (hc ▸ ha)
    · exact htf (hc ▸ ha)
  unfold procPagetable
  refine returns_bind (uvmcreate_returns m) fun o m₁ hc => ?_
  rcases uvmcreate_spec ⟨hnd, fun _ _ => Set.notMem_empty _⟩ hsh hc with
    ⟨rfl, -⟩ | ⟨root, rfl, hsp₁, hacts₁, hnone₁, -⟩
  · exact returns_pure _
  have hpool₁ := hpool.acts hacts₁
  have htr₁ : m₁.tramp ∈ shared := hacts₁.tramp ▸ htrsh
  refine returns_bind_of_ok rfl ?_
  refine returns_bind (mappages_returns hsp₁ _ _ (by decide) (by decide) (hnone₁ _))
    fun r₂ m₂ hmap₂ => ?_
  rcases mappages_page_spec hsp₁ (hsp₁.not_node_of_shared htr₁ fun va e _ he => by
      rw [hnone₁ va] at he; cases he) (fun hc => hsp₁.shared_free _ hc htr₁) rfl
      (iff_of_false (by decide) (not_not.mpr htr₁)) hmap₂ with
    ⟨rfl, own₂, hsp₂, hg₂, -⟩ | ⟨rfl, own₂, hsp₂, hat₂⟩
  · -- no page-table page for the trampoline
    rw [if_pos (by decide)]
    refine returns_bind (uvmfree_returns hsp₂ (hpool₁.acts hg₂.acts)) fun _ _ _ => ?_
    exact returns_pure _
  rw [added_of_mem htr₁, Set.union_empty] at hat₂
  have hpool₂ := hpool₁.acts hat₂.acts
  rw [if_neg (by decide)]
  have htf₂ : m₂.lookup root trapframeVa = none := by
    rw [hat₂.lookup _ (by decide), if_neg (by decide), hnone₁]
  refine returns_bind (mappages_returns hsp₂ _ _ (by decide) (by decide) htf₂) fun r₃ m₃ hmap₃ => ?_
  have htramp₂ : ∀ va e, va < maxVa → m₂.lookup root va = some e → e.ppn = m₁.tramp := by
    intro va e hva he
    rw [hat₂.lookup va hva] at he
    split at he
    · cases he
      rfl
    · rw [hnone₁ va] at he
      cases he
  rcases mappages_page_spec hsp₂ (hsp₂.not_node_of_shared htfsh fun va e hva he hc => by
      rw [htramp₂ va e hva he] at hc
      exact hne (hacts₁.tramp ▸ hc)) (fun hc => hsp₂.shared_free _ hc htfsh) rfl
      (iff_of_false (by decide) (not_not.mpr htfsh)) hmap₃ with
    ⟨rfl, own₃, hsp₃, hg₃, -⟩ | ⟨rfl, own₃, hsp₃, hat₃⟩
  · -- no page-table page for the trap frame
    rw [if_pos (by decide)]
    have hpool₃ := hpool₂.acts hg₃.acts
    have htrl : m₃.lookup root trampolineVa = some ⟨true, { r := true, x := true }, m₁.tramp⟩ := by
      rw [hg₃.lookup, hat₂.lookup _ (by decide), if_pos rfl]
    refine returns_bind (hsp₃.unmapShared_returns hpool₃ htrl htr₁ (by decide) (by decide))
      fun _ m₄ hunmap => ?_
    obtain ⟨own₄, hsp₄, hun₄⟩ := hsp₃.unmapShared htrl htr₁ hunmap
    refine returns_bind (uvmfree_returns hsp₄ (hpool₃.acts hun₄.acts)) fun _ _ _ => ?_
    exact returns_pure _
  · exact returns_pure _

end Xv6
