import OsnMp2.Kernel.Space

/-!
# What the page-table functions do to an address space

One theorem for each function of `vm.c`: from an address space and a completed run, the address
space after it, as a local action on the frames it owns, and what every lookup finds.

## Main results

* `walk_alloc_spec`: creating page-table pages changes no lookup
* `mappages_page_spec`: one more mapping, or none and -1
* `uvmunmap_spec`: the lookups of the range are gone, and the frames of its user pages are free
* `freewalk_spec`: all page-table pages are free, and nothing else
* `uvmcreate_spec`: the empty address space
-/

namespace Xv6

variable {m m' : Mem} {root : Frame} {shared own own' : Set Frame}

theorem page_lt {va : Nat} (h : va < maxVa) : va / pgSize < maxVa / pgSize := by
  simp only [maxVa, pgSize] at *
  omega

/-! ## `walk` with allocation -/

/-- The indices that `walk` still has to follow below the given level. -/
def vrest (va level : Nat) : List (Fin 512) := (List.range level).reverse.map fun l => px (l + 1) va

theorem vrest_succ (va level : Nat) :
    vrest va (level + 1) = px (level + 1) va :: vrest va level := by
  simp [vrest, List.range_succ]

@[simp] theorem length_vrest (va level : Nat) : (vrest va level).length = level := by simp [vrest]

/-- The part of an address space's description that creating page-table pages keeps. -/
structure Grown (m : Mem) (root : Frame) (own : Set Frame) (m' : Mem) (own' : Set Frame) :
    Prop where
  acts : m.Acts own m' own'
  sub : own ⊆ own'
  leaf : ∀ p i, p.length = 2 → m'.leaf root p i = m.leaf root p i
  byte : ∀ a, a ∉ m.freelist → (m'.phys a).byte = (m.phys a).byte
  free : ∀ a, a ∈ m'.freelist → a ∈ m.freelist
  node : ∀ p a, p.length ≤ 2 → m.node root p = some a → m'.node root p = some a

theorem Grown.refl (h : m.store.Owned own) : Grown m root own m own :=
  ⟨Mem.Acts.refl h, fun _ ha => ha, fun _ _ _ => rfl, fun _ _ => rfl, fun _ ha => ha,
    fun _ _ _ ha => ha⟩

theorem Grown.trans {m'' : Mem} {own'' : Set Frame} (h : Grown m root own m' own')
    (h' : Grown m' root own' m'' own'') : Grown m root own m'' own'' where
  acts := h.acts.trans h'.acts
  sub := h.sub.trans h'.sub
  leaf p i hp := (h'.leaf p i hp).trans (h.leaf p i hp)
  byte a ha := (h'.byte a fun hc => ha (h.free a hc)).trans (h.byte a ha)
  free a ha := h.free a (h'.free a ha)
  node p a hp ha := h'.node p a hp (h.node p a hp ha)

theorem Grown.lookup (h : Grown m root own m' own') (va : Nat) :
    m'.lookup root va = m.lookup root va := by
  rw [lookup_eq_leaf, lookup_eq_leaf, h.leaf _ _ rfl]

/-- One new page-table page, as `walk` creates it. -/
theorem Space.walkStep (h : Space m root shared own) {q : List (Fin 512)} {pt f : Frame}
    {i : Fin 512} {m₁ : Mem} (hq : q.length ≤ 1) (hpt : m.node root q = some pt)
    (hv : (m.tbl pt i).v = false) (hk : kalloc m = .ok (some f, m₁)) :
    Space ((m₁.setPage f (PhysPage.fill 0)).setPte pt i ⟨true, {}, f⟩) root shared (insert f own) ∧
      Grown m root own ((m₁.setPage f (PhysPage.fill 0)).setPte pt i ⟨true, {}, f⟩) (insert f own) ∧
      ((m₁.setPage f (PhysPage.fill 0)).setPte pt i ⟨true, {}, f⟩).node root (q ++
       [i]) = some f := by
  rcases kalloc_spec hk h.owned with ⟨hr, -⟩ | ⟨f', hr, hloc, hfree, hfown, hphys⟩
  · cases hr
  obtain rfl := Option.some.inj hr
  have hfsh := h.shared_free f hfree
  have hne : ∀ p a, p.length ≤ 3 → m.node root p = some a → a ≠ f :=
    fun p a hp ha => h.ne_of_node hfown hfsh hp ha
  obtain ⟨m₂, hm₂⟩ : ∃ m₂, m₂ = m₁.setPage f (PhysPage.fill 0) := ⟨_, rfl⟩
  have hphys₂ : ∀ a, a ≠ f → m₂.phys a = m.phys a := fun a ha => by
    rw [hm₂, Mem.setPage, ← hphys a ha]
    exact Function.update_of_ne ha _ _
  have htbl : ∀ p a, p.length ≤ 2 → m.node root p = some a → m₂.tbl a = m.tbl a := by
    intro p a hp ha
    funext j
    rw [Mem.tbl, Mem.tbl, hphys₂ a (hne p a (by omega) ha)]
  have hloc₂ : m.Acts own m₂ (insert f own) :=
    hm₂ ▸ hloc.trans (setPage_acts hloc.owned (Set.mem_insert f own))
  have hsp : Space m₂ root shared own :=
    h.congr htbl (hloc₂.owned.mono (Set.subset_insert f own)) (h.shared_free_of_acts hloc₂)
  have hpt₂ : m₂.node root q = some pt := by rw [node_congr_tables htbl (by omega), hpt]
  have hv₂ : (m₂.tbl pt i).v = false := by rw [htbl q pt (by omega) hpt, hv]
  obtain ⟨hsp', hnode', hkeep', hleaf'⟩ := hsp.addTable hq hpt₂ hv₂ hfown hfsh
    (fun j => hm₂ ▸ tbl_fill_zero m₁ f j) hloc₂.owned
  rw [← hm₂]
  refine ⟨hsp', ⟨?_, Set.subset_insert f own, ?_, ?_, ?_, ?_⟩, hnode'⟩
  · exact hloc₂.trans (setPage_acts hloc₂.owned
      (Set.mem_insert_of_mem f (h.table_own (by omega) hpt)))
  · intro p j hp
    rw [hleaf' p j hp, leaf_congr_tables htbl hp]
  · intro a ha
    rw [byte_setPte, hphys₂ a fun hc => ha (hc ▸ hfree)]
  · intro a ha
    rcases (hloc₂.mem_total a).mp (Or.inr ha) with hown | hfr
    · exact absurd (Or.inr hown) (hloc₂.owned.disjoint a ha)
    · exact hfr
  · intro p a hp ha
    refine hkeep' p a hp ?_
    rw [node_congr_tables htbl (by omega), ha]

/-- **`walk` with allocation** creates page-table pages and changes no lookup; when it succeeds, it
has found the page-table page of the address. -/
theorem walkLevel_alloc_spec (va : Nat) :
    ∀ level {m m' : Mem} {own : Set Frame} {q : List (Fin 512)} {pt : Frame}
      {r : Option (Frame × Fin 512)}, Space m root shared own → m.node root q = some pt →
      q ++ vrest va level = vpath va → walkLevel va true level pt m = .ok (r, m') →
      ∃ own', Space m' root shared own' ∧ Grown m root own m' own' ∧
        ∀ f i, r = some (f, i) → m'.node root (vpath va) = some f ∧ i = px 0 va := by
  intro level
  induction level with
  | zero =>
    intro m m' own q pt r h hpt hq hrun
    cases hrun
    refine ⟨own, h, Grown.refl h.owned, fun f i hfi => ?_⟩
    cases hfi
    rw [vrest, List.range_zero, List.reverse_nil, List.map_nil, List.append_nil] at hq
    exact ⟨hq ▸ hpt, rfl⟩
  | succ level ih =>
    intro m m' own q pt r h hpt hq hrun
    rw [vrest_succ] at hq
    have hlen : q.length + (level + 1) = 2 := by
      have := congrArg List.length hq
      simpa using this
    have hq' : (q ++ [px (level + 1) va]) ++ vrest va level = vpath va := by simpa using hq
    rw [walkLevel, Halting.bind_of_ok (readPte_apply _ _ _)] at hrun
    split at hrun
    · next hv =>
      refine ih h ?_ hq' hrun
      rw [Mem.node, Radix.node_concat, show Radix.node Pte.next m.tbl root q = some pt from hpt]
      exact Pte.next_eq_some.mpr ⟨hv, rfl⟩
    · next hv =>
      rw [if_pos rfl] at hrun
      obtain ⟨o, m₁, hk, hrun⟩ := Halting.bind_eq_ok.mp hrun
      cases o with
      | none =>
        cases hrun
        rcases kalloc_spec hk h.owned with ⟨-, hacts, hphys, hfree⟩ | ⟨f, hf, -⟩
        · have htbl : m'.tbl = m.tbl := by funext a i; rw [Mem.tbl, Mem.tbl, hphys]
          refine ⟨own, h.congr (fun _ a _ _ => by rw [htbl]) hacts.owned
            (h.shared_free_of_acts hacts), ?_, fun _ _ hc => by cases hc⟩
          refine ⟨hacts, fun _ ha => ha, fun p i _ => ?_, fun a _ => ?_, fun a ha => hfree ▸ ha,
            fun p a _ ha => ?_⟩
          · rw [Mem.leaf, Mem.leaf, Mem.node, Mem.node, htbl]
          · rw [hphys]
          · rw [Mem.node, htbl, ← Mem.node, ha]
        · cases hf
      | some f =>
        obtain ⟨_, m₂, hset, hrun⟩ := Halting.bind_eq_ok.mp hrun
        obtain ⟨_, m₃, hwr, hrun⟩ := Halting.bind_eq_ok.mp hrun
        cases hset
        cases hwr
        obtain ⟨hsp, hgrown, hnode⟩ := h.walkStep (by omega) hpt (by simpa using hv) hk
        obtain ⟨own', hsp', hgrown', hfound⟩ := ih hsp hnode hq' hrun
        exact ⟨own', hsp', hgrown.trans hgrown', hfound⟩

/-- Where all page-table pages are there, none is created. -/
theorem walkLevel_alloc_of_node (va : Nat) :
    ∀ level pt {a : Frame}, Radix.node Pte.next m.tbl pt (vrest va level) = some a →
      walkLevel va true level pt m = walkLevel va false level pt m := by
  intro level
  induction level with
  | zero => intro pt a _; rfl
  | succ level ih =>
    intro pt a ha
    rw [vrest_succ, Radix.node_cons] at ha
    obtain ⟨b, hb, hba⟩ := Option.bind_eq_some_iff.mp ha
    obtain ⟨hv, hbp⟩ := Pte.next_eq_some.mp hb
    rw [walkLevel, walkLevel, Halting.bind_of_ok (readPte_apply _ _ _),
      Halting.bind_of_ok (readPte_apply _ _ _), if_pos hv, if_pos hv]
    exact ih _ (hbp ▸ hba)

theorem walk_alloc_spec (h : Space m root shared own) {va : Nat} {r : Option (Frame × Fin 512)}
    (hrun : walk root va true m = .ok (r, m')) :
    ∃ own', Space m' root shared own' ∧ Grown m root own m' own' ∧
      ∀ f i, r = some (f, i) → m'.node root (vpath va) = some f ∧ i = px 0 va := by
  have hva := lt_maxVa_of_walk hrun
  unfold walk at hrun
  rw [if_neg (by omega)] at hrun
  exact walkLevel_alloc_spec va 2 h (q := []) rfl rfl hrun

/-- `walk` finds the page-table page that is there. -/
theorem walk_alloc_of_node {va : Nat} {pt : Frame} (hva : va < maxVa)
    (hpt : m.node root (vpath va) = some pt) :
    walk root va true m = .ok (some (pt, px 0 va), m) := by
  have hsame : walk root va true m = walk root va false m := by
    unfold walk
    rw [if_neg (by omega), if_neg (by omega)]
    exact walkLevel_alloc_of_node va 2 root (a := pt) hpt
  rw [hsame, walk_noalloc hva, hpt]
  rfl

/-- `walk` runs out of page-table pages only when one is missing. -/
theorem walk_alloc_none {va : Nat} (hrun : walk root va true m = .ok (none, m')) :
    m.node root (vpath va) = none := by
  by_contra hne
  obtain ⟨a, ha⟩ := Option.ne_none_iff_exists'.mp hne
  rw [walk_alloc_of_node (lt_maxVa_of_walk hrun) ha] at hrun
  cases hrun

/-- Growing an address space keeps the bytes and entries of its leaves; a frame that is neither
free nor in the address space stays outside it. -/
theorem Grown.not_node (h : Space m root shared own) (h' : Space m' root shared own')
    (hg : Grown m root own m' own') {f : Frame} (hfree : f ∉ m.freelist)
    (hf : ∀ p, p.length ≤ 3 → m.node root p ≠ some f) :
    ∀ p, p.length ≤ 3 → m'.node root p ≠ some f := by
  intro p hp hc
  by_cases hsh : f ∈ shared
  · -- a shared frame is a leaf, and the leaves are the old ones
    by_cases hlen : p.length ≤ 2
    · exact h'.table p f hlen hc hsh
    · obtain ⟨q, i, rfl⟩ : ∃ q i, p = q ++ [i] := by
        rcases List.eq_nil_or_concat p with rfl | ⟨q, i, rfl⟩
        · simp at hlen
        · exact ⟨q, i, List.concat_eq_append⟩
      obtain ⟨e, he, hef⟩ := leaf_of_node hc
      have hq : q.length = 2 := by
        simp only [List.length_append, List.length_singleton] at hp hlen
        omega
      rw [hg.leaf q i hq] at he
      exact hf (q ++ [i]) hp (hef ▸ node_of_leaf he)
  · rcases (hg.acts.mem_total f).mp (Or.inl ((h'.mem_own f).mpr ⟨hsh, p, hp, hc⟩)) with hown | hfr
    · obtain ⟨-, q, hq, hqf⟩ := (h.mem_own f).mp hown
      exact hf q hq hqf
    · exact hfree hfr

/-! ## `mappages` -/

/-- The frame `f` as an addition to the owned frames: a shared frame adds nothing. -/
def added (f : Frame) (shared : Set Frame) : Set Frame := {a | a = f ∧ a ∉ shared}

@[simp] theorem mem_added {a f : Frame} : a ∈ added f shared ↔ a = f ∧ a ∉ shared := Iff.rfl

theorem added_of_mem {f : Frame} (h : f ∈ shared) : added f shared = ∅ := by
  ext a
  simp only [mem_added, Set.mem_empty_iff_false, iff_false, not_and, not_not]
  rintro rfl
  exact h

theorem added_of_notMem {f : Frame} (h : f ∉ shared) : added f shared = {f} := by
  ext a
  simp only [mem_added, Set.mem_singleton_iff, and_iff_left_iff_imp]
  rintro rfl
  exact h

/-- What one more mapping does. -/
structure MappedAt (m : Mem) (root : Frame) (own : Set Frame) (va : Nat) (e : Pte) (m' : Mem)
    (own' : Set Frame) : Prop where
  low : va < maxVa
  aligned : va % pgSize = 0
  fresh : m.lookup root va = none
  acts : m.Acts own m' own'
  sub : own ⊆ own'
  lookup : ∀ va', va' < maxVa → m'.lookup root va' =
    if va' / pgSize = va / pgSize then some e else m.lookup root va'
  byte : ∀ a, a ∉ m.freelist → (m'.phys a).byte = (m.phys a).byte
  free : ∀ a, a ∈ m'.freelist → a ∈ m.freelist
  node : ∀ p a, p.length ≤ 2 → m.node root p = some a → m'.node root p = some a

/-- **`mappages` of one page** maps the page, or runs out of page-table pages and maps nothing. -/
theorem mappages_page_spec (h : Space m root shared own) {va : Nat} {f : Frame}
    {perm : Perm} {r : Int}
    (hf : ∀ p, p.length ≤ 3 → m.node root p ≠ some f) (hfree : f ∉ m.freelist) (hr : perm.r = true)
    (hu : perm.u = true ↔ f ∉ shared) (hrun : mappages root va pgSize f perm m = .ok (r, m')) :
    (r = -1 ∧ ∃ own', Space m' root shared own' ∧ Grown m root own m' own' ∧
      m.node root (vpath va) = none) ∨
    (r = 0 ∧ ∃ own', Space m' root shared own' ∧
      MappedAt m root (own ∪ added f shared) va ⟨true, perm, f⟩ m' own') := by
  unfold mappages at hrun
  split at hrun
  · cases hrun
  next hal =>
  rw [if_neg (by decide), if_neg (by decide), show pgSize / pgSize = 0 + 1 from rfl,
    mappagesLoop] at hrun
  obtain ⟨o, m₁, hw, hrun⟩ := Halting.bind_eq_ok.mp hrun
  -- The walk may add tables and nothing else; the leaf comes on top of them.
  obtain ⟨own₁, hsp₁, hg, hfound⟩ := walk_alloc_spec h hw
  have hva := lt_maxVa_of_walk hw
  cases o with
  | none =>
    cases hrun
    exact Or.inl ⟨rfl, own₁, hsp₁, hg, walk_alloc_none hw⟩
  | some fi =>
    obtain ⟨pt, i⟩ := fi
    obtain ⟨hpt, rfl⟩ := hfound pt i rfl
    dsimp only at hrun
    rw [Halting.bind_of_ok (readPte_apply _ _ _)] at hrun
    split at hrun
    · cases hrun
    next hv =>
    obtain ⟨_, m₂, hwr, hrun⟩ := Halting.bind_eq_ok.mp hrun
    cases hwr
    cases hrun
    have hv' : (m₁.tbl pt (px 0 va)).v = false := by simpa using hv
    have hnew := hg.not_node h hsp₁ hfree hf
    -- The frame is not yet in the tree, so owning it as well takes nothing from anyone.
    have hdisj : ∀ a ∈ added f shared, a ∉ own := by
      rintro a ⟨rfl, -⟩ hown
      obtain ⟨-, p, hp, hpa⟩ := (h.mem_own a).mp hown
      exact hf p hp hpa
    have hoadd : m.store.Owned (added f shared) :=
      ⟨h.owned.nodup, fun a ha hadd => hfree (hadd.1 ▸ ha)⟩
    have hacts : m.Acts (own ∪ added f shared) m₁ (own₁ ∪ added f shared) :=
      hg.acts.frame hoadd hdisj
    have hptown : pt ∈ own₁ ∪ added f shared := Or.inl (hsp₁.table_own (by simp) hpt)
    refine Or.inr ⟨rfl, own₁ ∪ added f shared,
      hsp₁.mapLeaf hva hpt hv' hnew hr hu hacts.owned,
      hva, by simpa using hal, ?_, ?_, ?_, ?_, ?_, ?_, ?_⟩
    · rw [← hg.lookup, lookup_eq_leaf, Mem.leaf, hpt, Option.bind_some, if_neg (by simpa using hv)]
    · exact hacts.trans (setPage_acts hacts.owned hptown)
    · exact Set.union_subset_union_left _ hg.sub
    · intro va' hva'
      rw [lookup_eq_leaf, hsp₁.leaf_setPte rfl hpt rfl, if_pos rfl]
      -- the only leaf that changes is the one of this page
      by_cases hpage : va' / pgSize = va / pgSize
      · rw [if_pos (vpath_eq_of_page hpage), if_pos hpage]
      · rw [if_neg (fun hc => hpage (page_eq_of_vpath hva' hva hc.1 hc.2)), if_neg hpage,
          hg.leaf _ _ rfl, lookup_eq_leaf]
    · intro a ha
      rw [byte_setPte, hg.byte a ha]
    · exact fun a ha => hg.free a ha
    · intro p a hp ha
      rw [hsp₁.node_setPte rfl hpt hp]
      exact hg.node p a hp ha

/-! ## `uvmunmap` -/

/-- What removing the mappings of the pages in `P` does: `own'` is what is left. -/
structure Unmapped (m : Mem) (root : Frame) (own : Set Frame) (P : Nat → Prop) (m' : Mem)
    (own' : Set Frame) : Prop where
  acts : m.Acts own m' own'
  sub : own' ⊆ own
  lookup : ∀ va, va < maxVa → ¬ P (va / pgSize) → m'.lookup root va = m.lookup root va
  gone : ∀ va, va < maxVa → P (va / pgSize) → m'.lookup root va = none
  byte : ∀ a, a ∉ m'.freelist → (m'.phys a).byte = (m.phys a).byte
  free : ∀ a, a ∈ m.freelist → a ∈ m'.freelist
  node : ∀ p a, p.length ≤ 2 → m.node root p = some a → m'.node root p = some a

theorem Unmapped.trans {m'' : Mem} {own'' : Set Frame} {P Q : Nat → Prop}
    (h : Unmapped m root own P m' own') (h' : Unmapped m' root own' Q m'' own'') :
    Unmapped m root own (fun n => P n ∨ Q n) m'' own'' where
  acts := h.acts.trans h'.acts
  sub := h'.sub.trans h.sub
  lookup va hva hn := by
    rw [not_or] at hn
    rw [h'.lookup va hva hn.2, h.lookup va hva hn.1]
  gone va hva hn := by
    by_cases hq : Q (va / pgSize)
    · exact h'.gone va hva hq
    · rw [h'.lookup va hva hq, h.gone va hva (hn.resolve_right hq)]
  byte a ha := by
    rw [h'.byte a ha, h.byte a fun hc => ha (h'.free a hc)]
  free a ha := h'.free a (h.free a ha)
  node p a hp ha := h'.node p a hp (h.node p a hp ha)

theorem Unmapped.congr {P Q : Nat → Prop} (h : Unmapped m root own P m' own')
    (hpq : ∀ n, n < maxVa / pgSize → (P n ↔ Q n)) : Unmapped m root own Q m' own' where
  acts := h.acts
  sub := h.sub
  lookup va hva hn := h.lookup va hva (mt (hpq _ (page_lt hva)).mp hn)
  gone va hva hn := h.gone va hva ((hpq _ (page_lt hva)).mpr hn)
  byte := h.byte
  free := h.free
  node := h.node

/-- A page that is not mapped needs no unmapping. -/
theorem Unmapped.refl (h : Space m root shared own) {n : Nat}
    (hnone : ∀ va, va < maxVa → va / pgSize = n → m.lookup root va = none) :
    Unmapped m root own (· = n) m own where
  acts := Mem.Acts.refl h.owned
  sub := subset_refl _
  lookup _ _ _ := rfl
  gone va hva hn := hnone va hva hn
  byte _ _ := rfl
  free _ ha := ha
  node _ _ _ ha := ha

/-- What clearing an entry of the last level does to the lookups. -/
theorem Space.lookup_clear (h : Space m root shared own) {va : Nat} {pt : Frame}
    (hva : va < maxVa) (hpt : m.node root (vpath va) = some pt) {va' : Nat} (hva' : va' < maxVa) :
    (m.setPte pt (px 0 va) Pte.zero).lookup root va' =
      if va' / pgSize = va / pgSize then none else m.lookup root va' := by
  rw [lookup_eq_leaf, h.leaf_setPte rfl hpt rfl]
  by_cases hpage : va' / pgSize = va / pgSize
  · rw [if_pos (vpath_eq_of_page hpage), if_pos hpage]
    rfl
  · rw [if_neg fun hc => hpage (page_eq_of_vpath hva' hva hc.1 hc.2), if_neg hpage, lookup_eq_leaf]

/-- **Freeing a user page**: its frame goes to the free list and its entry is cleared. -/
theorem Space.freeLeaf (h : Space m root shared own) {va : Nat} {pt : Frame} {m₁ : Mem}
    (hva : va < maxVa) (hpt : m.node root (vpath va) = some pt)
    (hv : (m.tbl pt (px 0 va)).v = true) (hu : (m.tbl pt (px 0 va)).perm.u = true)
    (hk : kfree (m.tbl pt (px 0 va)).ppn m = .ok ((), m₁)) :
    Space (m₁.setPte pt (px 0 va) Pte.zero) root shared (own \ {(m.tbl pt (px 0 va)).ppn}) ∧
      Unmapped m root own (· = va / pgSize) (m₁.setPte pt (px 0 va) Pte.zero)
        (own \ {(m.tbl pt (px 0 va)).ppn}) := by
  have hleaf : m.leaf root (vpath va) (px 0 va) = some (m.tbl pt (px 0 va)) :=
    leaf_eq_some.mpr ⟨pt, hpt, hv, rfl⟩
  have hown := h.leaf_own rfl hleaf hu
  obtain ⟨hacts, hphys, hfl⟩ := kfree_spec hk h.owned hown
  obtain ⟨f, hf⟩ : ∃ f, f = (m.tbl pt (px 0 va)).ppn := ⟨_, rfl⟩
  rw [← hf] at hown hacts hphys hfl ⊢
  -- the freed frame is a leaf, so no page-table page is touched
  have hne : ∀ p a, p.length ≤ 2 → m.node root p = some a → a ≠ f := by
    rintro p a hp ha rfl
    have hpq := h.sep p (vpath va ++ [px 0 va]) a (by omega) (by simp) ha (hf ▸ node_of_leaf hleaf)
    rw [hpq] at hp
    simp at hp
  have htbl : ∀ p a, p.length ≤ 2 → m.node root p = some a → m₁.tbl a = m.tbl a := by
    intro p a hp ha
    funext j
    rw [Mem.tbl, Mem.tbl, hphys a (hne p a hp ha)]
  have hpt₁ : m₁.node root (vpath va) = some pt := by rw [node_congr_tables htbl (by simp), hpt]
  have htblpt : m₁.tbl pt = m.tbl pt := htbl (vpath va) pt (by simp) hpt
  -- the tree is that of `m`, with the owned frames the free list allows
  have hsp := h.unmapLeaf rfl hpt hv
  have htbl' : ∀ p a, p.length ≤ 2 → (m.setPte pt (px 0 va) Pte.zero).node root p = some a →
      (m₁.setPte pt (px 0 va) Pte.zero).tbl a = (m.setPte pt (px 0 va) Pte.zero).tbl a := by
    intro p a hp ha
    have haf : a ≠ f := by
      rintro rfl
      have := hsp.table_own hp ha
      rw [← hf] at this
      exact this.2 rfl
    funext j
    rw [tbl_setPte, tbl_setPte]
    unfold Radix.setEntry
    split
    · rfl
    · rw [Mem.tbl, Mem.tbl, hphys a haf]
  have hacts' : m.Acts own (m₁.setPte pt (px 0 va) Pte.zero) (own \ {f}) :=
    hacts.trans (setPage_acts hacts.owned
      ⟨h.table_own (by simp) hpt, hne (vpath va) pt (by simp) hpt⟩)
  rw [← hf] at hsp
  have hsp' := hsp.congr htbl' hacts'.owned (h.shared_free_of_acts hacts')
  refine ⟨hsp', ⟨hacts', fun a ha => ha.1, ?_, ?_, ?_, ?_, ?_⟩⟩
  · intro va' hva' hn
    rw [lookup_eq_leaf, leaf_congr_tables htbl' rfl, ← lookup_eq_leaf, h.lookup_clear hva hpt hva',
      if_neg hn]
  · intro va' hva' hn
    rw [lookup_eq_leaf, leaf_congr_tables htbl' rfl, ← lookup_eq_leaf, h.lookup_clear hva hpt hva',
      if_pos hn]
  · intro a ha
    rw [byte_setPte, hphys a]
    rintro rfl
    apply ha
    show a ∈ m₁.freelist
    rw [hfl]
    exact List.mem_cons_self
  · intro a ha
    show a ∈ m₁.freelist
    rw [hfl]
    exact List.mem_cons_of_mem f ha
  · intro p a hp ha
    rw [node_congr_tables htbl' (by omega), h.node_setPte rfl hpt hp, ha]

/-- **Clearing the entry of a shared page** frees nothing. -/
theorem Space.clearLeaf (h : Space m root shared own) {va : Nat} {pt : Frame}
    (hva : va < maxVa) (hpt : m.node root (vpath va) = some pt)
    (hv : (m.tbl pt (px 0 va)).v = true) (hsh : (m.tbl pt (px 0 va)).ppn ∈ shared) :
    Space (m.setPte pt (px 0 va) Pte.zero) root shared own ∧
      Unmapped m root own (· = va / pgSize) (m.setPte pt (px 0 va) Pte.zero) own := by
  have hsp := h.unmapLeaf rfl hpt hv
  have hown : own \ {(m.tbl pt (px 0 va)).ppn} = own := by
    ext a
    rw [Set.mem_sdiff, Set.mem_singleton_iff, and_iff_left_iff_imp]
    rintro ha rfl
    exact ((h.mem_own _).mp ha).1 hsh
  rw [hown] at hsp
  refine ⟨hsp, ⟨?_, subset_refl _, ?_, ?_, ?_, fun a ha => ha,
    fun p a hp ha => (h.node_setPte rfl hpt hp).trans ha⟩⟩
  · exact setPage_acts h.owned (h.table_own (by simp) hpt)
  · intro va' hva' hn
    rw [h.lookup_clear hva hpt hva', if_neg hn]
  · intro va' hva' hn
    rw [h.lookup_clear hva hpt hva', if_pos hn]
  · intro a _
    rw [byte_setPte]

/-- One round of the loop of `uvmunmap`, on a page that is a user page or, when nothing is to be
freed, a shared one. -/
theorem uvmunmapLoop_step (h : Space m root shared own) {doFree : Bool} {n a : Nat}
    (hleaf : ∀ e, m.lookup root a = some e → if doFree then e.perm.u = true else e.ppn ∈ shared)
    (hrun : uvmunmapLoop root doFree (n + 1) a m = .ok ((), m')) :
    a < maxVa ∧ ∃ m₁ own₁, Space m₁ root shared own₁ ∧
    Unmapped m root own (· = a / pgSize) m₁ own₁ ∧
      uvmunmapLoop root doFree n (a + pgSize) m₁ = .ok ((), m') := by
  rw [uvmunmapLoop] at hrun
  obtain ⟨o, m₁, hw, hrun⟩ := Halting.bind_eq_ok.mp hrun
  have hva := lt_maxVa_of_walk hw
  rw [walk_noalloc hva] at hw
  have hlook : m.lookup root a = (m.node root (vpath a)).bind fun pt =>
      if (m.tbl pt (px 0 a)).v then some (m.tbl pt (px 0 a)) else none := lookup_eq_leaf m root a
  refine ⟨hva, ?_⟩
  cases hpt : m.node root (vpath a) with
  | none =>
    rw [hpt] at hw hlook
    cases hw
    refine ⟨m, own, h, Unmapped.refl h fun va' _ hp => ?_, hrun⟩
    rw [← lookup_pgRoundDown, pgRoundDown, hp, ← pgRoundDown, lookup_pgRoundDown, hlook]
    rfl
  | some pt =>
    rw [hpt] at hw hlook
    cases hw
    dsimp only [Option.map_some] at hrun
    rw [Halting.bind_of_ok (readPte_apply _ _ _)] at hrun
    rw [Option.bind_some] at hlook
    split at hrun
    · next hv =>
      refine ⟨m, own, h, Unmapped.refl h fun va' _ hp => ?_, hrun⟩
      rw [← lookup_pgRoundDown, pgRoundDown, hp, ← pgRoundDown, lookup_pgRoundDown, hlook,
        if_neg (by simpa using hv)]
    · next hv =>
      have hv' : (m.tbl pt (px 0 a)).v = true := by simpa using hv
      rw [if_pos hv'] at hlook
      have hkind := hleaf _ hlook
      cases doFree with
      | true =>
        obtain ⟨_, m₂, hk, hrun⟩ := Halting.bind_eq_ok.mp hrun
        obtain ⟨_, m₃, hwr, hrun⟩ := Halting.bind_eq_ok.mp hrun
        cases hwr
        obtain ⟨hsp, hun⟩ := h.freeLeaf hva hpt hv' hkind hk
        exact ⟨_, _, hsp, hun, hrun⟩
      | false =>
        obtain ⟨_, m₂, hwr, hrun⟩ := Halting.bind_eq_ok.mp hrun
        cases hwr
        obtain ⟨hsp, hun⟩ := h.clearLeaf hva hpt hv' hkind
        exact ⟨_, _, hsp, hun, hrun⟩

/-- **`uvmunmap`** removes the mappings of its range. -/
theorem uvmunmapLoop_spec {doFree : Bool} :
    ∀ n {m m' : Mem} {own : Set Frame} {a : Nat}, Space m root shared own →
      (∀ va e, va < maxVa → a / pgSize ≤ va / pgSize → va / pgSize < a / pgSize + n →
        m.lookup root va = some e → if doFree then e.perm.u = true else e.ppn ∈ shared) →
      uvmunmapLoop root doFree n a m = .ok ((), m') →
      ∃ own', Space m' root shared own' ∧
        Unmapped m root own (fun q => a / pgSize ≤ q ∧ q < a / pgSize + n) m' own' := by
  intro n
  induction n with
  | zero =>
    intro m m' own a h _ hrun
    cases hrun
    exact ⟨own, h, Mem.Acts.refl h.owned, subset_refl _, fun _ _ _ => rfl, fun _ _ hc => by omega,
      fun _ _ => rfl, fun _ ha => ha, fun _ _ _ ha => ha⟩
  | succ n ih =>
    intro m m' own a h hleaf hrun
    have hpage : (a + pgSize) / pgSize = a / pgSize + 1 := Nat.add_div_right a (by decide)
    have hlow : a < maxVa := by
      rw [uvmunmapLoop] at hrun
      obtain ⟨o, m₁, hw, -⟩ := Halting.bind_eq_ok.mp hrun
      exact lt_maxVa_of_walk hw
    obtain ⟨-, m₁, own₁, hsp₁, hun₁, hrun₁⟩ := uvmunmapLoop_step h
      (fun e he => hleaf a e hlow le_rfl (by omega) he) hrun
    obtain ⟨own', hsp', hun'⟩ := ih hsp₁ (fun va e hva h1 h2 he =>
      hleaf va e hva (by omega) (by omega) ((hun₁.lookup va hva (by omega)).symm.trans he)) hrun₁
    refine ⟨own', hsp', (hun₁.trans hun').congr fun q _ => ?_⟩
    omega

theorem uvmunmap_spec (h : Space m root shared own) {doFree : Bool} {va n : Nat}
    (hleaf : ∀ va' e, va' < maxVa → va / pgSize ≤ va' / pgSize → va' / pgSize < va / pgSize + n →
      m.lookup root va' = some e → if doFree then e.perm.u = true else e.ppn ∈ shared)
    (hrun : uvmunmap root va n doFree m = .ok ((), m')) :
    ∃ own', Space m' root shared own' ∧
      Unmapped m root own (fun q => va / pgSize ≤ q ∧ q < va / pgSize + n) m' own' := by
  unfold uvmunmap at hrun
  split at hrun
  · cases hrun
  · exact uvmunmapLoop_spec n h hleaf hrun

/-! ## `freewalk` -/

/-- The page-table pages of a tree of depth `d` below `pt`: what `freewalk` frees. -/
structure Tables (m : Mem) (pt : Frame) (d : Nat) (own : Set Frame) : Prop where
  sep : Radix.Separated Pte.next m.tbl pt d
  mem_own : ∀ a, a ∈ own ↔ ∃ p, p.length < d ∧ m.node pt p = some a
  inner : ∀ p a i, p.length + 1 < d → m.node pt p = some a → (m.tbl a i).v = true →
    (m.tbl a i).perm = {}
  readable : ∀ p a i, p.length + 1 = d → m.node pt p = some a → (m.tbl a i).v = true →
    (m.tbl a i).perm.r = true

theorem Tables.congr {pt : Frame} {d : Nat} (h : Tables m pt d own)
    (htbl : ∀ a ∈ own, m'.tbl a = m.tbl a) : Tables m' pt d own := by
  have hnode : ∀ p : List (Fin 512), p.length ≤ d → m'.node pt p = m.node pt p :=
    Radix.node_congr fun p a i hp ha => by rw [htbl a ((h.mem_own a).mpr ⟨p, hp, ha⟩)]
  constructor
  · intro p q a hp hq hpa hqa
    exact h.sep p q a hp hq ((hnode p hp).symm.trans hpa) ((hnode q hq).symm.trans hqa)
  · intro a
    rw [h.mem_own]
    refine exists_congr fun p => and_congr_right fun hp => ?_
    rw [hnode p hp.le]
  · intro p a i hp ha hv
    rw [hnode p (by omega)] at ha
    rw [htbl a ((h.mem_own a).mpr ⟨p, by omega, ha⟩)] at hv ⊢
    exact h.inner p a i hp ha hv
  · intro p a i hp ha hv
    rw [hnode p (by omega)] at ha
    rw [htbl a ((h.mem_own a).mpr ⟨p, by omega, ha⟩)] at hv ⊢
    exact h.readable p a i hp ha hv

/-- The page-table pages below the entries `is` of `pt`. -/
def childTables (m : Mem) (pt : Frame) (d : Nat) (is : List (Fin 512)) : Set Frame :=
  {a | ∃ i ∈ is, ∃ p, p.length < d ∧ m.node pt (i :: p) = some a}

theorem Tables.child {pt : Frame} {d : Nat} {i : Fin 512} (h : Tables m pt (d + 1) own)
    (hv : (m.tbl pt i).v = true) : Tables m (m.tbl pt i).ppn d (childTables m pt d [i]) := by
  have hnext : (m.tbl pt i).next = some (m.tbl pt i).ppn := Pte.next_eq_some.mpr ⟨hv, rfl⟩
  have hnode : ∀ p, m.node pt (i :: p) = m.node (m.tbl pt i).ppn p := fun p => by
    rw [Mem.node, Radix.node_cons, hnext]
    rfl
  constructor
  · exact h.sep.child hnext
  · intro a
    simp only [childTables, List.mem_singleton, exists_eq_left, Set.mem_ofPred_eq, hnode]
  · intro p a j hp ha hav
    exact h.inner (i :: p) a j (by simpa using hp) ((hnode p).trans ha) hav
  · intro p a j hp ha hav
    exact h.readable (i :: p) a j (by simpa using hp) ((hnode p).trans ha) hav

theorem Tables.self_mem {pt : Frame} {d : Nat} (h : Tables m pt (d + 1) own) : pt ∈ own :=
  (h.mem_own pt).mpr ⟨[], by simp, rfl⟩

theorem Tables.child_subset {pt : Frame} {d : Nat} {i : Fin 512} (h : Tables m pt (d + 1) own) :
    childTables m pt d [i] ⊆ own := by
  rintro a ⟨j, -, p, hp, ha⟩
  exact (h.mem_own a).mpr ⟨j :: p, by simpa using hp, ha⟩

/-- Clearing an entry of the root removes the page-table pages below it. -/
theorem Tables.clear {pt : Frame} {d : Nat} {i : Fin 512} (h : Tables m pt (d + 1) own) :
    Tables (m.setPte pt i Pte.zero) pt (d + 1) (own \ childTables m pt d [i]) := by
  have hnode : ∀ {p : List (Fin 512)}, p.length ≤ d + 1 → (m.setPte pt i Pte.zero).node pt p =
      if [i] <+: p then none else m.node pt p := fun hp => by
    rw [Mem.node, tbl_setPte]
    exact Radix.node_clear h.sep (q := []) (by simp) rfl rfl hp
  have hentry : ∀ p a j, p.length < d + 1 → (m.setPte pt i Pte.zero).node pt p = some a →
      ((m.setPte pt i Pte.zero).tbl a j).v = true →
      m.node pt p = some a ∧ (m.setPte pt i Pte.zero).tbl a j = m.tbl a j := by
    intro p a j hp ha hv
    rw [hnode hp.le] at ha
    split at ha
    · cases ha
    · refine ⟨ha, ?_⟩
      rw [tbl_setPte] at hv ⊢
      unfold Radix.setEntry at hv ⊢
      split at hv
      · cases hv
      · next hne => rw [if_neg hne]
  constructor
  · rw [tbl_setPte]
    exact h.sep.clear (q := []) (by simp) rfl rfl
  · intro a
    rw [Set.mem_sdiff, h.mem_own]
    constructor
    · rintro ⟨⟨p, hp, ha⟩, hnot⟩
      refine ⟨p, hp, ?_⟩
      rw [hnode hp.le, if_neg, ha]
      rintro ⟨q, rfl⟩
      exact hnot ⟨i, List.mem_singleton_self i, q, by simpa using hp, ha⟩
    · rintro ⟨p, hp, ha⟩
      rw [hnode hp.le] at ha
      split at ha
      · cases ha
      · next hpre =>
        refine ⟨⟨p, hp, ha⟩, ?_⟩
        rintro ⟨j, hj, q, hq, hqa⟩
        obtain rfl := List.mem_singleton.mp hj
        have hpq := h.sep p (j :: q) a hp.le (by simp; omega) ha hqa
        exact hpre (hpq ▸ ⟨q, rfl⟩)
  · intro p a j hp ha hv
    obtain ⟨ha', he⟩ := hentry p a j (by omega) ha hv
    rw [he] at hv ⊢
    exact h.inner p a j hp ha' hv
  · intro p a j hp ha hv
    obtain ⟨ha', he⟩ := hentry p a j (by omega) ha hv
    rw [he] at hv ⊢
    exact h.readable p a j hp ha' hv

/-- One entry of the loop of `freewalk`. -/
theorem freewalkLoop_step {pt : Frame} {d : Nat} {i : Fin 512} {rest : List (Fin 512)}
    (ih : ∀ {m m' : Mem} {pt : Frame} {own : Set Frame}, Tables m pt d own → m.store.Owned own →
      freewalk d pt m = .ok ((), m') → m.Acts own m' ∅)
    (h : Tables m pt (d + 1) own) (ho : m.store.Owned own)
    (hrun : freewalkLoop (freewalk d) pt (i :: rest) m = .ok ((), m')) :
    ∃ m₁ own₁, Tables m₁ pt (d + 1) own₁ ∧ m.Acts own m₁ own₁ ∧
      (0 < d → (m₁.tbl pt i).v = false) ∧ (∀ j, (m.tbl pt j).v = false → (m₁.tbl pt j).v = false) ∧
      freewalkLoop (freewalk d) pt rest m₁ = .ok ((), m') := by
  rw [freewalkLoop, Halting.bind_of_ok (readPte_apply _ _ _)] at hrun
  split at hrun
  · next hchild =>
    have hv : (m.tbl pt i).v = true := by
      simp only [Bool.and_eq_true] at hchild
      exact hchild.1.1.1
    obtain ⟨_, m₁, hfw, hrun⟩ := Halting.bind_eq_ok.mp hrun
    obtain ⟨_, m₂, hwr, hrun⟩ := Halting.bind_eq_ok.mp hrun
    cases hwr
    have hc := h.child hv
    have hacts := ih hc (ho.mono h.child_subset) hfw
    -- the frame rule: the rest of the tree is not touched
    have hacts₁ := hacts.frame_sdiff ho h.child_subset
    have htbl : ∀ a ∈ own \ childTables m pt d [i], m₁.tbl a = m.tbl a := fun a ha => by
      funext j
      rw [Mem.tbl, Mem.tbl, hacts.phys ha.2 fun hf => ho.disjoint a hf ha.1]
    have hpt : pt ∈ own \ childTables m pt d [i] := by
      refine ⟨h.self_mem, ?_⟩
      rintro ⟨j, -, p, hp, ha⟩
      have hpq := h.sep [] (j :: p) pt (by simp) (by simpa using hp.le) rfl ha
      cases hpq
    refine ⟨m₁.setPte pt i Pte.zero, _, ?_, hacts₁.trans (setPage_acts hacts₁.owned hpt),
      fun _ => ?_, fun j hj => ?_, hrun⟩
    · refine h.clear.congr fun a ha => ?_
      rw [tbl_setPte, tbl_setPte]
      funext j
      unfold Radix.setEntry
      rw [htbl a ha]
    · rw [tbl_setPte, Radix.setEntry_self]
      rfl
    · rw [tbl_setPte]
      unfold Radix.setEntry
      split
      · rfl
      · rw [htbl pt hpt, hj]
  · next hleaf =>
    refine ⟨m, own, h, Mem.Acts.refl ho, fun hd => ?_, fun _ hj => hj, hrun⟩
    -- above the last level a valid entry has no permission bits
    by_contra hv
    have hp := h.inner [] pt i (by simpa using hd) rfl (by simpa using hv)
    rw [hp] at hleaf
    simp only [Bool.not_eq_false] at hv
    simp [hv] at hleaf

theorem freewalkLoop_spec {pt : Frame} {d : Nat}
    (ih : ∀ {m m' : Mem} {pt : Frame} {own : Set Frame}, Tables m pt d own → m.store.Owned own →
      freewalk d pt m = .ok ((), m') → m.Acts own m' ∅) :
    ∀ (is : List (Fin 512)) {m m' : Mem} {own : Set Frame}, Tables m pt (d + 1) own →
      m.store.Owned own → freewalkLoop (freewalk d) pt is m = .ok ((), m') →
      ∃ own', Tables m' pt (d + 1) own' ∧ m.Acts own m' own' ∧
        (∀ i ∈ is, 0 < d → (m'.tbl pt i).v = false) ∧
        ∀ j, (m.tbl pt j).v = false → (m'.tbl pt j).v = false := by
  intro is
  induction is with
  | nil =>
    intro m m' own h ho hrun
    cases hrun
    exact ⟨own, h, Mem.Acts.refl ho, fun _ hi => absurd hi List.not_mem_nil, fun _ hj => hj⟩
  | cons i rest ihl =>
    intro m m' own h ho hrun
    obtain ⟨m₁, own₁, h₁, hacts₁, hi₁, hkeep₁, hrun₁⟩ := freewalkLoop_step ih h ho hrun
    obtain ⟨own', h', hacts', hi', hkeep'⟩ := ihl h₁ hacts₁.owned hrun₁
    refine ⟨own', h', hacts₁.trans hacts', ?_, fun j hj => hkeep' j (hkeep₁ j hj)⟩
    intro j hj hd
    rcases List.mem_cons.mp hj with rfl | hj
    · exact hkeep' j (hi₁ hd)
    · exact hi' j hj hd

/-- **`freewalk`** frees the page-table pages, all of them and nothing else. -/
theorem freewalk_spec :
    ∀ d {m m' : Mem} {pt : Frame} {own : Set Frame}, Tables m pt d own → m.store.Owned own →
      freewalk d pt m = .ok ((), m') → m.Acts own m' ∅ := by
  intro d
  induction d with
  | zero =>
    intro m m' pt own _ _ hrun
    cases hrun
  | succ d ih =>
    intro m m' pt own h ho hrun
    rw [freewalk] at hrun
    obtain ⟨_, m₁, hloop, hk⟩ := Halting.bind_eq_ok.mp hrun
    obtain ⟨own₁, h₁, hacts₁, hi₁, -⟩ := freewalkLoop_spec ih _ h ho hloop
    -- no entry is left above the last level, so only `pt` is
    have hown₁ : own₁ = {pt} := by
      ext a
      rw [h₁.mem_own, Set.mem_singleton_iff]
      constructor
      · rintro ⟨p, hp, ha⟩
        cases p with
        | nil => exact (Option.some.inj ha).symm
        | cons i p =>
          exfalso
          have hd : 0 < d := by simp only [List.length_cons] at hp; omega
          rw [Mem.node, Radix.node_cons,
            Pte.next_eq_none.mpr (hi₁ i (List.mem_finRange i) hd)] at ha
          cases ha
      · rintro rfl
        exact ⟨[], by simp, rfl⟩
    obtain ⟨hacts, -⟩ := kfree_spec hk hacts₁.owned h₁.self_mem
    have := hacts₁.trans hacts
    rwa [hown₁, Set.sdiff_self] at this

/-- The page-table pages of an address space, without the user pages. -/
def tablesOf (m : Mem) (root : Frame) :
    Set Frame := {a | ∃ p, p.length < 3 ∧ m.node root p = some a}

theorem Space.tables (h : Space m root shared own) : Tables m root 3 (tablesOf m root) where
  sep := h.sep
  mem_own _ := Iff.rfl
  inner p a i hp ha hv := h.inner p a i (by omega) ha hv
  readable p a i hp ha hv := h.readable p i _ (by omega) (leaf_eq_some.mpr ⟨a, ha, hv, rfl⟩)

theorem Space.tables_subset (h : Space m root shared own) : tablesOf m root ⊆ own := by
  rintro a ⟨p, hp, ha⟩
  exact h.table_own (by omega) ha

/-- **`freewalk` of an address space** frees its page-table pages; user pages that are still mapped
are lost. -/
theorem Space.freewalk (h : Space m root shared own) (hrun : freewalk 3 root m = .ok ((), m')) :
    m.Acts own m' (own \ tablesOf m root) := by
  have hacts := freewalk_spec 3 h.tables (h.owned.mono h.tables_subset) hrun
  exact hacts.frame_sdiff h.owned h.tables_subset

/-- The frames that `freewalk` loses are those of user pages. -/
theorem Space.lost_iff (h : Space m root shared own) (a : Frame) :
    a ∈ own \ tablesOf m root ↔ ∃ va e, va < maxVa ∧ m.lookup root va = some e ∧
      e.perm.u = true ∧ e.ppn = a := by
  constructor
  · rintro ⟨hown, hnot⟩
    obtain ⟨hsh, p, hp, ha⟩ := (h.mem_own a).mp hown
    have hlen : p.length = 3 := by
      by_contra hne
      exact hnot ⟨p, by omega, ha⟩
    obtain ⟨q, i, rfl⟩ : ∃ q i, p = q ++ [i] := by
      rcases List.eq_nil_or_concat p with rfl | ⟨q, i, rfl⟩
      · simp at hlen
      · exact ⟨q, i, List.concat_eq_append⟩
    have hq : q.length = 2 := by simpa using hlen
    obtain ⟨e, he, rfl⟩ := leaf_of_node ha
    obtain ⟨va, hva, rfl, rfl⟩ := h.low q i e hq he
    exact ⟨va, e, hva, (lookup_eq_leaf m root va).trans he, (h.user _ _ e rfl he).mpr hsh, rfl⟩
  · rintro ⟨va, e, -, he, hu, rfl⟩
    rw [lookup_eq_leaf] at he
    refine ⟨h.leaf_own rfl he hu, ?_⟩
    rintro ⟨p, hp, ha⟩
    have hpq := h.sep p _ _ hp.le (by simp) ha (node_of_leaf he)
    rw [hpq] at hp
    simp at hp

/-! ## New address spaces -/

/-- **`uvmcreate`** gives the empty address space. -/
theorem uvmcreate_spec {r : Option Frame} (ho : m.store.Owned ∅)
    (hsh : ∀ a ∈ m.freelist, a ∉ shared) (hrun : uvmcreate m = .ok (r, m')) :
    (r = none ∧ m.Acts ∅ m' ∅) ∨
    ∃ root, r = some root ∧ Space m' root shared {root} ∧ m.Acts ∅ m' {root} ∧
      (∀ va, m'.lookup root va = none) ∧ root ∈ m.freelist := by
  unfold uvmcreate at hrun
  obtain ⟨o, m₁, hk, hrun⟩ := Halting.bind_eq_ok.mp hrun
  rcases kalloc_spec hk ho with ⟨rfl, hacts, -⟩ | ⟨root, rfl, hacts, hfree, -, hphys⟩
  · cases hrun
    exact Or.inl ⟨rfl, hacts⟩
  · obtain ⟨_, m₂, hset, hrun⟩ := Halting.bind_eq_ok.mp hrun
    cases hset
    cases hrun
    rw [insert_empty_eq] at hacts
    have hacts' : m.Acts ∅ (m₁.setPage root (PhysPage.fill 0)) {root} :=
      hacts.trans (setPage_acts hacts.owned (Set.mem_singleton root))
    have hzero : ∀ i, (m₁.setPage root (PhysPage.fill 0)).tbl root i = Pte.zero :=
      fun i => tbl_fill_zero m₁ root i
    -- the root has no entries, so the only path is the empty one
    have hnode : ∀ p a, (m₁.setPage root (PhysPage.fill 0)).node root p = some a → p = [] := by
      intro p a ha
      cases p with
      | nil => rfl
      | cons i p =>
        rw [Mem.node, Radix.node_cons, hzero i, Pte.next_zero] at ha
        cases ha
    have hleaf : ∀ p i e, p.length = 2 →
        (m₁.setPage root (PhysPage.fill 0)).leaf root p i ≠ some e := by
      intro p i e hp he
      obtain ⟨a, ha, -⟩ := leaf_eq_some.mp he
      rw [hnode p a ha] at hp
      simp at hp
    have hrootsh : root ∉ shared := hsh root hfree
    refine Or.inr ⟨root, rfl, ?_, hacts', ?_, hfree⟩
    · constructor
      · intro p q a _ _ hpa hqa
        rw [hnode p a hpa, hnode q a hqa]
      · intro a
        rw [Set.mem_singleton_iff]
        constructor
        · rintro rfl
          exact ⟨hrootsh, [], by simp, rfl⟩
        · rintro ⟨-, p, -, ha⟩
          rw [hnode p a ha] at ha
          exact (Option.some.inj ha).symm
      · intro p a _ ha
        rw [hnode p a ha] at ha
        rwa [← Option.some.inj ha]
      · intro p a i _ ha hv
        have hp := hnode p a ha
        subst hp
        obtain rfl := Option.some.inj ha
        rw [hzero i] at hv
        cases hv
      · exact fun p i e hp he => absurd he (hleaf p i e hp)
      · exact fun p i e hp he => absurd he (hleaf p i e hp)
      · exact fun p i e hp he => absurd he (hleaf p i e hp)
      · exact hacts'.owned
      · intro a ha
        rcases (hacts'.mem_total a).mp (Or.inr ha) with hc | hc
        · exact absurd hc (Set.notMem_empty a)
        · exact hsh a hc
    · intro va
      rw [lookup_eq_leaf]
      cases he : (m₁.setPage root (PhysPage.fill 0)).leaf root (vpath va) (px 0 va) with
      | none => rfl
      | some e => exact absurd he (hleaf _ _ e rfl)

end Xv6
