import OsnMp2.Kernel.UserSpace

/-!
# What the fault handler does

Every way in which `demand_page_load_new` can return, from a process with a user address
space: it refuses the access, finds the page present, gives up after an eviction at most, or
loads the page. Each outcome says what becomes of the page table, of the bytes of the mapped
pages and of the paging metadata.

## Main definitions

* `Kept`: what happens to the address space when the pages in `P` go away
* `Eviction`: what an eviction does to the process, and the page it takes
* `loadBytes`, `loadPerm`: the content and the permissions a page is loaded with
* `Fault`: the outcomes of the fault handler

## Main results

* `demandPageLoadNew_spec`: the fault handler has one of these outcomes
-/

namespace Xv6

variable {m m' m'' : Mem} {t t' : Task} {root tf : Frame} {own own' own'' : Set Frame}

/-! ## Computations of a task -/

theorem onMem_eq_ok {α : Type} {x : VM α} {a : α} :
    onMem x t = .ok (a, t') ↔ ∃ m, x t.mem = .ok (a, m) ∧ t' = ⟨m, t.p⟩ := Halting.zoom_eq_ok

theorem pagetableOf_apply (h : t.p.pagetable = some root) : pagetableOf t = .ok (root, t) := by
  unfold pagetableOf
  rw [h]

theorem setProc_apply (f : Proc → Proc) (t : Task) : setProc f t = .ok ((), ⟨t.mem, f t.p⟩) := rfl

theorem onMem_readPte (f : Frame) (i : Fin 512) (t : Task) :
    onMem (readPte f i) t = .ok (t.mem.tbl f i, t) := rfl

theorem onMem_walk {va : Nat} (hva : va < maxVa) :
    onMem (walk root va false) t =
      .ok ((t.mem.node root (vpath va)).map (fun a => (a, px 0 va)), t) := by
  unfold onMem Halting.zoom
  rw [walk_noalloc hva]

theorem liftFs_eq_ok {α : Type} {x : Except Halt α} {a : α} :
    liftFs x t = .ok (a, t') ↔ x = .ok a ∧ t' = t := by
  unfold liftFs
  cases x with
  | error e => simp [Except.map]
  | ok b =>
    simp only [Except.map, Except.ok.injEq, Prod.mk.injEq]
    constructor
    · rintro ⟨h, h'⟩
      exact ⟨h, h'.symm⟩
    · rintro ⟨h, h'⟩
      exact ⟨h, h'.symm⟩

theorem lookup_of_node {va : Nat} {pt : Frame} (h : m.node root (vpath va) = some pt) :
    m.lookup root va = if (m.tbl pt (px 0 va)).v then some (m.tbl pt (px 0 va)) else none := by
  rw [lookup_eq_leaf, Mem.leaf, h, Option.bind_some]

theorem lookup_of_no_node {va : Nat} (h : m.node root (vpath va) = none) :
    m.lookup root va = none := by
  rw [lookup_eq_leaf, Mem.leaf, h, Option.bind_none]

theorem lookup_of_page {va va' : Nat} (h : va / pgSize = va' / pgSize) :
    m.lookup root va = m.lookup root va' := by
  rw [← lookup_pgRoundDown, pgRoundDown, h, ← pgRoundDown, lookup_pgRoundDown]

/-! ## Pages going away -/

/-- The pages in `P` are gone; the other ones, and the bytes of their frames, are as they were. -/
structure Kept (m : Mem) (root : Frame) (own : Set Frame) (P : Nat → Prop) (m' : Mem)
    (own' : Set Frame) : Prop where
  acts : m.Acts own m' own'
  lookup : ∀ va, va < maxVa → ¬ P (va / pgSize) → m'.lookup root va = m.lookup root va
  gone : ∀ va, va < maxVa → P (va / pgSize) → m'.lookup root va = none
  byte : ∀ va e, va < maxVa → ¬ P (va / pgSize) → m.lookup root va = some e → e.perm.u = true →
    (m'.phys e.ppn).byte = (m.phys e.ppn).byte
  node : ∀ p a, p.length ≤ 2 → m.node root p = some a → m'.node root p = some a

theorem Kept.refl (h : m.store.Owned own) : Kept m root own (fun _ => False) m own :=
  ⟨Mem.Acts.refl h, fun _ _ _ => rfl, fun _ _ hc => hc.elim, fun _ _ _ _ _ _ => rfl,
    fun _ _ _ ha => ha⟩

theorem Kept.trans {P Q : Nat → Prop} (h : Kept m root own P m' own')
    (h' : Kept m' root own' Q m'' own'') : Kept m root own (fun q => P q ∨ Q q) m'' own'' where
  acts := h.acts.trans h'.acts
  lookup va hva hn := by
    rw [not_or] at hn
    rw [h'.lookup va hva hn.2, h.lookup va hva hn.1]
  gone va hva hn := by
    by_cases hq : Q (va / pgSize)
    · exact h'.gone va hva hq
    · rw [h'.lookup va hva hq, h.gone va hva (hn.resolve_right hq)]
  byte va e hva hn he hu := by
    rw [not_or] at hn
    rw [h'.byte va e hva hn.2 ((h.lookup va hva hn.1).trans he) hu, h.byte va e hva hn.1 he hu]
  node p a hp ha := h'.node p a hp (h.node p a hp ha)

/-- What pages are gone matters below `MAXVA` only. -/
theorem Kept.congr {P Q : Nat → Prop} (h : Kept m root own P m' own') (hpq : ∀ q, P q ↔ Q q) :
    Kept m root own Q m' own' where
  acts := h.acts
  lookup va hva hn := h.lookup va hva (mt (hpq _).mp hn)
  gone va hva hn := h.gone va hva ((hpq _).mpr hn)
  byte va e hva hn := h.byte va e hva (mt (hpq _).mp hn)
  node := h.node

theorem Unmapped.kept {P : Nat → Prop} (h' : UserSpace m' root tf own')
    (hu : Unmapped m root own P m' own') : Kept m root own P m' own' where
  acts := hu.acts
  lookup := hu.lookup
  gone := hu.gone
  byte va e hva hn he hue := by
    have he' := (hu.lookup va hva hn).trans he
    exact hu.byte _ fun hf => h'.space.owned.disjoint _ hf
      (h'.space.leaf_own rfl ((lookup_eq_leaf m' root va).symm.trans he') hue)
  node := hu.node

/-! ## Eviction -/

/-- **What an eviction does to the process**, and the page it takes: nothing but taking a swap slot,
or the oldest resident page, which is discarded when it is marked clean and appended to the swapped
pages when it is marked dirty. -/
inductive Eviction (t : Task) (root : Frame) : Proc → (Nat → Prop) → Prop
  | idle (slots : Nat → Bool) : Eviction t root { t.p with swapSlots := slots } fun _ => False
  | discard {idx : Nat} {victim : ResidentPage} (oldest : findVictimPage t.p.resident = some idx)
      (entry : t.p.resident[idx]? = some victim) (clean : victim.isDirty = false) :
      Eviction t root { t.p with resident := t.p.resident.eraseP fun e => e.va == victim.va }
        (· = victim.va / pgSize)
  | swapOut {idx : Nat} {victim : ResidentPage} {slot : Nat} {e : Pte}
      (oldest : findVictimPage t.p.resident = some idx)
      (entry : t.p.resident[idx]? = some victim) (dirty : victim.isDirty = true)
      (mapped : t.mem.lookup root victim.va = some e) (room : t.p.swapped.length < 8)
      (free : t.p.swapSlots slot = false) :
      Eviction t root { t.p with
        resident := t.p.resident.eraseP fun e => e.va == victim.va
        swapped := t.p.swapped ++ [⟨victim.va, slot, (t.mem.phys e.ppn).byte⟩]
        swapSlots := Function.update t.p.swapSlots slot true } (· = victim.va / pgSize)

/-- `freeVictim` unmaps the page. -/
theorem freeVictim_spec (root : Frame) (h : UserSpace t.mem root tf own)
    (hp : t.p.pagetable = some root) {va : Nat}
    (hva : va < trapframeVa) (hrun : freeVictim va t = .ok ((), t')) :
    t'.p = t.p ∧ ∃ own', UserSpace t'.mem root tf own' ∧
      Kept t.mem root own (· = va / pgSize) t'.mem own' := by
  have hlow : va < maxVa := by simp only [trapframeVa, trampolineVa, maxVa, pgSize] at *; omega
  have hpage : va / pgSize < trapframeVa / pgSize := by
    simp only [trapframeVa, trampolineVa, maxVa, pgSize] at *
    omega
  -- where the page is not mapped, nothing happens
  have hnone : t.mem.lookup root va = none →
      Kept t.mem root own (· = va / pgSize) t.mem own := fun hl =>
    (Unmapped.refl h.space fun va' _ hq => (lookup_of_page hq).trans hl).kept h
  unfold freeVictim at hrun
  rw [Halting.bind_of_ok (pagetableOf_apply hp), Halting.bind_of_ok (onMem_walk hlow)] at hrun
  cases hpt : t.mem.node root (vpath va) with
  | none =>
    rw [hpt] at hrun
    cases hrun
    exact ⟨rfl, own, h, hnone (lookup_of_no_node hpt)⟩
  | some pt =>
    rw [hpt, Option.map_some] at hrun
    dsimp only at hrun
    rw [Halting.bind_of_ok (onMem_readPte _ _ _)] at hrun
    have hlook := lookup_of_node hpt
    split at hrun
    · next hv =>
      rw [if_pos hv] at hlook
      obtain ⟨_, t₁, hk, hrun⟩ := Halting.bind_eq_ok.mp hrun
      obtain ⟨m₁, hkm, rfl⟩ := onMem_eq_ok.mp hk
      obtain ⟨m₂, hw, rfl⟩ := onMem_eq_ok.mp hrun
      cases hw
      obtain ⟨hsp, hun⟩ := h.space.freeLeaf hlow hpt hv (h.user hva hlook) hkm
      have husp := h.unmapped hsp hun fun q hq => hq ▸ hpage
      exact ⟨rfl, _, husp, hun.kept husp⟩
    · next hv =>
      rw [if_neg hv] at hlook
      cases hrun
      exact ⟨rfl, own, h, hnone hlook⟩

/-- `swap_out_page` appends the page to the swapped ones, or changes nothing. -/
theorem swapOutPage_spec (root : Frame) (hp : t.p.pagetable = some root) {va slot : Nat} {r : Int}
    (hva : va < maxVa) (hrun : swapOutPage va slot t = .ok (r, t')) :
    (r = -1 ∧ t' = t) ∨
    (r = 0 ∧ ∃ e, t.mem.lookup root va = some e ∧ t.p.swapped.length < 8 ∧
      t' = ⟨t.mem, { t.p with swapped := t.p.swapped ++
        [⟨va, slot, (t.mem.phys e.ppn).byte⟩] }⟩) := by
  unfold swapOutPage at hrun
  rw [Halting.bind_of_ok (pagetableOf_apply hp), Halting.bind_of_ok (onMem_walk hva)] at hrun
  cases hpt : t.mem.node root (vpath va) with
  | none =>
    rw [hpt] at hrun
    cases hrun
    exact Or.inl ⟨rfl, rfl⟩
  | some pt =>
    rw [hpt, Option.map_some] at hrun
    dsimp only at hrun
    rw [Halting.bind_of_ok (onMem_readPte _ _ _), Halting.bind_of_ok (Halting.get_apply _)] at hrun
    have hlook := lookup_of_node hpt
    split at hrun
    · cases hrun
      exact Or.inl ⟨rfl, rfl⟩
    next hv =>
    rw [if_pos (by simpa using hv)] at hlook
    split at hrun
    · cases hrun
      exact Or.inl ⟨rfl, rfl⟩
    · next hlen =>
      obtain ⟨_, t₁, hset, hrun⟩ := Halting.bind_eq_ok.mp hrun
      cases hset
      cases hrun
      exact Or.inr ⟨rfl, _, hlook, by omega, rfl⟩

theorem findFreeSwapSlot_spec {r : Option Nat} (hrun : findFreeSwapSlot t = .ok (r, t')) :
    (r = none ∧ t' = t) ∨
    ∃ slot, r = some slot ∧ t.p.swapSlots slot = false ∧
      t' = ⟨t.mem, { t.p with swapSlots := Function.update t.p.swapSlots slot true }⟩ := by
  unfold findFreeSwapSlot at hrun
  rw [Halting.bind_of_ok (Halting.get_apply _)] at hrun
  cases hfind : (List.range 1024).find? fun i => !t.p.swapSlots i with
  | none =>
    rw [hfind] at hrun
    cases hrun
    exact Or.inl ⟨rfl, rfl⟩
  | some slot =>
    rw [hfind] at hrun
    obtain ⟨_, t₁, hset, hrun⟩ := Halting.bind_eq_ok.mp hrun
    cases hset
    cases hrun
    exact Or.inr ⟨slot, rfl, by simpa using List.find?_some hfind, rfl⟩

/-- **Eviction**: one page goes, or none and the handler gives up. -/
theorem evictPage_spec (h : UserSpace t.mem root tf own) (hp : t.p.pagetable = some root)
    (hres : ∀ e ∈ t.p.resident, e.va < trapframeVa) {r : Bool} (hrun : evictPage t = .ok (r, t')) :
    ∃ P own', UserSpace t'.mem root tf own' ∧ Eviction t root t'.p P ∧
      Kept t.mem root own P t'.mem own' ∧ (r = false → t'.mem = t.mem) := by
  -- The two ways to fail leave the memory alone: with a slot taken, and before that.
  have hstay : ∀ slots, (⟨t.mem, { t.p with swapSlots := slots }⟩ : Task) = t' → r = false →
      ∃ P own', UserSpace t'.mem root tf own' ∧ Eviction t root t'.p P ∧
        Kept t.mem root own P t'.mem own' ∧ (r = false → t'.mem = t.mem) := by
    rintro slots rfl -
    exact ⟨_, own, h, .idle slots, Kept.refl h.space.owned, fun _ => rfl⟩
  have hsame : t = t' → r = false →
      ∃ P own', UserSpace t'.mem root tf own' ∧ Eviction t root t'.p P ∧
        Kept t.mem root own P t'.mem own' ∧ (r = false → t'.mem = t.mem) := by
    rintro rfl -
    exact ⟨_, own, h, .idle t.p.swapSlots, Kept.refl h.space.owned, fun _ => rfl⟩
  unfold evictPage at hrun
  rw [Halting.bind_of_ok (Halting.get_apply _)] at hrun
  cases hidx : findVictimPage t.p.resident with
  | none =>
    rw [hidx] at hrun
    obtain ⟨hr, ht⟩ := Halting.pure_eq_ok.mp hrun
    exact hsame ht hr.symm
  | some idx =>
    rw [hidx] at hrun
    dsimp only at hrun
    cases hvic : t.p.resident[idx]? with
    | none =>
      rw [hvic] at hrun
      obtain ⟨hr, ht⟩ := Halting.pure_eq_ok.mp hrun
      exact hsame ht hr.symm
    | some victim =>
      rw [hvic] at hrun
      dsimp only at hrun
      have hva : victim.va < trapframeVa := hres victim (List.mem_of_getElem? hvic)
      have hlow : victim.va < maxVa := by
        simp only [trapframeVa, trampolineVa, maxVa, pgSize] at *
        omega
      cases hd : victim.isDirty with
      | true =>
        rw [hd, if_pos rfl] at hrun
        obtain ⟨o, t₁, hslot, hrun⟩ := Halting.bind_eq_ok.mp hrun
        rcases findFreeSwapSlot_spec hslot with ⟨rfl, ht₁⟩ | ⟨slot, rfl, hfree, rfl⟩
        · obtain ⟨hr, ht⟩ := Halting.pure_eq_ok.mp hrun
          exact hsame (ht₁.symm.trans ht) hr.symm
        dsimp only at hrun
        obtain ⟨r₂, t₂, hout, hrun⟩ := Halting.bind_eq_ok.mp hrun
        -- A refusal comes before anything is copied.
        rcases swapOutPage_spec root (by exact hp) hlow hout with
          ⟨rfl, rfl⟩ | ⟨rfl, e, hlook, hroom, rfl⟩
        · rw [if_pos (by decide)] at hrun
          obtain ⟨hr, ht⟩ := Halting.pure_eq_ok.mp hrun
          exact hstay _ ht hr.symm
        · rw [if_neg (by decide)] at hrun
          obtain ⟨_, t₃, hfv, hrun⟩ := Halting.bind_eq_ok.mp hrun
          obtain ⟨_, t₄, hrem, hrun⟩ := Halting.bind_eq_ok.mp hrun
          obtain ⟨hp₃, own', husp, hkept⟩ := freeVictim_spec root (by exact h) (by exact hp) hva hfv
          cases hrem
          cases hrun
          refine ⟨_, own', husp, ?_, hkept, fun hc => by cases hc⟩
          rw [show (⟨t₃.mem, _⟩ : Task).p = _ from rfl, hp₃]
          exact .swapOut hidx hvic hd hlook hroom hfree
      | false =>
        rw [hd, if_neg (by decide)] at hrun
        obtain ⟨_, t₃, hfv, hrun⟩ := Halting.bind_eq_ok.mp hrun
        obtain ⟨_, t₄, hrem, hrun⟩ := Halting.bind_eq_ok.mp hrun
        obtain ⟨hp₃, own', husp, hkept⟩ := freeVictim_spec root h hp hva hfv
        cases hrem
        cases hrun
        refine ⟨_, own', husp, ?_, hkept, fun hc => by cases hc⟩
        rw [show (⟨t₃.mem, _⟩ : Task).p = _ from rfl, hp₃]
        exact .discard hidx hvic hd

/-! ## A frame for the page -/

/-- The allocator has no frame for this CPU. -/
def Mem.Exhausted (m : Mem) : Prop := m.freelist = [] ∨ m.starved.head? = some true

/-- Page replacement is needed: the process has its limit of resident pages, or there is no
frame. -/
def MemFull (t : Task) : Prop := maxResidentPages ≤ t.p.resident.length ∨ t.mem.Exhausted

theorem kalloc_none (h : kalloc m = .ok (none, m')) : m.Exhausted := by
  unfold kalloc at h
  split at h
  · next hs => exact Or.inr (by rw [hs]; rfl)
  · next hs _ => exact Or.inl hs
  · cases h

/-- The memory `m` is `m₁` with the frame `f` taken from its free list and not mapped yet. -/
structure Holds (m₁ : Mem) (root tf : Frame) (own : Set Frame) (f : Frame) (m : Mem) : Prop where
  held : Held m root tf own f
  acts : m₁.Acts own m (own ∪ {f})
  phys : ∀ a, a ≠ f → m.phys a = m₁.phys a
  free : f ∈ m₁.freelist

section Holds

variable {m₁ : Mem} {f : Frame}

theorem Holds.lookup (h₁ : UserSpace m₁ root tf own) (h : Holds m₁ root tf own f m) (va : Nat) :
    m.lookup root va = m₁.lookup root va := by
  refine h₁.lookup_congr (fun a ha => ?_) va
  rw [h.phys a]
  rintro rfl
  exact h.held.notMem ha

theorem Holds.setPage (h : Holds m₁ root tf own f m) (pg : PhysPage) :
    Holds m₁ root tf own f (m.setPage f pg) := by
  obtain ⟨hheld, hacts⟩ := h.held.setPage pg
  exact ⟨hheld, h.acts.trans hacts, fun a ha => (phys_setPage_of_ne ha).trans (h.phys a ha), h.free⟩

theorem Holds.ne_leaf (h₁ : UserSpace m₁ root tf own) (h : Holds m₁ root tf own f m) {va : Nat}
    {e : Pte} (he : m₁.lookup root va = some e) (hu : e.perm.u = true) : e.ppn ≠ f := by
  rintro rfl
  exact h.held.notMem (h₁.space.leaf_own rfl ((lookup_eq_leaf m₁ root va).symm.trans he) hu)

theorem Holds.node (h₁ : UserSpace m₁ root tf own) (h : Holds m₁ root tf own f m)
    {p : List (Fin 512)} (hp : p.length ≤ 2) : m.node root p = m₁.node root p := by
  refine node_congr_tables (fun q a hq ha => ?_) (by omega)
  funext i
  rw [Mem.tbl, Mem.tbl, h.phys a]
  rintro rfl
  exact h.held.notMem (h₁.space.table_own hq ha)

/-- Giving the frame back leaves the address space as it was. -/
theorem Holds.kfree (h₁ : UserSpace m₁ root tf own) (h : Holds m₁ root tf own f m)
    (hk : Xv6.kfree f m = .ok ((), m')) :
    UserSpace m' root tf own ∧ Kept m₁ root own (fun _ => False) m' own := by
  obtain ⟨h', hacts, hphys, -⟩ := h.held.kfree hk
  have hphys' : ∀ a, a ≠ f → m'.phys a = m₁.phys a := fun a ha => (hphys a ha).trans (h.phys a ha)
  have hne : ∀ a ∈ own, a ≠ f := fun a ha hc => h.held.notMem (hc ▸ ha)
  refine ⟨h', h.acts.trans hacts, fun va _ _ => ?_, fun _ _ hc => hc.elim, ?_, ?_⟩
  · exact h₁.lookup_congr (fun a ha => by rw [hphys' a (hne a ha)]) va
  · intro va e _ _ he hu
    rw [hphys' _ (h.ne_leaf h₁ he hu)]
  · intro p a hp ha
    rw [← ha]
    refine node_congr_tables (fun q b hq hb => ?_) (by omega)
    funext i
    rw [Mem.tbl, Mem.tbl, hphys' b (hne b (h₁.space.table_own hq hb))]

end Holds

/-- The address space after the page `va` was mapped to the frame `f` with bytes `b`. -/
structure PageIn (m : Mem) (root : Frame) (own : Set Frame) (P : Nat → Prop) (va : Nat)
    (perm : Perm) (b : Nat → UInt8) (m' : Mem) (own' : Set Frame) : Prop where
  low : va < maxVa
  acts : m.Acts own m' own'
  page : ∃ f, m'.lookup root va = some ⟨true, perm, f⟩ ∧ (m'.phys f).byte = b
  lookup : ∀ va', va' < maxVa → va' / pgSize ≠ va / pgSize → ¬ P (va' / pgSize) →
    m'.lookup root va' = m.lookup root va'
  gone : ∀ va', va' < maxVa → va' / pgSize ≠ va / pgSize → P (va' / pgSize) →
    m'.lookup root va' = none
  byte : ∀ va' e, va' < maxVa → va' / pgSize ≠ va / pgSize → ¬ P (va' / pgSize) →
    m.lookup root va' = some e → e.perm.u = true → (m'.phys e.ppn).byte = (m.phys e.ppn).byte
  node : ∀ p a, p.length ≤ 2 → m.node root p = some a → m'.node root p = some a

/-- **Mapping a held frame**, after the pages in `P` have gone. -/
theorem Holds.mapUser {m₀ m₁ : Mem} {own₀ : Set Frame} {f : Frame} {P : Nat → Prop}
    (hk : Kept m₀ root own₀ P m₁ own) (h₁ : UserSpace m₁ root tf own)
    (h : Holds m₁ root tf own f m) {va : Nat} {perm : Perm} {r : Int} (hr : perm.r = true)
    (hu : perm.u = true) (hrun : mappages root va pgSize f perm m = .ok (r, m')) :
    (r = -1 ∧ m₀.node root (vpath va) = none ∧ ∀ m'', Xv6.kfree f m' = .ok ((), m'') →
      ∃ own', UserSpace m'' root tf own' ∧ Kept m₀ root own₀ P m'' own') ∨
    (r = 0 ∧ ∃ own', UserSpace m' root tf own' ∧
      PageIn m₀ root own₀ P va perm (m.phys f).byte m' own') := by
  rcases h.held.mapUser hr hu hrun with ⟨rfl, hnode, own', hheld, hg, hacts⟩ | ⟨rfl, own', h', hat⟩
  -- A failed mapping has added tables at most, and the frame goes back to the free list.
  · refine Or.inl ⟨rfl, ?_, fun m'' hkf => ?_⟩
    · rw [h.node h₁ (by simp)] at hnode
      cases hn : m₀.node root (vpath va) with
      | none => rfl
      | some a =>
        rw [hk.node _ a (by simp) hn] at hnode
        cases hnode
    · obtain ⟨h'', hacts'', hphys'', -⟩ := hheld.kfree hkf
      have hne : ∀ a ∈ own', a ≠ f := fun a ha hc => hheld.notMem (hc ▸ ha)
      -- what the freeing leaves is what there was before the frame was taken
      have hk₁ : Kept m₁ root own (fun _ => False) m'' own' := by
        refine ⟨h.acts.trans (hacts.trans hacts''), fun va' _ _ => ?_,
          fun _ _ hc => hc.elim, ?_, ?_⟩
        · rw [hheld.user.lookup_congr (fun a ha => by rw [hphys'' a (hne a ha)]), hg.lookup,
            h.lookup h₁]
        · intro va' e _ _ he hue
          have hef := h.ne_leaf h₁ he hue
          have heown := h₁.space.leaf_own rfl ((lookup_eq_leaf m₁ root va').symm.trans he) hue
          rw [hphys'' _ hef, hg.byte _ fun hf => h.held.owned.disjoint _ hf (Or.inl heown),
            h.phys _ hef]
        · intro p a hp ha
          rw [← h.node h₁ hp] at ha
          have ha' := hg.node p a hp ha
          rw [← ha']
          refine node_congr_tables (fun q b hq hb => ?_) (by omega)
          funext i
          rw [Mem.tbl, Mem.tbl, hphys'' b (hne b (hheld.user.space.table_own hq hb))]
      exact ⟨own', h'', (hk.trans hk₁).congr fun q => by simp⟩
  · have hlook : ∀ va', va' < maxVa → va' / pgSize ≠ va / pgSize →
        m'.lookup root va' = m₁.lookup root va' := fun va' hva' hp => by
      rw [hat.lookup va' hva', if_neg hp, h.lookup h₁]
    refine Or.inr ⟨rfl, own', h', hat.low, hk.acts.trans (h.acts.trans hat.acts),
      ⟨f, ?_, ?_⟩, ?_, ?_, ?_, ?_⟩
    · rw [hat.lookup va hat.low, if_pos rfl]
    · exact hat.byte f h.held.not_free
    · intro va' hva' hp hP
      rw [hlook va' hva' hp, hk.lookup va' hva' hP]
    · intro va' hva' hp hP
      rw [hlook va' hva' hp, hk.gone va' hva' hP]
    · intro va' e hva' hp hP he hue
      have he₁ := (hk.lookup va' hva' hP).trans he
      have hef := h.ne_leaf h₁ he₁ hue
      have heown := h₁.space.leaf_own rfl ((lookup_eq_leaf m₁ root va').symm.trans he₁) hue
      rw [hat.byte _ fun hf => h.held.owned.disjoint _ hf (Or.inl heown), h.phys _ hef,
        hk.byte va' e hva' hP he hue]
    · intro p a hp ha
      refine hat.node p a hp ?_
      rw [h.node h₁ hp]
      exact hk.node p a hp ha

/-- What `kalloc` does to an address space: nothing, and a frame to hold at most. -/
theorem UserSpace.kalloc_holds (h : UserSpace m root tf own) {r : Option Frame}
    (hk : Xv6.kalloc m = .ok (r, m')) :
    (r = none ∧ m.Exhausted ∧ UserSpace m' root tf own ∧ Kept m root own (fun _ => False) m' own) ∨
    ∃ f, r = some f ∧ Holds m root tf own f m' := by
  rcases h.kalloc hk with ⟨rfl, h', hacts, hphys, -⟩ | ⟨f, rfl, hheld, hacts, hfree, hphys⟩
  · refine Or.inl ⟨rfl, kalloc_none hk, h', hacts, fun va _ _ => ?_, fun _ _ hc => hc.elim, ?_, ?_⟩
    · exact h.lookup_congr (fun a _ => by rw [hphys]) va
    · intro va e _ _ _ _
      rw [hphys]
    · intro p a _ ha
      rw [← ha, Mem.node, Mem.node, show m'.tbl = m.tbl by funext a i; rw [Mem.tbl, Mem.tbl, hphys]]
  · exact Or.inr ⟨f, rfl, hheld, hacts, hphys, hfree⟩

/-- An eviction depends on physical memory and on the process only. -/
theorem Eviction.of_phys {p p₁ : Proc} {P : Nat → Prop} (hphys : m'.phys = m.phys)
    (h : Eviction ⟨m', p⟩ root p₁ P) : Eviction ⟨m, p⟩ root p₁ P := by
  have hlook : ∀ va, m'.lookup root va = m.lookup root va := fun va => by
    unfold Mem.lookup
    rw [hphys]
  cases h with
  | idle slots => exact .idle slots
  | discard oldest entry clean => exact .discard oldest entry clean
  | swapOut oldest entry dirty mapped room free =>
    have he := Eviction.swapOut (t := ⟨m, p⟩) oldest entry dirty ((hlook _).symm.trans mapped)
      room free
    simpa only [hphys] using he

/-- **A frame for the faulting page**, after an eviction when one is needed. -/
theorem faultFrame_spec (h : UserSpace t.mem root tf own) (hp : t.p.pagetable = some root)
    (hres : ∀ e ∈ t.p.resident, e.va < trapframeVa) {r : Option Frame}
    (hrun : faultFrame t = .ok (r, t')) :
    ∃ P own₁, Eviction t root t'.p P ∧ (∀ q, P q → MemFull t) ∧
      ((r = none ∧ UserSpace t'.mem root tf own₁ ∧ Kept t.mem root own P t'.mem own₁) ∨
        ∃ f m₁, r = some f ∧ UserSpace m₁ root tf own₁ ∧ Kept t.mem root own P m₁ own₁ ∧
          Holds m₁ root tf own₁ f t'.mem) := by
  -- the eviction, from a memory that a failed `kalloc` may have left
  have hevict : ∀ {m₀ : Mem}, MemFull t → m₀.phys = t.mem.phys → UserSpace m₀ root tf own →
      Kept t.mem root own (fun _ => False) m₀ own →
      (do if ← evictPage then onMem kalloc else pure none : TM (Option Frame)) ⟨m₀, t.p⟩ =
        .ok (r, t') →
      ∃ P own₁, Eviction t root t'.p P ∧ (∀ q, P q → MemFull t) ∧
        ((r = none ∧ UserSpace t'.mem root tf own₁ ∧ Kept t.mem root own P t'.mem own₁) ∨
          ∃ f m₁, r = some f ∧ UserSpace m₁ root tf own₁ ∧ Kept t.mem root own P m₁ own₁ ∧
            Holds m₁ root tf own₁ f t'.mem) := by
    intro m₀ hfull hphys h₀ hk₀ hrun
    obtain ⟨b, t₁, hev, hrun⟩ := Halting.bind_eq_ok.mp hrun
    obtain ⟨P, own₁, h₁, hevict, hk₁, -⟩ := evictPage_spec (by exact h₀) (by exact hp)
      (by exact hres) hev
    have hk : Kept t.mem root own P t₁.mem own₁ := (hk₀.trans hk₁).congr fun q => by simp
    have hevict' : Eviction t root t₁.p P := hevict.of_phys hphys
    cases b with
    | false =>
      rw [if_neg (by decide)] at hrun
      obtain ⟨rfl, rfl⟩ := Halting.pure_eq_ok.mp hrun
      exact ⟨P, own₁, hevict', fun _ _ => hfull, Or.inl ⟨rfl, h₁, hk⟩⟩
    | true =>
      rw [if_pos rfl] at hrun
      obtain ⟨m₂, hkal, rfl⟩ := onMem_eq_ok.mp hrun
      rcases h₁.kalloc_holds hkal with ⟨rfl, -, h₂, hk₂⟩ | ⟨f, rfl, hholds⟩
      · exact ⟨P, own₁, hevict', fun _ _ => hfull,
          Or.inl ⟨rfl, h₂, (hk.trans hk₂).congr fun q => by simp⟩⟩
      · exact ⟨P, own₁, hevict', fun _ _ => hfull, Or.inr ⟨f, t₁.mem, rfl, h₁, hk, hholds⟩⟩
  unfold faultFrame at hrun
  rw [Halting.bind_of_ok (Halting.get_apply _)] at hrun
  split at hrun
  · next hlim =>
    obtain ⟨o, t₁, hfirst, hrun⟩ := Halting.bind_eq_ok.mp hrun
    obtain ⟨rfl, rfl⟩ := Halting.pure_eq_ok.mp hfirst
    exact hevict (Or.inl hlim) rfl h (Kept.refl h.space.owned) hrun
  · obtain ⟨o, t₁, hfirst, hrun⟩ := Halting.bind_eq_ok.mp hrun
    obtain ⟨m₁, hkal, rfl⟩ := onMem_eq_ok.mp hfirst
    rcases h.kalloc_holds hkal with ⟨rfl, hex, h₁, hk₁⟩ | ⟨f, rfl, hholds⟩
    · refine hevict (Or.inr hex) ?_ h₁ hk₁ hrun
      rcases kalloc_cases hkal with ⟨-, -, hphys, -⟩ | ⟨f, hf, -⟩
      · exact hphys
      · cases hf
    · obtain ⟨rfl, rfl⟩ := Halting.pure_eq_ok.mp hrun
      exact ⟨fun _ => False, own, .idle t.p.swapSlots, fun _ hc => hc.elim,
        Or.inr ⟨f, t.mem, rfl, h, Kept.refl h.space.owned, hholds⟩⟩

/-! ## Loading -/

/-- The permissions of a page that is not backed by a segment. -/
def fullPerm : Perm := { r := true, w := true, x := true, u := true }

/-- The permissions of a page of a segment. -/
def segPerm (seg : LazySeg) : Perm :=
  { r := true, w := (flags2perm seg.flags).w, x := (flags2perm seg.flags).x, u := true }

/-- The bytes of the page `a` of a segment: those of the file up to `filesz`, then zeros. -/
def segPage (fs : Fs) (seg : LazySeg) (a k : Nat) : UInt8 :=
  if u64 (a + (2 ^ 64 - seg.vaddr)) < seg.filesz ∧
      k < min (seg.filesz - u64 (a + (2 ^ 64 - seg.vaddr))) pgSize then
    match seg.ip with
    | some ip => (fs.content ip).data (u32 (u64 (seg.fileoff + u64 (a + (2 ^ 64 - seg.vaddr)))) + k)
    | none => 0
  else 0

/-- The entry of the page `a` in the swap array. -/
def swapEntry (p : Proc) (a : Nat) : Option SwappedPage := p.swapped.find? fun e => e.va == a

/-- The bytes that a page faulted at `va` has without its swap entry: those of its segment, or
zeros. -/
def backing (fs : Fs) (p : Proc) (va : Nat) : Nat → UInt8 :=
  match lazySegFind p va with
  | some i => segPage fs (p.lazySegs i) (pgRoundDown va)
  | none => fun _ => 0

/-- The bytes that a page faulted at `va` is loaded with. -/
def loadBytes (fs : Fs) (p : Proc) (va : Nat) : Nat → UInt8 :=
  match swapEntry p (pgRoundDown va) with
  | some e => e.data
  | none => backing fs p va

/-- The permissions that a page faulted at `va` is mapped with. -/
def loadPerm (p : Proc) (va : Nat) : Perm :=
  match swapEntry p (pgRoundDown va), lazySegFind p va with
  | none, some i => segPerm (p.lazySegs i)
  | _, _ => fullPerm

theorem loadPerm_r (p : Proc) (va : Nat) : (loadPerm p va).r = true := by
  unfold loadPerm
  split <;> rfl

theorem loadPerm_u (p : Proc) (va : Nat) : (loadPerm p va).u = true := by
  unfold loadPerm
  split <;> rfl

theorem swapSlotOf_eq (p : Proc) (a : Nat) : swapSlotOf p a = (swapEntry p a).map (·.slot) := rfl

/-- The process after `swap_in_page` of the page `a`. -/
def swapInProc (p : Proc) (a : Nat) (slots : Nat → Bool) : Proc :=
  { p with swapped := p.swapped.eraseP fun e => e.va == a, swapSlots := slots }

theorem findIdx?_swapped {a : Nat} :
    ∀ {l : List SwappedPage} {e : SwappedPage}, l.find? (fun x => x.va == a) = some e →
      l.findIdx? (fun x => x.va == a && x.slot == e.slot) = l.findIdx? (fun x => x.va == a) ∧
      ∃ i, l.findIdx? (fun x => x.va == a) = some i ∧ l[i]? = some e := by
  intro l
  induction l with
  | nil => intro e h; cases h
  | cons x l ih =>
    intro e h
    rw [List.find?_cons] at h
    rw [List.findIdx?_cons, List.findIdx?_cons]
    cases hx : x.va == a with
    | true =>
      rw [hx] at h
      cases h
      simp
    | false =>
      rw [hx] at h
      obtain ⟨heq, i, hi, hie⟩ := ih h
      simp only [Bool.false_and, Bool.false_eq_true, if_false, heq, hi]
      exact ⟨trivial, i + 1, rfl, by simpa using hie⟩

/-- `swap_in_page` of a swapped page copies its data and drops its entry. -/
theorem swapInPage_spec {a : Nat} {f : Frame} {e : SwappedPage} {r : Int}
    (he : swapEntry t.p a = some e) (hrun : swapInPage a e.slot f t = .ok (r, t')) :
    r = 0 ∧ ∃ slots, t' = ⟨t.mem.setPage f { t.mem.phys f with byte := e.data },
      swapInProc t.p a slots⟩ := by
  obtain ⟨heq, i, hi, hie⟩ := findIdx?_swapped he
  unfold swapInPage at hrun
  rw [Halting.bind_of_ok (Halting.get_apply _), heq, hi] at hrun
  dsimp only at hrun
  rw [hie] at hrun
  obtain ⟨_, t₁, hmove, hrun⟩ := Halting.bind_eq_ok.mp hrun
  obtain ⟨m₁, hm₁, rfl⟩ := onMem_eq_ok.mp hmove
  obtain ⟨_, t₂, hset, hrun⟩ := Halting.bind_eq_ok.mp hrun
  cases hm₁
  cases hset
  obtain ⟨rfl, rfl⟩ := Halting.pure_eq_ok.mp hrun
  refine ⟨rfl, Function.update t.p.swapSlots e.slot false, ?_⟩
  rw [swapInProc, List.eraseP_eq_eraseIdx, hi]

theorem readi_eq_ok {fs : Fs} {ip off n : Nat} {r : Nat × (Nat → UInt8)}
    (h : readi fs ip off n = .ok r) :
    r = (readiLen (fs.content ip) (u32 off) (u32 n), fun k => (fs.content ip).data
      (u32 off + k)) := by
  unfold readi at h
  dsimp only at h
  cases hb : readiBlocks fs (fs.content ip)
      (blocksOf (u32 off) (readiLen (fs.content ip) (u32 off) (u32 n))) with
  | error e =>
    rw [hb] at h
    cases h
  | ok u =>
    rw [hb] at h
    cases h
    rfl

/-- Loading from a segment gives the bytes and the permissions of the segment. -/
theorem loadSegment_spec {fs : Fs} {a : Nat} {f : Frame} {seg : LazySeg} {r : Option Perm}
    (hzero : (t.mem.phys f).byte = fun _ => 0) (hrun : loadSegment fs a f seg t = .ok (r, t')) :
    (r = none ∧ t' = t) ∨
    (r = some (segPerm seg) ∧ ∃ pg, t' = ⟨t.mem.setPage f pg, t.p⟩ ∧
      pg.byte = segPage fs seg a) := by
  unfold loadSegment at hrun
  dsimp only at hrun
  split at hrun
  · next hlt =>
    obtain ⟨_, t₁, hlock, hrun₁⟩ := Halting.bind_eq_ok.mp hrun
    obtain ⟨-, ht₁⟩ := liftFs_eq_ok.mp hlock
    rw [ht₁] at hrun₁
    cases hip : seg.ip with
    | none =>
      rw [hip] at hrun₁
      obtain ⟨rfl, rfl⟩ := Halting.pure_eq_ok.mp hrun₁
      exact Or.inl ⟨rfl, rfl⟩
    | some ip =>
      rw [hip] at hrun₁
      obtain ⟨⟨n, bytes⟩, t₂, hread, hrun₂⟩ := Halting.bind_eq_ok.mp hrun₁
      obtain ⟨hrd, ht₂⟩ := liftFs_eq_ok.mp hread
      rw [ht₂] at hrun₂
      have hbytes := congrArg Prod.snd (readi_eq_ok hrd)
      dsimp only at hbytes hrun₂
      split at hrun₂
      · obtain ⟨rfl, rfl⟩ := Halting.pure_eq_ok.mp hrun₂
        exact Or.inl ⟨rfl, rfl⟩
      · obtain ⟨_, t₃, hmove, hrun₃⟩ := Halting.bind_eq_ok.mp hrun₂
        obtain ⟨m₃, hm₃, rfl⟩ := onMem_eq_ok.mp hmove
        cases hm₃
        obtain ⟨rfl, rfl⟩ := Halting.pure_eq_ok.mp hrun₃
        refine Or.inr ⟨rfl, _, rfl, ?_⟩
        funext k
        simp only [segPage, hip, hlt, true_and, hbytes]
  · next hlt =>
    obtain ⟨rfl, rfl⟩ := Halting.pure_eq_ok.mp hrun
    refine Or.inr ⟨rfl, t.mem.phys f, ?_, ?_⟩
    · rw [Mem.setPage, Function.update_eq_self]
    · rw [hzero]
      funext k
      rw [segPage, if_neg fun hc => hlt hc.1]

theorem Eviction.lazySegs {p₁ : Proc} {P : Nat → Prop} (h : Eviction t root p₁ P) :
    p₁.lazySegs = t.p.lazySegs := by
  cases h <;> rfl

theorem Eviction.pagetable {p₁ : Proc} {P : Nat → Prop} (h : Eviction t root p₁ P) :
    p₁.pagetable = t.p.pagetable := by
  cases h <;> rfl

/-- An eviction does not touch the swap entry of a page that is not mapped. -/
theorem Eviction.swapEntry {p₁ : Proc} {P : Nat → Prop} (h : Eviction t root p₁ P) {a : Nat}
    (hnone : t.mem.lookup root a = none) : swapEntry p₁ a = swapEntry t.p a := by
  cases h with
  | idle slots => rfl
  | discard oldest entry clean => rfl
  | swapOut oldest entry dirty mapped room free =>
    rename_i victim slot e
    have hva : (victim.va == a) = false := by
      rw [beq_eq_false_iff_ne]
      rintro rfl
      rw [hnone] at mapped
      cases mapped
    simp [Xv6.swapEntry, List.find?_append, hva]

/-- **Loading the page** gives the bytes and the permissions that the process had for it before the
eviction. -/
theorem loadPage_spec {t₀ : Task} {fs : Fs} {va : Nat} {f : Frame} {P : Nat → Prop}
    {r : Option Perm} (hev : Eviction t₀ root t.p P) (hnone : t₀.mem.lookup root va = none)
    (hzero : (t.mem.phys f).byte = fun _ => 0)
    (hrun : loadPage fs va (swapSlotOf t₀.p (pgRoundDown va)) (faultSeg t₀.p va) f t =
      .ok (r, t')) :
    (r = none ∧ t' = t) ∨
    (r = some (loadPerm t₀.p va) ∧ ∃ pg slots, pg.byte = loadBytes fs t₀.p va ∧
      t' = ⟨t.mem.setPage f pg, swapInProc t.p (pgRoundDown va) slots⟩) := by
  have hentry := hev.swapEntry ((lookup_pgRoundDown t₀.mem root va).trans hnone)
  unfold loadPage at hrun
  rw [Halting.bind_of_ok (Halting.get_apply _), swapSlotOf_eq] at hrun
  unfold faultSeg at hrun
  rw [swapSlotOf_eq] at hrun
  cases he : swapEntry t₀.p (pgRoundDown va) with
  | some e =>
    rw [he] at hrun hentry
    dsimp only [Option.map_some] at hrun
    obtain ⟨r₁, t₁, hin, hrun⟩ := Halting.bind_eq_ok.mp hrun
    obtain ⟨rfl, slots, rfl⟩ := swapInPage_spec hentry hin
    rw [if_neg (by decide)] at hrun
    obtain ⟨rfl, rfl⟩ := Halting.pure_eq_ok.mp hrun
    refine Or.inr ⟨?_, _, slots, ?_, rfl⟩
    · rw [loadPerm, he]
      rfl
    · rw [loadBytes, he]
  | none =>
    rw [he] at hrun hentry
    have hproc : t.p = swapInProc t.p (pgRoundDown va) t.p.swapSlots := by
      rw [swapInProc, List.eraseP_of_forall_not]
      intro x hx
      exact List.find?_eq_none.mp hentry x hx
    have hsegs := hev.lazySegs
    cases hi : lazySegFind t₀.p va with
    | none =>
      simp only [Option.map_none, Option.isSome_none, Bool.false_eq_true, if_false, hi] at hrun
      obtain ⟨rfl, rfl⟩ := Halting.pure_eq_ok.mp hrun
      refine Or.inr ⟨?_, t.mem.phys f, t.p.swapSlots, ?_, ?_⟩
      · rw [loadPerm, he, hi]
        rfl
      · rw [loadBytes, he, hzero]
        dsimp only
        rw [backing, hi]
      · rw [← hproc, Mem.setPage, Function.update_eq_self]
    | some i =>
      simp only [Option.map_none, Option.isSome_none, Bool.false_eq_true, if_false, hi] at hrun
      rw [hsegs] at hrun
      rcases loadSegment_spec hzero hrun with ⟨rfl, rfl⟩ | ⟨rfl, pg, rfl, hpg⟩
      · exact Or.inl ⟨rfl, rfl⟩
      · refine Or.inr ⟨?_, pg, t.p.swapSlots, ?_, ?_⟩
        · rw [loadPerm, he, hi]
        · rw [loadBytes, he, hpg]
          dsimp only
          rw [backing, hi]
        · rw [← hproc]

/-! ## The outcomes of the fault handler -/

/-- The process after `add_resident_page` of the page `a`. -/
def addResidentProc (p : Proc) (a : Nat) (isDirty : Bool) : Proc :=
  { p with pfSeq := u64 (p.pfSeq + 1)
           resident := p.resident ++ [{ va := a, seq := int32 (u64 (p.pfSeq + 1)), isDirty }] }

theorem addResidentPage_spec {a : Nat} {isDirty : Bool}
    (hrun : addResidentPage a isDirty t = .ok ((), t')) :
    t' = ⟨t.mem, addResidentProc t.p a isDirty⟩ := by
  unfold addResidentPage at hrun
  obtain ⟨_, t₁, hset, hrun⟩ := Halting.bind_eq_ok.mp hrun
  cases hset
  rw [Halting.bind_of_ok (Halting.get_apply _)] at hrun
  split at hrun
  · cases hrun
  · cases hrun
    rfl

/-- **The outcomes of `demand_page_load_new`**, by return value, task and owned frames after it. -/
inductive Fault (fs : Fs) (t : Task) (va : Nat) (w : Bool) (root : Frame) (own : Set Frame) :
    Int → Task → Set Frame → Prop
  /-- the address is beyond the address space -/
  | beyond (high : maxVa ≤ va) : Fault fs t va w root own (-1) t own
  /-- the page is mapped and may not be written -/
  | readOnly {e : Pte} (low : va < maxVa) (mapped : t.mem.lookup root va = some e)
      (write : w = true) (readOnly : e.perm.w = false) : Fault fs t va w root own (-1) t own
  /-- the page is mapped: a write marks it dirty -/
  | present {e : Pte} (low : va < maxVa) (mapped : t.mem.lookup root va = some e)
      (writable : w = true → e.perm.w = true) :
      Fault fs t va w root own 0 ⟨t.mem, { t.p with
        resident := if w then markDirty (pgRoundDown va) t.p.resident else t.p.resident }⟩ own
  /-- the address is not valid -/
  | invalid (low : va < maxVa) (unmapped : t.mem.lookup root va = none)
      (invalid : isValid t.p va = false) : Fault fs t va w root own (-1) t own
  /-- no frame, or the file is too short; or no page-table page, and then a swapped page is lost -/
  | stopped {P : Nat → Prop} {p₁ p' : Proc} {m' : Mem} {own' : Set Frame} (low : va < maxVa)
      (unmapped : t.mem.lookup root va = none) (valid : isValid t.p va = true)
      (evict : Eviction t root p₁ P) (full : ∀ q, P q → MemFull t)
      (kept : Kept t.mem root own P m' own')
      (proc : p' = p₁ ∨ t.mem.node root (vpath va) = none ∧
        ∃ slots, p' = swapInProc p₁ (pgRoundDown va) slots) :
      Fault fs t va w root own (-1) ⟨m', p'⟩ own'
  /-- the page is loaded and mapped -/
  | loaded {P : Nat → Prop} {p₁ : Proc} {slots : Nat → Bool} {m' : Mem} {own' : Set Frame}
      (low : va < maxVa) (unmapped : t.mem.lookup root va = none) (valid : isValid t.p va = true)
      (evict : Eviction t root p₁ P) (full : ∀ q, P q → MemFull t)
      (pageIn : PageIn t.mem root own P va (loadPerm t.p va) (loadBytes fs t.p va) m' own') :
      Fault fs t va w root own 0
        ⟨m', addResidentProc (swapInProc p₁ (pgRoundDown va) slots) (pgRoundDown va) w⟩ own'

theorem PageIn.of_page {P : Nat → Prop} {va va' : Nat} {perm : Perm} {b : Nat → UInt8}
    (hpage : va / pgSize = va' / pgSize) (h : PageIn m root own P va perm b m' own') :
    PageIn m root own P va' perm b m' own' where
  low := by
    have := h.low
    simp only [maxVa, pgSize] at *
    omega
  acts := h.acts
  page := by
    obtain ⟨f, hf, hb⟩ := h.page
    exact ⟨f, (lookup_of_page hpage).symm.trans hf, hb⟩
  lookup va₁ hva hne := h.lookup va₁ hva (hpage ▸ hne)
  gone va₁ hva hne := h.gone va₁ hva (hpage ▸ hne)
  byte va₁ e hva hne := h.byte va₁ e hva (hpage ▸ hne)
  node := h.node

theorem page_pgRoundDown (va : Nat) : pgRoundDown va / pgSize = va / pgSize := by
  unfold pgRoundDown
  simp only [pgSize]
  omega

/-- The part of the handler after the validity check. -/
theorem faultLoad_spec {fs : Fs} {va : Nat} {w : Bool} {r : Int} (h : UserSpace t.mem root tf own)
    (hp : t.p.pagetable = some root) (hres : ∀ e ∈ t.p.resident, e.va < trapframeVa)
    (hva : va < maxVa) (hnone : t.mem.lookup root va = none) (hvalid : isValid t.p va = true)
    (hrun : faultLoad fs va w t = .ok (r, t')) :
    ∃ own', UserSpace t'.mem root tf own' ∧ Fault fs t va w root own r t' own' := by
  unfold faultLoad at hrun
  rw [Halting.bind_of_ok (Halting.get_apply _)] at hrun
  obtain ⟨o, t₁, hframe, hrun⟩ := Halting.bind_eq_ok.mp hrun
  obtain ⟨P, own₁, hev, hfull, hcase⟩ := faultFrame_spec h hp hres hframe
  -- No frame: the fault stops before it has touched the process.
  rcases hcase with ⟨rfl, h₁, hk⟩ | ⟨f, m₁, rfl, h₁, hk, hholds⟩
  · obtain ⟨rfl, rfl⟩ := Halting.pure_eq_ok.mp hrun
    exact ⟨own₁, h₁, .stopped hva hnone hvalid hev hfull hk (Or.inl rfl)⟩
  dsimp only at hrun
  obtain ⟨_, t₂, hset, hrun⟩ := Halting.bind_eq_ok.mp hrun
  obtain ⟨m₂, hm₂, rfl⟩ := onMem_eq_ok.mp hset
  cases hm₂
  obtain ⟨o₃, t₃, hload, hrun⟩ := Halting.bind_eq_ok.mp hrun
  have hholds₂ := hholds.setPage (PhysPage.fill 0)
  -- The frame is zeroed before the page is read into it, so a short read leaves zeros.
  have hzero : ((t₁.mem.setPage f (PhysPage.fill 0)).phys f).byte = fun _ => 0 := by
    rw [Mem.setPage]
    simp only [Function.update_self]
    rfl
  rcases loadPage_spec (t := ⟨t₁.mem.setPage f (PhysPage.fill 0), t₁.p⟩) hev hnone hzero hload with
    ⟨rfl, rfl⟩ | ⟨rfl, pg, slots, hpg, rfl⟩
  · obtain ⟨_, t₄, hkf, hrun⟩ := Halting.bind_eq_ok.mp hrun
    obtain ⟨m₄, hkm, rfl⟩ := onMem_eq_ok.mp hkf
    obtain ⟨rfl, rfl⟩ := Halting.pure_eq_ok.mp hrun
    obtain ⟨h₄, hk₄⟩ := hholds₂.kfree h₁ hkm
    exact ⟨own₁, h₄, .stopped hva hnone hvalid hev hfull ((hk.trans hk₄).congr fun q => by simp)
      (Or.inl rfl)⟩
  · have hp₃ : (swapInProc t₁.p (pgRoundDown va) slots).pagetable = some root :=
      hev.pagetable.trans hp
    dsimp only at hrun
    rw [Halting.bind_of_ok (pagetableOf_apply (by exact hp₃))] at hrun
    obtain ⟨r₄, t₄, hmap, hrun⟩ := Halting.bind_eq_ok.mp hrun
    obtain ⟨m₄, hmp, rfl⟩ := onMem_eq_ok.mp hmap
    have hholds₃ := hholds₂.setPage pg
    have hbyte : (((t₁.mem.setPage f (PhysPage.fill 0)).setPage f pg).phys f).byte =
        loadBytes fs t.p va := by
      rw [← hpg, Mem.setPage]
      simp only [Function.update_self]
    -- The process has given up its swapped copy by now, also when the mapping fails.
    rcases hholds₃.mapUser hk h₁ (loadPerm_r _ _) (loadPerm_u _ _) hmp with
      ⟨rfl, hnode, hback⟩ | ⟨rfl, own', h', hin⟩
    · rw [if_pos (by decide)] at hrun
      obtain ⟨_, t₅, hkf, hrun⟩ := Halting.bind_eq_ok.mp hrun
      obtain ⟨m₅, hkm, rfl⟩ := onMem_eq_ok.mp hkf
      obtain ⟨rfl, rfl⟩ := Halting.pure_eq_ok.mp hrun
      obtain ⟨own', h', hk'⟩ := hback _ hkm
      refine ⟨own', h', .stopped hva hnone hvalid hev hfull hk' (Or.inr ⟨?_, slots, rfl⟩)⟩
      rwa [vpath_pgRoundDown] at hnode
    · rw [if_neg (by decide)] at hrun
      obtain ⟨_, t₅, hadd, hrun⟩ := Halting.bind_eq_ok.mp hrun
      obtain ⟨rfl, rfl⟩ := Halting.pure_eq_ok.mp hrun
      obtain rfl := addResidentPage_spec hadd
      rw [hbyte] at hin
      exact ⟨own', h', .loaded hva hnone hvalid hev hfull (hin.of_page (page_pgRoundDown va))⟩

/-- **The fault handler** has one of its outcomes, and leaves a user address space. -/
theorem demandPageLoadNew_spec {fs : Fs} {va : Nat} {w x : Bool} {r : Int}
    (h : UserSpace t.mem root tf own) (hp : t.p.pagetable = some root)
    (hres : ∀ e ∈ t.p.resident, e.va < trapframeVa)
    (hrun : demandPageLoadNew fs va w x t = .ok (r, t')) :
    ∃ own', UserSpace t'.mem root tf own' ∧ Fault fs t va w root own r t' own' := by
  unfold demandPageLoadNew at hrun
  split at hrun
  · next hhigh =>
    obtain ⟨rfl, rfl⟩ := Halting.pure_eq_ok.mp hrun
    exact ⟨own, h, .beyond hhigh⟩
  next hlow =>
  have hva : va < maxVa := by omega
  have hva' : pgRoundDown va < maxVa := by
    unfold pgRoundDown
    simp only [maxVa, pgSize] at *
    omega
  -- a page without a valid entry is loaded when the address is valid
  have hunmapped : t.mem.lookup root va = none →
      (if isValid t.p va then faultLoad fs va w else pure (-1) : TM Int) t = .ok (r, t') →
      ∃ own', UserSpace t'.mem root tf own' ∧ Fault fs t va w root own r t' own' := by
    intro hnone hrun
    cases hvalid : isValid t.p va with
    | true =>
      rw [hvalid, if_pos rfl] at hrun
      exact faultLoad_spec h hp hres hva hnone hvalid hrun
    | false =>
      rw [hvalid, if_neg (by decide)] at hrun
      obtain ⟨rfl, rfl⟩ := Halting.pure_eq_ok.mp hrun
      exact ⟨own, h, .invalid hva hnone hvalid⟩
  rw [Halting.bind_of_ok (pagetableOf_apply hp), Halting.bind_of_ok (onMem_walk hva')] at hrun
  rw [vpath_pgRoundDown, px_pgRoundDown] at hrun
  cases hpt : t.mem.node root (vpath va) with
  | none =>
    rw [hpt] at hrun
    dsimp only [Option.map_none] at hrun
    rw [Halting.bind_of_ok (Halting.get_apply _)] at hrun
    exact hunmapped (lookup_of_no_node hpt) hrun
  | some pt =>
    rw [hpt] at hrun
    dsimp only [Option.map_some] at hrun
    rw [Halting.bind_of_ok (onMem_readPte _ _ _), Halting.bind_of_ok (Halting.get_apply _)] at hrun
    have hlook := lookup_of_node hpt
    split at hrun
    · next hv =>
      rw [if_pos hv] at hlook
      unfold faultMapped at hrun
      cases w with
      | false =>
        rw [if_neg (by decide)] at hrun
        obtain ⟨rfl, rfl⟩ := Halting.pure_eq_ok.mp hrun
        exact ⟨own, h, .present hva hlook (fun hc => by cases hc)⟩
      | true =>
        rw [if_pos rfl] at hrun
        split at hrun
        · next hw =>
          obtain ⟨rfl, rfl⟩ := Halting.pure_eq_ok.mp hrun
          exact ⟨own, h, .readOnly hva hlook rfl (by simpa using hw)⟩
        · next hw =>
          obtain ⟨_, t₁, hset, hrun⟩ := Halting.bind_eq_ok.mp hrun
          cases hset
          obtain ⟨rfl, rfl⟩ := Halting.pure_eq_ok.mp hrun
          exact ⟨own, h, .present hva hlook (fun _ => by simpa using hw)⟩
    · next hv =>
      rw [if_neg hv] at hlook
      exact hunmapped hlook hrun

end Xv6
