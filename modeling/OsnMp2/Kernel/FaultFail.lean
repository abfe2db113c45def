import OsnMp2.Kernel.Slots

/-!
# A page fault that fails

The handler may evict a page, free its frame and take the entry of the faulting page out of the swap
array before it finds out that it cannot go on. What must not be lost is every page whose bytes are
nowhere else: the resident pages that are marked dirty, and the swapped ones. Each is afterwards
still mapped, or in the swap array, with the same bytes.

Once `swap_in_page` has dropped the entry, only `mappages` can fail, when a page-table page is
missing. It never is: the page was mapped when it was swapped out, and nothing removes a page-table
page while the process lives. This is the invariant `PathsOk`.

## Main definitions

* `PathsOk`: the page-table path of every swapped page exists
* `HasBytes`, `KeepsBytes`: what a process must not lose, and what it has afterwards
* `GaveUp`: the page is not mapped, and no frame was kept but page-table pages

## Main results

* `pathsOk_reachable`: the invariant
* `fault_keeps_bytes`: a page fault loses nothing
-/

namespace Xv6

variable {k k' : Kernel} {t t' : Task} {root tf : Frame} {own : Nat → Set Frame} {o o' : Set Frame}
  {m m' : Mem} {i : Nat}

/-! ## The paths of swapped pages -/

/-- **The page-table path of every swapped page exists.** -/
def PathsOk (t : Task) (root : Frame) : Prop :=
  ∀ e ∈ t.p.swapped, (t.mem.node root (vpath e.va)).isSome = true

theorem PathsOk.of_nil (h : t.p.swapped = []) : PathsOk t root := by
  intro e he
  rw [h] at he
  cases he

/-- A step that keeps the page-table pages, and swaps no page out. -/
theorem PathsOk.mono (h : PathsOk t root) (hsub : ∀ e ∈ t'.p.swapped, e ∈ t.p.swapped)
    (hnode : ∀ p a, p.length ≤ 2 → t.mem.node root p = some a → t'.mem.node root p = some a) :
    PathsOk t' root := by
  intro e he
  obtain ⟨a, ha⟩ := Option.isSome_iff_exists.mp (h e (hsub e he))
  rw [hnode _ a (by simp) ha]
  rfl

theorem PathsOk.congr (h : PathsOk t root) (hsw : t'.p.swapped = t.p.swapped)
    (hnode : ∀ p, p.length ≤ 2 → t'.mem.node root p = t.mem.node root p) : PathsOk t' root :=
  h.mono (fun e he => by rwa [hsw] at he) fun p a hp ha => by rw [hnode p hp, ha]

/-- A mapped page has a page-table path. -/
theorem node_of_lookup {va : Nat} {e : Pte} (h : m.lookup root va = some e) :
    (m.node root (vpath va)).isSome = true := by
  cases hn : m.node root (vpath va) with
  | none =>
    rw [lookup_of_no_node hn] at h
    cases h
  | some a => rfl

/-- **An eviction** swaps out a page that was mapped. -/
theorem PathsOk.evict {p₁ : Proc} {P : Nat → Prop} (h : PathsOk t root)
    (hev : Eviction t root p₁ P) :
    ∀ e ∈ p₁.swapped, (t.mem.node root (vpath e.va)).isSome = true := by
  cases hev with
  | idle | discard => exact h
  | swapOut oldest entry dirty mapped room free =>
    intro e he
    rcases List.mem_append.mp he with he | he
    · exact h e he
    · obtain rfl := List.mem_singleton.mp he
      exact node_of_lookup mapped

/-- **A page fault** keeps the paths. -/
theorem PathsOk.fault {fs : Fs} {va : Nat} {w : Bool} {r : Int} (h : PathsOk t root)
    (hf : Fault fs t va w root o r t' o') : PathsOk t' root := by
  have hin : ∀ {p₁ : Proc} {P : Nat → Prop} {m' : Mem} {p' : Proc}, Eviction t root p₁ P →
      (∀ p a, p.length ≤ 2 → t.mem.node root p = some a → m'.node root p = some a) →
      (∀ e ∈ p'.swapped, e ∈ p₁.swapped) → PathsOk ⟨m', p'⟩ root := by
    intro p₁ P m' p' hev hnode hsub e he
    obtain ⟨a, ha⟩ := Option.isSome_iff_exists.mp (h.evict hev e (hsub e he))
    rw [hnode _ a (by simp) ha]
    rfl
  cases hf with
  | beyond | readOnly | present | invalid => exact h
  | stopped low unmapped valid evict full kept proc =>
    refine hin evict kept.node fun e he => ?_
    rcases proc with rfl | ⟨-, slots, rfl⟩
    · exact he
    · exact List.mem_of_mem_eraseP he
  | loaded low unmapped valid evict full pageIn =>
    exact hin evict pageIn.node fun e he => List.mem_of_mem_eraseP he

/-- What is taken from free memory leaves the page-table pages alone. -/
theorem TaskOk.node_acts (h : TaskOk t root tf o) (hacts : t.mem.Acts ∅ m' o') {p : List (Fin 512)}
    (hp : p.length ≤ 2) : m'.node root p = t.mem.node root p := by
  have happart : Apart t.mem root tf o ∅ := ⟨h.space, fun _ _ => id, id, id⟩
  refine node_congr_tables (fun q a hq ha => ?_) (by omega)
  funext s
  rw [Mem.tbl, Mem.tbl, happart.phys hacts a (h.space.space.table_own hq ha)]

/-- **`sbrk`** removes no page-table page. -/
theorem PathsOk.sbrk {n r : Int} (h : PathsOk t root) (hg : Grow n t root o r t' o') :
    PathsOk t' root := by
  cases hg with
  | refused | grown | same | wrapped => exact h
  | shrunk neg heap small unmapped => exact h.mono (fun e he => he) unmapped.node

/-- **`exec`** leaves the old page table alone, or empties the swap array. -/
theorem PathsOk.exec {fs : Fs} {ip : Nat} {argv : List (List UInt8)} {r : Int} {root' : Frame}
    (h : PathsOk t root) (htask : TaskOk t root tf o) (hout : ExecOut fs ip argv t root tf o r t')
    (hp : t'.p.pagetable = some root') : PathsOk t' root' := by
  have hsame : t'.p.pagetable = t.p.pagetable → root' = root := fun hpt =>
    Option.some.inj (hp.symm.trans (hpt.trans htask.pagetable))
  cases hout with
  | noElf bad =>
    obtain rfl := hsame rfl
    exact h
  | noTable elf table acts =>
    obtain rfl := hsame rfl
    exact h.congr rfl fun p hlen => htask.node_acts acts hlen
  | bad elf scan table acts why =>
    obtain rfl := hsame rfl
    exact h.congr rfl fun p hlen => htask.node_acts acts hlen
  | noRoom elf scan base room mapped acts =>
    obtain rfl := hsame rfl
    exact h.congr rfl fun p hlen => htask.node_acts acts hlen
  | done => exact .of_nil rfl

/-- **A small step** keeps the paths of every process. -/
theorem EveryTask.paths {mv : Move} (h : EveryTask PathsOk k) (hinv : SysInv k own)
    (hs : SmallStep k mv k') : EveryTask PathsOk k' := by
  obtain ⟨own', -, hslots⟩ := hs.slots hinv
  intro j root hp
  cases hslots j with
  | same paging owned phys =>
    have hp₀ : (k.procs j).pagetable = some root := (congrArg Proc.pagetable paging).symm.trans hp
    obtain ⟨tf, o, ho, -, htask⟩ := hinv.live hp₀
    refine (h j root hp₀).congr (congrArg Proc.swapped paging :) fun p hlen => ?_
    refine node_congr_tables (fun q a hq ha => ?_) (by omega)
    funext s
    have hown : a ∈ own j := by
      rw [ho]
      exact Set.mem_insert_of_mem _ (htask.space.space.table_own hq ha)
    show ((k'.mem.phys a).pte s) = (k.mem.phys a).pte s
    rw [phys a hown]
  | gone pagetable =>
    rw [hp] at pagetable
    cases pagetable
  | fault task task' run out =>
    obtain rfl := Option.some.inj (hp.symm.trans task'.pagetable)
    exact (h j root task.pagetable).fault out
  | write task low mapped user writable page after =>
    have hp₀ := (congrArg (·.p.pagetable) after).symm.trans hp
    refine (h j root hp₀).congr (congrArg (·.p.swapped) after :) fun p hlen => ?_
    rw [show (k'.task j).mem = _ from congrArg Task.mem after]
    refine node_congr_tables (fun q a _ _ => ?_) (by omega)
    funext s
    exact congrFun (pte_setBytes ..) s
  | sbrk int task task' out =>
    obtain rfl := Option.some.inj (hp.symm.trans task'.pagetable)
    exact (h j root task.pagetable).sbrk out
  | exec task opened out => exact (h j _ task.pagetable).exec task out hp
  | child ne unused parent proc content copy rest =>
    exact .of_nil ((congrArg Proc.swapped proc :).trans rfl)

/-- **The page-table path of a swapped page exists in every reachable state.** -/
theorem pathsOk_reachable (h : SmallReachable k) : EveryTask PathsOk k := by
  obtain ⟨k₀, k₁, ms, hboot, huser, hrun⟩ := h
  obtain ⟨hinv, hfirst⟩ := userinit_task hboot huser
  suffices hgoal : (∃ own, SysInv k own) ∧ EveryTask PathsOk k from hgoal.2
  refine hrun.invariant (I := fun k => (∃ own, SysInv k own) ∧ EveryTask PathsOk k) ?_
    ⟨hinv, fun j root hp => ?_⟩
  · rintro k m k' ⟨⟨own, hown⟩, hpaths⟩ hs
    obtain ⟨own', hown', -⟩ := hs.slots hown
    exact ⟨⟨own', hown'⟩, hpaths.paths hown hs⟩
  · obtain ⟨⟨tf, hpaging⟩, -⟩ := hfirst j root hp
    exact .of_nil (congrArg Proc.swapped hpaging :)

/-! ## What must not be lost -/

/-- **The bytes of page `a` are nowhere else**: it is resident and marked dirty, or swapped out. -/
def HasBytes (t : Task) (root : Frame) (a : Nat) (b : Nat → UInt8) : Prop :=
  (∃ e ∈ t.p.resident, e.va = a ∧ e.isDirty = true ∧
    ∃ pte, t.mem.lookup root a = some pte ∧ (t.mem.phys pte.ppn).byte = b) ∨
  ∃ e ∈ t.p.swapped, e.va = a ∧ e.data = b

/-- **The bytes of page `a` are still there**: it is mapped to a frame with them, or swapped out. -/
def KeepsBytes (t : Task) (root : Frame) (a : Nat) (b : Nat → UInt8) : Prop :=
  (∃ pte, t.mem.lookup root a = some pte ∧ (t.mem.phys pte.ppn).byte = b) ∨
  ∃ e ∈ t.p.swapped, e.va = a ∧ e.data = b

theorem HasBytes.keeps {a : Nat} {b : Nat → UInt8} (h : HasBytes t root a b) :
    KeepsBytes t root a b := by
  rcases h with ⟨e, -, -, -, hpte⟩ | he
  · exact Or.inl hpte
  · exact Or.inr he

/-- **The handler gave up**: the page is not mapped, and the frames it took from the free list are
free again or page-table pages. -/
structure GaveUp (t : Task) (root : Frame) (va : Nat) (t' : Task) : Prop where
  unmapped : t'.mem.lookup root va = none
  freed : ∀ f ∈ t.mem.freelist, f ∈ t'.mem.freelist ∨
    ∃ p, p.length ≤ 2 ∧ t'.mem.node root p = some f

/-- An eviction drops no entry of the swap array. -/
theorem Eviction.swapped_mem {p₁ : Proc} {P : Nat → Prop} {e : SwappedPage}
    (hev : Eviction t root p₁ P) (he : e ∈ t.p.swapped) : e ∈ p₁.swapped := by
  cases hev with
  | idle | discard => exact he
  | swapOut => exact List.mem_append_left _ he

/-- **An eviction keeps the bytes**: a dirty page that goes is appended to the swap array. The pages
that do not go are mapped as they were in `m'`. -/
theorem HasBytes.evict {p₁ : Proc} {P : Nat → Prop} {a : Nat} {b : Nat → UInt8}
    (h : HasBytes t root a b) (htask : TaskOk t root tf o) (htab : TablesOk t root)
    (hev : Eviction t root p₁ P)
    (hstay : ∀ pte, a < maxVa → ¬ P (a / pgSize) → t.mem.lookup root a = some pte →
      pte.perm.u = true →
      m'.lookup root a = some pte ∧ (m'.phys pte.ppn).byte = (t.mem.phys pte.ppn).byte) :
    (∃ pte, m'.lookup root a = some pte ∧ (m'.phys pte.ppn).byte = b) ∨
      ∃ e ∈ p₁.swapped, e.va = a ∧ e.data = b := by
  rcases h with ⟨e, he, rfl, hdirty, pte, hpte, hb⟩ | ⟨e, he, hva, hb⟩
  · obtain ⟨hlow, halign⟩ := htask.resident e he
    have hmax : e.va < maxVa := hlow.trans (by decide)
    have hu : pte.perm.u = true := htask.space.user hlow hpte
    by_cases hP : P (e.va / pgSize)
    · -- the page goes: it is the victim
      cases hev with
      | idle => exact hP.elim
      | discard oldest entry clean =>
        rename_i idx victim
        have hmem := List.mem_of_getElem? entry
        have hsame : victim = e := by
          have hva := eq_of_page (htask.resident victim hmem).2 halign hP.symm
          exact List.inj_on_of_nodup_map htab.resident_nodup hmem he hva
        rw [hsame, hdirty] at clean
        cases clean
      | swapOut oldest entry dirty mapped room free =>
        rename_i idx victim slot pte'
        have hmem := List.mem_of_getElem? entry
        have hva := eq_of_page (htask.resident victim hmem).2 halign hP.symm
        rw [hva, hpte] at mapped
        obtain rfl := Option.some.inj mapped
        exact Or.inr ⟨_, List.mem_append_right _ (List.mem_singleton.mpr rfl), hva, hb⟩
    · obtain ⟨hlook, hbyte⟩ := hstay pte hmax hP hpte hu
      exact Or.inl ⟨pte, hlook, hbyte.trans hb⟩
  · exact Or.inr ⟨e, hev.swapped_mem he, hva, hb⟩

/-- The entry of a page that is not mapped stays in the swap array when a page-table page is
missing: there is none. -/
theorem PathsOk.no_entry {p₁ : Proc} {P : Nat → Prop} {va : Nat} (h : PathsOk t root)
    (hev : Eviction t root p₁ P) (hnode : t.mem.node root (vpath va) = none) :
    ∀ e ∈ p₁.swapped, ¬ (e.va == pgRoundDown va) = true := by
  intro e he hva
  have hpath := h.evict hev e he
  rw [beq_iff_eq.mp hva, vpath_pgRoundDown, hnode] at hpath
  cases hpath

/-- The entry that the handler finds for a swapped page. -/
theorem swapEntry_of_mem {e : SwappedPage} {a : Nat} (htab : TablesOk t root) (he : e ∈ t.p.swapped)
    (hva : e.va = a) : swapEntry t.p a = some e := by
  cases hfind : swapEntry t.p a with
  | none => exact absurd (beq_iff_eq.mpr hva) (List.find?_eq_none.mp hfind e he)
  | some e' =>
    have hva' : e'.va = a := by simpa using List.find?_some hfind
    have hmem := List.mem_of_find?_eq_some hfind
    rw [List.inj_on_of_nodup_map htab.swapped_nodup hmem he (hva'.trans hva.symm)]

/-- **The frames of a handler that gave up**: a frame that was free is free or a page-table page. -/
theorem Kept.freed {P : Nat → Prop} (h : UserSpace m root tf o) (h' : UserSpace m' root tf o')
    (hk : Kept m root o P m' o') : ∀ f ∈ m.freelist, f ∈ m'.freelist ∨
      ∃ p, p.length ≤ 2 ∧ m'.node root p = some f := by
  intro f hf
  rcases (hk.acts.mem_total f).mpr (Or.inr hf) with hown | hfree
  swap
  · exact Or.inl hfree
  obtain ⟨hshared, p, hlen, hp⟩ := (h'.space.mem_own f).mp hown
  by_cases hshort : p.length ≤ 2
  · exact Or.inr ⟨p, hshort, hp⟩
  -- a page that is mapped was mapped before, to a frame that was not free
  exfalso
  obtain ⟨q, s, rfl⟩ : ∃ q s, p = q ++ [s] := by
    rcases List.eq_nil_or_concat p with rfl | ⟨q, s, rfl⟩
    · exact absurd (Nat.zero_le 2) hshort
    · exact ⟨q, s, List.concat_eq_append⟩
  obtain ⟨e, he, rfl⟩ := leaf_of_node hp
  have hq : q.length = 2 := by
    simp only [List.length_append, List.length_singleton] at hlen hshort
    omega
  obtain ⟨va, hva, rfl, rfl⟩ := h'.space.low q s e hq he
  have hlook : m'.lookup root va = some e := (lookup_eq_leaf m' root va).trans he
  by_cases hP : P (va / pgSize)
  · rw [hk.gone va hva hP] at hlook
    cases hlook
  · rw [hk.lookup va hva hP] at hlook
    have hu := (h'.space.user _ _ e hq he).mpr hshared
    exact h.space.owned.disjoint _ hf
      (h.space.leaf_own hq ((lookup_eq_leaf m root va).symm.trans hlook) hu)

/-- **What a page fault leaves**: of the pages that were resident and dirty or swapped out,
none is lost; a page that went out of the swap array is mapped; and a handler that failed
gave its frames back. -/
structure FaultKeeps (t : Task) (root : Frame) (va : Nat) (r : Int) (t' : Task) : Prop where
  failed : r = -1 → GaveUp t root va t'
  keeps : ∀ a b, HasBytes t root a b → KeepsBytes t' root a b
  swappedIn : ∀ e ∈ t.p.swapped, e ∉ t'.p.swapped → r = 0 ∧
    ∃ pte, t'.mem.lookup root e.va = some pte ∧ (t'.mem.phys pte.ppn).byte = e.data

theorem FaultKeeps.same {va : Nat} (hnone : t.mem.lookup root va = none) (r : Int) :
    FaultKeeps t root va r t where
  failed _ := ⟨hnone, fun _ hf => Or.inl hf⟩
  keeps _ _ h := h.keeps
  swappedIn _ he hc := absurd he hc

/-- **Every outcome of the handler** on a page that is not mapped keeps the bytes. -/
theorem Fault.keeps {fs : Fs} {va : Nat} {w : Bool} {r : Int} (htask : TaskOk t root tf o)
    (htask' : TaskOk t' root tf o') (htab : TablesOk t root) (hpaths : PathsOk t root)
    (hnone : t.mem.lookup root va = none) (hf : Fault fs t va w root o r t' o') :
    FaultKeeps t root va r t' := by
  cases hf with
  | beyond | invalid => exact .same hnone _
  | readOnly low mapped | present low mapped =>
    rw [hnone] at mapped
    cases mapped
  | stopped low unmapped valid evict full kept proc =>
    rename_i P p₁ p' m'
    have hpage : m'.lookup root va = none := by
      by_cases hP : P (va / pgSize)
      · exact kept.gone va low hP
      · rw [kept.lookup va low hP, hnone]
    -- no entry has gone
    have hsw : p'.swapped = p₁.swapped := by
      rcases proc with rfl | ⟨hnode, slots, rfl⟩
      · rfl
      · exact List.eraseP_of_forall_not (hpaths.no_entry evict hnode)
    have hin : ∀ e ∈ t.p.swapped, e ∈ p'.swapped := fun e he => hsw ▸ evict.swapped_mem he
    refine ⟨fun _ => ⟨hpage, kept.freed htask.space htask'.space⟩, fun a b hab => ?_,
      fun e he hc => ?_⟩
    · unfold KeepsBytes
      dsimp only
      rw [hsw]
      refine hab.evict htask htab evict fun pte hlow hP hpte hu => ⟨?_, ?_⟩
      · exact (kept.lookup a hlow hP).trans hpte
      · exact kept.byte a pte hlow hP hpte hu
    · exact absurd (hin e he) hc
  | loaded low unmapped valid evict full pageIn =>
    rename_i P p₁ slots m'
    obtain ⟨f, hf, hbyte⟩ := pageIn.page
    -- the entry of the faulting page has the bytes that were loaded
    have hload : ∀ e ∈ t.p.swapped, e.va = pgRoundDown va → ∃ pte,
        m'.lookup root e.va = some pte ∧ (m'.phys pte.ppn).byte = e.data := by
      intro e he hva
      refine ⟨_, by rw [hva, lookup_pgRoundDown]; exact hf, ?_⟩
      rw [hbyte, loadBytes, swapEntry_of_mem htab he hva]
    have hin : ∀ e ∈ p₁.swapped, e.va ≠ pgRoundDown va →
        e ∈ p₁.swapped.eraseP fun x => x.va == pgRoundDown va := by
      intro e he hva
      exact (List.mem_eraseP_of_neg (by simpa using hva)).mpr he
    refine ⟨by rintro ⟨⟩, fun a b hab => ?_, fun e he hc => ?_⟩
    · by_cases ha : a = pgRoundDown va
      · rcases hab with ⟨e, -, -, -, pte, hpte, -⟩ | ⟨e, he, hva, hb⟩
        · rw [ha, lookup_pgRoundDown, hnone] at hpte
          cases hpte
        · obtain ⟨pte, hpte, hdata⟩ := hload e he (hva.trans ha)
          exact Or.inl ⟨pte, hva ▸ hpte, hdata.trans hb⟩
      · -- the other pages are as the eviction left them
        have hother : ∀ pte, a < maxVa → ¬ P (a / pgSize) → t.mem.lookup root a = some pte →
            pte.perm.u = true → m'.lookup root a = some pte ∧
              (m'.phys pte.ppn).byte = (t.mem.phys pte.ppn).byte := fun pte hlow hP hpte hu => by
          have hne : a / pgSize ≠ va / pgSize := fun hc => by
            rw [lookup_of_page hc, hnone] at hpte
            cases hpte
          exact ⟨(pageIn.lookup a hlow hne hP).trans hpte, pageIn.byte a pte hlow hne hP hpte hu⟩
        rcases hab.evict htask htab evict hother with hmapped | ⟨e, he, hva, hb⟩
        · exact Or.inl hmapped
        · exact Or.inr ⟨e, hin e he (hva ▸ ha), hva, hb⟩
    · have hva : e.va = pgRoundDown va := by
        by_contra hne
        exact hc (hin e (evict.swapped_mem he) hne)
      exact ⟨rfl, hload e he hva⟩

/-- **A page fault loses nothing**: in every reachable state, whatever fails in a fault on a
page that is not mapped, every page that was dirty or swapped out is afterwards mapped or
swapped out with the same bytes; and when the fault fails, the page is not mapped and no frame
is kept but page-table pages. -/
theorem fault_keeps_bytes (h : SmallReachable k) (hp : (k.procs i).pagetable = some root) {fs : Fs}
    {va : Nat} {w x : Bool} {r : Int} (hnone : k.mem.lookup root va = none)
    (hrun : demandPageLoadNew fs va w x (k.task i) = .ok (r, t')) :
    FaultKeeps (k.task i) root va r t' := by
  obtain ⟨⟨own, hinv⟩, htab⟩ := tablesOk_reachable h
  obtain ⟨tf, o, -, -, htask⟩ := hinv.live hp
  obtain ⟨o', htask', -, hf⟩ := htask.fault hrun
  exact hf.keeps htask htask' (htab i root hp) (pathsOk_reachable h i root hp) hnone

/-- The other CPUs take the frames of the next two calls of `kalloc`. -/
def starvedSwap : Kernel :=
  { afterSwap with mem := { afterSwap.mem with starved := [true, true] } }

theorem starvedSwap_reachable : SmallReachable starvedSwap := by
  refine afterSwap_reachable.small.step (.others ⟨⟨_, rfl⟩, fun j => ?_, rfl⟩)
  exact ⟨(afterSwap.procs j).ofile, (afterSwap.procs j).cwd, rfl⟩

set_option maxRecDepth 100000 in
/-- A fault on the swapped stack page that evicts a dirty page and finds its frame gone. -/
theorem fault_keeps_bytes_starved : ∃ root t', (starvedSwap.procs 0).pagetable = some root ∧
    demandPageLoadNew starvedSwap.fs 0x4ff0 false false (starvedSwap.task 0) = .ok (-1, t') ∧
    t'.p.swapped.map (·.va) = [0x4000, 0x1000] ∧
    FaultKeeps (starvedSwap.task 0) root 0x4ff0 (-1) t' := by
  have hrun : (starvedSwap.procs 0).pagetable.any (fun root =>
      (starvedSwap.mem.lookup root 0x4ff0).isNone &&
      Halting.passes (demandPageLoadNew starvedSwap.fs 0x4ff0 false false (starvedSwap.task 0))
        fun r t' =>
        decide (r = -1) && decide (t'.p.swapped.map (·.va) = [0x4000, 0x1000])) = true := by
    decide +kernel
  obtain ⟨root, hroot, hrun⟩ := (Option.any_eq_true _ _).mp hrun
  rw [Bool.and_eq_true, Option.isNone_iff_eq_none] at hrun
  obtain ⟨r, t', hfault, hr⟩ := Halting.passes_eq_true.mp hrun.2
  simp only [Bool.and_eq_true, decide_eq_true_eq] at hr
  obtain ⟨rfl, hsw⟩ := hr
  exact ⟨root, t', hroot, hfault, hsw, fault_keeps_bytes starvedSwap_reachable hroot hrun.1 hfault⟩

end Xv6
